/-
This file follows the distances between the blocks of the free-list allocator and the page borders.

When `kfree` returns whole pages, what is left of the freed region in front of them and behind them
stays on the free list. The comment in `__free` says that such a slice can always hold a block. It
can as long as every place at which `__alloc` cuts a block in two is a page border, or has room for
a header and `ALLOC_ALIGN` bytes on both sides before the next border. A block cut out of new pages,
and one that no border runs through, is always cut at such a place, the empty request apart. But a
block that has come to reach over a border by being joined with its neighbours can be cut anywhere,
and then a slice of sixteen bytes is left in front of a page that is given back, with its header in
the page.
-/

import AIMv6.FreeListSizes

namespace AIMv6

open List Option Set

namespace FreeList

/-- A page border, or a place with room for a block before the borders on both sides. -/
def Clear (abi : Abi) (place : Nat) : Prop :=
  place % pageSize = 0 ∨ (abi.headerSize + allocAlign ≤ place % pageSize ∧
    place % pageSize + (abi.headerSize + allocAlign) ≤ pageSize)

/-- Blocks that begin and end at such places. -/
def Cleared (abi : Abi) (tiles : List Region) : Prop :=
  ∀ tile ∈ tiles, Clear abi tile.base ∧ Clear abi tile.limit

/-- The lowest block on the free list that is large enough. -/
structure FirstFit (abi : Abi) (head : Nat) (mem : Memory) (need block : Nat) : Prop where
  listed : OnFreeList abi head mem block
  large : need ≤ mem block
  lowest : ∀ other, OnFreeList abi head mem other → need ≤ mem other → block ≤ other

variable {need base : Nat} {others : List Region} {after : Memory}

theorem FirstFit.unique {abi : Abi} {head first second : Nat} {mem : Memory}
    (one : FirstFit abi head mem need first) (other : FirstFit abi head mem need second) :
    first = second :=
  le_antisymm (one.lowest second other.listed other.large) (other.lowest first one.listed one.large)

namespace Call

/-- A request finds a block on the list, or its block fits in the pages asked for. -/
def Fitting (abi : Abi) (kva : Nat → Nat) (head : Nat) (usage : Usage) : Call → Prop
  | kmalloc size flags answer => (Call.kmalloc size flags answer).Sound abi kva head usage
  | kfree _ => True
  | write _ => True

/-- The block that a request finds on the list is not cut, or cut at a clear place. -/
def CutsClear (abi : Abi) (head : Nat) (usage : Usage) : Call → Prop
  | kmalloc size _ _ => ∀ block, FirstFit abi head usage.mem (allocSize abi size) block →
    abi.headerSize + allocAlign ≤ usage.mem block - allocSize abi size →
    Clear abi (block + allocSize abi size)
  | kfree _ => True
  | write _ => True

end Call

/-- The steps of the runs the comment in `__free` is about. -/
def Requested (abi : Abi) (kva : Nat → Nat) (head : Nat) (usage : Usage) (call : Call) : Prop :=
  call.Proper abi kva head usage ∧ call.Fitting abi kva head usage

/-- The steps of the runs it is right for. -/
def Careful (abi : Abi) (kva : Nat → Nat) (head : Nat) (usage : Usage) (call : Call) : Prop :=
  Requested abi kva head usage call ∧ call.CutsClear abi head usage

/-- The blocks that are left on the free list next to the pages returned have room for a header and
`ALLOC_ALIGN` bytes. -/
def Outcome.Roomy (abi : Abi) (head : Nat) (outcome : Outcome) : Prop :=
  ∀ pages ∈ outcome.passed, ∀ block, OnFreeList abi head outcome.usage.mem block →
    (block + outcome.usage.mem block = pages.paddr ∨ block = pages.paddr + pages.size) →
    abi.headerSize + allocAlign ≤ outcome.usage.mem block

variable {abi : Abi} {kva : Nat → Nat} {head fuel : Nat} {mem : Memory} {usage : Usage}
  {free front back tiles : List Region} {block : Region}

/-! ### Clear places -/

theorem Clear.border {place : Nat} (border : place % pageSize = 0) : Clear abi place :=
  Or.inl border

/-- A block with one end at a border and the other at a clear place is large. -/
theorem roomy_of_clear (positive : 0 < block.size) (base : Clear abi block.base)
    (limit : Clear abi block.limit)
    (border : block.base % pageSize = 0 ∨ block.limit % pageSize = 0) :
    abi.headerSize + allocAlign ≤ block.size := by
  obtain ⟨-, -, -, -, small⟩ := abi_numbers abi
  unfold Clear Region.limit allocAlign pageSize at *
  omega

/-- The slices of a block between clear places are clear, and large. -/
theorem clear_slices (base : Clear abi block.base) (limit : Clear abi block.limit) :
    Cleared abi (lowerSlice block ++ upperSlice block) ∧
      ∀ slice ∈ lowerSlice block ++ upperSlice block, abi.headerSize + allocAlign ≤ slice.size := by
  obtain ⟨above, below, first, last⟩ := borders_bounds block
  have each : ∀ slice ∈ lowerSlice block ++ upperSlice block, 0 < slice.size ∧
      Clear abi slice.base ∧ Clear abi slice.limit ∧
      (slice.base % pageSize = 0 ∨ slice.limit % pageSize = 0) := by
    intro slice member
    rcases mem_append.mp member with lower | upper
    · obtain ⟨rfl, inside⟩ := mem_lowerSlice lower
      have ends : (⟨block.base, firstBorder block - block.base⟩ : Region).limit =
          firstBorder block :=
        Nat.add_sub_cancel' above
      rw [ends]
      exact ⟨Nat.sub_pos_of_lt inside, base, Clear.border first, Or.inr first⟩
    · obtain ⟨rfl, inside⟩ := mem_upperSlice upper
      have ends : (⟨lastBorder block, block.limit - lastBorder block⟩ : Region).limit =
          block.limit :=
        Nat.add_sub_cancel' below
      rw [ends]
      exact ⟨Nat.sub_pos_of_lt inside, Clear.border last, limit, Or.inl last⟩
  refine ⟨fun slice member => ⟨(each slice member).2.1, (each slice member).2.2.1⟩,
    fun slice member => ?_⟩
  obtain ⟨positive, clearBase, clearLimit, border⟩ := each slice member
  exact roomy_of_clear positive clearBase clearLimit border

theorem Cleared.append (cleared : Cleared abi tiles)
    (clearedOthers : Cleared abi others) : Cleared abi (tiles ++ others) :=
  forall_mem_append.mpr ⟨cleared, clearedOthers⟩

theorem Cleared.subset (cleared : Cleared abi tiles) (subset : others ⊆ tiles) :
    Cleared abi others := fun tile member => cleared tile (subset member)

theorem cleared_cutParts {need : Nat} (base : Clear abi block.base) (limit : Clear abi block.limit)
    (fits : need ≤ block.size)
    (cut : abi.headerSize + allocAlign ≤ block.size - need → Clear abi (block.base + need)) :
    Cleared abi (cutParts abi block need) := by
  unfold cutParts cutBlock
  split
  · rename_i large
    have ends : (⟨block.base + need, block.size - need⟩ : Region).limit = block.limit := by
      unfold Region.limit
      dsimp only
      omega
    refine forall_mem_cons.mpr ⟨⟨base, cut large⟩, forall_mem_singleton.mpr ⟨cut large, ?_⟩⟩
    rw [ends]
    exact limit
  · exact forall_mem_singleton.mpr ⟨base, limit⟩

variable {size : Nat}

theorem pages_cut_clear (small : size + abi.headerSize + pageSize < abi.modulus)
    (border : base % pageSize = 0)
    (large : abi.headerSize + allocAlign ≤ pagesSize abi size - allocSize abi size) :
    Clear abi (base + allocSize abi size) := by
  obtain ⟨-, -, aligned, header, limit⟩ := abi_numbers abi
  obtain ⟨need, pages⟩ := request_sizes small
  rw [need, pages] at large
  rw [need]
  unfold Clear allocAlign pageSize at *
  omega

/-! ### The steps -/

/-- The block that `__alloc` takes from the list is the lowest that is large enough. -/
theorem Invariant.firstFit (invariant : Invariant abi head usage (front ++ block :: back))
    {need : Nat} (large : need ≤ block.size) (smaller : ∀ other ∈ front, other.size < need) :
    FirstFit abi head usage.mem need block.base := by
  have sizes := invariant.represents.sizes
  refine ⟨invariant.represents.onFreeList_iff.mpr ⟨block, by simp, rfl⟩, ?_,
    fun place listed fits => ?_⟩
  · rw [sizes block (by simp)]
    exact large
  · obtain ⟨other, member, rfl⟩ := invariant.represents.onFreeList_iff.mp listed
    rw [sizes other member] at fits
    rcases mem_append.mp member with before | here
    · exact absurd fits (not_le.mpr (smaller other before))
    · rcases mem_cons.mp here with rfl | behind
      · exact le_rfl
      · have order := (pairwise_cons.mp (pairwise_append.mp invariant.ascending).2.1).1 other behind
        unfold Region.limit at order
        omega

/-- The blocks after a block was handed out. -/
theorem CutFrom.cleared {owned : Set Nat}
    (cutFrom : CutFrom abi head usage owned need size front block back after)
    (others : Cleared abi (front ++ back)) (live : Cleared abi (usage.blocks abi))
    (parts : Cleared abi (cutParts abi block need)) :
    Cleared abi ((front ++ (cutBlock abi block need).2 ++ back) ++
      Usage.blocks abi ⟨after, ⟨payload abi block.base, size⟩ :: usage.live, owned⟩) := by
  have blocks : Usage.blocks abi ⟨after, ⟨payload abi block.base, size⟩ :: usage.live, owned⟩ =
      (cutBlock abi block need).1 :: usage.blocks abi := by
    rw [Usage.blocks, map_cons, cutFrom.isBlock]
    exact congrArg _ cutFrom.handedOut.same
  rw [blocks]
  refine (others.append (parts.append live)).subset fun tile member => ?_
  simp only [cutParts, mem_append, mem_cons] at member ⊢
  tauto

/-- An object that is cut from a block on the list, at a clear place. -/
theorem Invariant.alloc_clear (invariant : Invariant abi head usage free)
    (cleared : Cleared abi (free ++ usage.blocks abi)) {size flags : Nat} {answer : Option Nat}
    (small : size + abi.headerSize + pageSize < abi.modulus) (enough : free.length < fuel)
    (fit : ∃ block ∈ free, allocSize abi size ≤ block.size)
    (cutsClear : (Call.kmalloc size flags answer).CutsClear abi head usage) :
    ∃ front block back after, free = front ++ block :: back ∧ allocSize abi size ≤ block.size ∧
      alloc abi kva head fuel size flags answer usage.mem =
        some ⟨some (payload abi block.base), after, none⟩ ∧
      CutFrom abi head usage usage.owned (allocSize abi size) size front block back after ∧
      Cleared abi ((front ++ (cutBlock abi block (allocSize abi size)).2 ++ back) ++
        Usage.blocks abi ⟨after, ⟨payload abi block.base, size⟩ :: usage.live, usage.owned⟩) := by
  obtain ⟨front, block, back, after, rfl, large, smaller, returned, cutFrom⟩ :=
    @Invariant.alloc_first _ _ _ _ invariant kva _ _ flags answer (allocSize_fits small) enough fit
  obtain ⟨base, limit⟩ := cleared block (by simp)
  have parts : Cleared abi (cutParts abi block (allocSize abi size)) := by
    refine cleared_cutParts base limit large fun room => ?_
    have taken := cutsClear block.base (invariant.firstFit large smaller)
    rw [invariant.represents.sizes block (by simp)] at taken
    exact taken room
  have others : Cleared abi (front ++ back) := cleared.subset fun tile member =>
    mem_append_left _ (((sublist_cons_self block back).append_left front).subset member)
  exact ⟨front, block, back, after, rfl, large, returned, cutFrom,
    cutFrom.cleared others (cleared.subset (subset_append_right _ _)) parts⟩

section Clear

variable (invariant : Invariant abi head usage free)
  (cleared : Cleared abi (free ++ usage.blocks abi))

include invariant cleared

/-- An object that is cut from new pages. -/
theorem Invariant.takePages_clear {size flags paddr : Nat}
    (small : size + abi.headerSize + pageSize < abi.modulus) (enough : free.length < fuel)
    (granted : Granted abi head usage ⟨kva paddr, pagesSize abi size⟩)
    (inside : kva paddr + pagesSize abi size < abi.modulus)
    (large : allocSize abi size ≤ pagesSize abi size) :
    ∃ front back after, free = front ++ back ∧
      FreeList.takePages abi kva head fuel size flags paddr usage.mem =
        some (payload abi (kva paddr), after) ∧
      CutFrom abi head usage ((⟨kva paddr, pagesSize abi size⟩ : Region).bytes ∪ usage.owned)
        (allocSize abi size) size front ⟨kva paddr, pagesSize abi size⟩ back after ∧
      Cleared abi
        ((front ++ (cutBlock abi ⟨kva paddr, pagesSize abi size⟩ (allocSize abi size)).2 ++ back) ++
          Usage.blocks abi ⟨after, ⟨payload abi (kva paddr), size⟩ :: usage.live,
            (⟨kva paddr, pagesSize abi size⟩ : Region).bytes ∪ usage.owned⟩) := by
  obtain ⟨front, back, after, rfl, taken, cutFrom⟩ := @Invariant.takePages_parts _ _
    _ _ invariant _ _ _ flags _ small enough granted inside large
  have parts := cleared_cutParts
    (Clear.border granted.aligned) (Clear.border (pages_limit small granted.aligned)) large
    (pages_cut_clear small granted.aligned)
  exact ⟨front, back, after, rfl, taken, cutFrom,
    cutFrom.cleared (cleared.subset (subset_append_left _ _))
      (cleared.subset (subset_append_right _ _)) parts⟩

theorem Invariant.kmalloc_clear {flags : Nat} {answer : Option Nat}
    (careful : Careful abi kva head usage (.kmalloc size flags answer))
    (enough : free.length < fuel) :
    ∃ outcome left, (Call.kmalloc size flags answer).run abi kva head fuel usage = some outcome ∧
      Invariant abi head outcome.usage left ∧
      Cleared abi (left ++ outcome.usage.blocks abi) := by
  obtain ⟨⟨⟨small, promise⟩, sound⟩, cutsClear⟩ := careful
  by_cases fit : ∃ block ∈ free, allocSize abi size ≤ block.size
  · obtain ⟨front, block, back, after, rfl, -, returned, ⟨handedOut, -⟩, kept⟩ :=
      @Invariant.alloc_clear _ kva _ _ _ _ invariant cleared _ flags answer small enough fit
        cutsClear
    refine ⟨_, front ++ (cutBlock abi block (allocSize abi size)).2 ++ back,
      by rw [Call.run, returned, map_some], ?_, ?_⟩
    · simpa using handedOut.invariant
    · simpa using kept
  · have none := size_lt_of_no_fit fit
    rcases answer with _ | paddr
    · refine ⟨_, free, by
        rw [Call.run, invariant.alloc_refused enough none, map_some], ?_, ?_⟩
      · simpa using invariant
      · simpa using cleared
    · have room := @Invariant.room_of_sound _ _ _ _ _ invariant _ flags _ sound none
      obtain ⟨front, back, after, rfl, taken, ⟨handedOut, -⟩, kept⟩ :=
        @Invariant.takePages_clear _ _ _ _ _ _ invariant cleared _ flags _ small enough
          (promise paddr rfl) room.2 room.1
      refine ⟨_, front ++ (cutBlock abi ⟨kva paddr, pagesSize abi size⟩ (allocSize abi size)).2 ++
        back, by
        rw [Call.run, invariant.represents.alloc_takePages enough none, taken, map_some,
          map_some], ?_, ?_⟩
      · simpa using handedOut.invariant
      · simpa using kept

variable {object : Object} {extent : Region}

theorem Invariant.extent_clear (live : object ∈ usage.live)
    (isExtent : Extent abi head usage.mem (object.block abi usage.mem) extent) :
    Clear abi extent.base ∧ Clear abi extent.limit := by
  have own := cleared (object.block abi usage.mem) (mem_append_right _ (mem_map_of_mem live))
  have listed : ∀ place, OnFreeList abi head usage.mem place →
      Clear abi place ∧ Clear abi (place + usage.mem place) := by
    intro place onList
    obtain ⟨tile, member, rfl⟩ := invariant.represents.onFreeList_iff.mp onList
    rw [invariant.represents.sizes tile member]
    exact cleared tile (mem_append_left _ member)
  obtain ⟨lower, upper⟩ := isExtent
  refine ⟨?_, ?_⟩
  · rcases lower with ⟨onList, -⟩ | ⟨same, -⟩
    · exact (listed _ onList).1
    · rw [same]
      exact own.1
  · rcases upper with ⟨onList, ends⟩ | ⟨ends, -⟩
    · rw [ends]
      exact (listed _ onList).2
    · rw [ends]
      exact own.2

/-- The blocks after an object was freed, when the region it becomes part of stays on the list, and
when its whole pages are returned. -/
theorem Invariant.merged_clear (live : object ∈ usage.live)
    (merged : Merged abi head usage object free after front extent back) {objects : List Region}
    (same : objects = (usage.live.erase object).map (Object.block abi usage.mem)) :
    Cleared abi ((front ++ extent :: back) ++ objects) ∧
      Cleared abi ((front ++ lowerSlice extent ++ upperSlice extent ++ back) ++ objects) := by
  obtain ⟨base, limit⟩ := invariant.extent_clear cleared live merged.extent
  have others : Cleared abi (front ++ back) := cleared.subset fun tile member =>
    mem_append_left _ (merged.old tile member)
  have left : Cleared abi objects := by
    rw [same]
    exact cleared.subset fun tile member => mem_append_right _ ((erase_sublist.map _).subset member)
  refine ⟨Cleared.append (fun tile member => ?_) left, ?_⟩
  · rcases mem_cons.mp (perm_middle.mem_iff.mp member) with rfl | old
    · exact ⟨base, limit⟩
    · exact others tile old
  · refine (others.append ((clear_slices base limit).1.append left)).subset fun tile member => ?_
    simp only [mem_append] at member ⊢
    tauto

/-- The slices of the region a freed block becomes part of have room for a header. -/
theorem Invariant.slices_roomy (live : object ∈ usage.live)
    (isExtent : Extent abi head usage.mem (object.block abi usage.mem) extent) :
    ∀ slice ∈ lowerSlice extent ++ upperSlice extent, abi.headerSize ≤ slice.size := by
  intro slice member
  obtain ⟨base, limit⟩ := invariant.extent_clear cleared live isExtent
  exact (Nat.le_add_right _ _).trans ((clear_slices base limit).2 slice member)

/-- `kfree` keeps the places clear, and what it leaves next to the pages it returns is large. -/
theorem Invariant.kfree_clear {object : Object} (live : object ∈ usage.live)
    (enough : free.length < fuel) :
    ∃ outcome left, (Call.kfree object).run abi kva head fuel usage = some outcome ∧
      Invariant abi head outcome.usage left ∧ Cleared abi (left ++ outcome.usage.blocks abi) ∧
      outcome.Roomy abi head := by
  obtain ⟨outcome, left, after, front, extent, back, returned, kept, -, merged, blocks, effect⟩ :=
    invariant.kfree live (fun _ isExtent _ => invariant.slices_roomy cleared live isExtent) enough
  obtain ⟨whole, sliced⟩ := invariant.merged_clear cleared live merged blocks
  refine ⟨outcome, left, returned, kept, ?_⟩
  rcases effect with ⟨-, nothing, -, rfl⟩ | ⟨flags, pages, -, rfl, passed⟩
  · refine ⟨whole, ?_⟩
    rw [Outcome.Roomy, nothing]
    exact nofun
  · refine ⟨sliced, ?_⟩
    rw [Outcome.Roomy, passed]
    rintro _ ⟨⟩ place onList beside
    obtain ⟨-, -, first, last⟩ := borders_bounds extent
    obtain ⟨tile, member, rfl⟩ := kept.represents.onFreeList_iff.mp onList
    have size := kept.represents.sizes tile member
    rw [size] at beside ⊢
    have inTiles := mem_append_left (outcome.usage.blocks abi) member
    refine roomy_of_clear (kept.tiled.fine tile inTiles).positive (sliced tile inTiles).1
      (sliced tile inTiles).2 ?_
    rcases beside with ends | begins
    · refine Or.inr ?_
      rw [Region.limit, ends]
      exact first
    · refine Or.inl ?_
      rw [begins]
      rw [Nat.add_sub_cancel' pages.le]
      exact last

end Clear

/-! ### Runs -/

theorem Invariant.step_clear (invariant : Invariant abi head usage free)
    (cleared : Cleared abi (free ++ usage.blocks abi)) {call : Call}
    (careful : Careful abi kva head usage call) (enough : free.length < fuel) :
    ∃ outcome left, call.run abi kva head fuel usage = some outcome ∧
      Invariant abi head outcome.usage left ∧
      Cleared abi (left ++ outcome.usage.blocks abi) := by
  cases call with
  | kmalloc size flags answer => exact invariant.kmalloc_clear cleared careful enough
  | kfree object =>
    obtain ⟨outcome, left, returned, kept, after, -⟩ :=
      invariant.kfree_clear cleared careful.1.1 enough
    exact ⟨outcome, left, returned, kept, after⟩
  | write memory =>
    refine ⟨_, free, rfl, invariant.write careful.1.1, ?_⟩
    rw [invariant.write_blocks careful.1.1]
    exact cleared

theorem Reachable.cleared
    (reachable : Reachable abi kva head (Careful abi kva head) (initial abi head mem) usage) :
    ∃ free, Invariant abi head usage free ∧ Cleared abi (free ++ usage.blocks abi) :=
  reachable.keeps
    (fun usage free => Invariant abi head usage free ∧ Cleared abi (free ++ usage.blocks abi))
    ⟨[], Invariant.start abi head mem, nofun⟩
    fun kept careful enough => kept.1.step_clear kept.2 careful enough

/-- In every run whose requests fit and cut no block next to a page border, `kfree` of a live object
returns, and when it returns pages the slices it leaves are large enough for a block. -/
theorem returned_slices_roomy
    (reachable : Reachable abi kva head (Careful abi kva head) (initial abi head mem) usage)
    {object : Object} (live : object ∈ usage.live) :
    (∃ fuel outcome, (Call.kfree object).run abi kva head fuel usage = some outcome) ∧
      ∀ fuel outcome, (Call.kfree object).run abi kva head fuel usage = some outcome →
        outcome.Roomy abi head := by
  obtain ⟨free, invariant, cleared⟩ := reachable.cleared
  refine ⟨?_, fun fuel outcome returned => ?_⟩
  · obtain ⟨outcome, -, returned, -⟩ :=
      invariant.kfree_clear cleared live (Nat.lt_succ_self free.length)
    exact ⟨_, outcome, returned⟩
  · obtain ⟨again, -, same, -, -, roomy⟩ :=
      invariant.kfree_clear cleared live (Nat.lt_succ_of_le (Nat.le_add_left _ fuel))
    rw [Call.run_mono (Nat.le_succ_of_le (Nat.le_add_right _ _)) returned] at same
    cases same
    exact roomy

/-! ### Two runs that end with the return of a page -/

theorem Reachable.mono {allowed granted : Usage → Call → Prop} {start : Usage}
    (weaker : ∀ usage call, allowed usage call → granted usage call)
    (reachable : Reachable abi kva head allowed start usage) :
    Reachable abi kva head granted start usage := by
  induction reachable with
  | start => exact Reachable.start
  | step call _ fits returned inductionHypothesis =>
    exact Reachable.step call inductionHypothesis (weaker _ _ fits) returned

theorem requested_none (small : size + Abi.ilp32.headerSize + pageSize < Abi.ilp32.modulus) :
    Requested .ilp32 (· + 0x80000000) 0x1000 usage (.kmalloc size 0 none) :=
  ⟨⟨small, fun _ same => by cases same⟩, fun _ same => by cases same⟩

/-- The states after a request that fills most of a first page, and after two requests more, which
are served from a second page behind the first. -/
def oneServed : Usage :=
  bootUsage.serve ⟨0x80100020, 3552⟩ (some 0x100000) (some ⟨0x100000, 4096, 0, 0⟩)

def twoServed : Usage :=
  oneServed.serve ⟨0x80101020, 1000⟩ (some 0x101000) (some ⟨0x101000, 4096, 0, 0⟩)

def threeServed : Usage := twoServed.serve ⟨0x80101430, 1024⟩ none none

/-- With nothing on the free list the first request is careful. -/
theorem oneServed_reachable : FromBoot Careful oneServed := by
  have values : bootUsage.reply 3552 (some 0x100000) =
      some (some 0x80100020, some ⟨0, 4096, 0, 0⟩) := by decide +kernel
  have asked : pagesSize .ilp32 3552 = 4096 := by decide +kernel
  have nothing : ∀ block, ¬ OnFreeList .ilp32 0x1000 bootUsage.mem block := by
    intro block listed
    obtain ⟨tile, member, -⟩ :=
      (Invariant.start .ilp32 0x1000 fun _ => 0).represents.onFreeList_iff.mp listed
    cases member
  refine Reachable.start.next (run_serve _ values rfl) ⟨⟨⟨by decide +kernel, ?_⟩, ?_⟩,
    fun block fit => absurd fit.listed (nothing block)⟩
  · rintro _ ⟨⟩
    rw [asked]
    exact bootUsage_granted
  · rintro _ ⟨⟩
    exact Or.inr ⟨by decide +kernel, by decide +kernel⟩

/-- The rest of the first page is too small for the second request. -/
theorem twoServed_reachable : FromBoot Careful twoServed := by
  have values : oneServed.reply 1000 (some 0x101000) =
      some (some 0x80101020, some ⟨0, 4096, 0, 0⟩) := by decide +kernel
  have asked : pagesSize .ilp32 1000 = 4096 := by decide +kernel
  have owned : oneServed.owned = (⟨0x80100000, 4096⟩ : Region).bytes := by
    rw [oneServed, Usage.serve, pagesAt_some]
    exact union_empty _
  have listed : ∀ block, OnFreeList .ilp32 0x1000 oneServed.mem block ↔ block ∈ [0x80100e00] :=
    fun _ => onFreeList_iff_mem (by decide +kernel) (by decide)
  refine oneServed_reachable.next (run_serve _ values rfl)
    ⟨⟨⟨by decide +kernel, ?_⟩, ?_⟩, fun block fit => ?_⟩
  · rintro _ ⟨⟩
    rw [asked]
    refine ⟨by decide, ?_, fun inside => absurd inside.1 (by decide),
      fun inside => absurd inside.1 (by decide)⟩
    rw [owned]
    exact (Region.disjoint_of_limit_le (by decide)).symm
  · rintro _ ⟨⟩
    exact Or.inr ⟨by decide +kernel, by decide +kernel⟩
  · obtain rfl := mem_singleton.mp ((listed block).mp fit.listed)
    exact absurd fit.large (by decide +kernel)

/-- The rest of the second page is cut clear of its borders. -/
theorem threeServed_reachable : FromBoot Careful threeServed := by
  have values : twoServed.reply 1024 none = some (some 0x80101430, none) := by decide +kernel
  have listed : ∀ block, OnFreeList .ilp32 0x1000 twoServed.mem block ↔
      block ∈ [0x80100e00, 0x80101410] :=
    fun _ => onFreeList_iff_mem (by decide +kernel) (by decide)
  refine twoServed_reachable.next (run_serve _ values rfl)
    ⟨requested_none (by decide), fun block fit _ => ?_⟩
  rcases mem_cons.mp ((listed block).mp fit.listed) with rfl | last
  · exact absurd fit.large (by decide +kernel)
  · obtain rfl := mem_singleton.mp last
    exact Or.inr ⟨by decide +kernel, by decide +kernel⟩

/-- The state after the second object was freed, whose block is joined with the rest of the first
page. -/
def spanJoined : Usage := threeServed.release ⟨0x80101020, 1000⟩ none

theorem spanJoined_reachable : FromBoot Careful spanJoined := by
  have freed : (FreeList.kfree .ilp32 0x1000 4 0x80101020 threeServed.mem).map Prod.fst =
      some none := by
    decide +kernel
  have live : (⟨0x80101020, 1000⟩ : Object) ∈ threeServed.live := by decide +kernel
  exact threeServed_reachable.next (run_release freed) ⟨⟨live, trivial⟩, trivial⟩

/-- Freeing the other object of the second page then gives the page back, and the slice that is left
in front of it has the 512 bytes of the rest of the first page. -/
theorem returned_slices_roomy_joined : FromBoot Careful spanJoined ∧
    ∃ fuel outcome, (Call.kfree ⟨0x80101430, 1024⟩).run .ilp32 (· + 0x80000000) 0x1000 fuel
        spanJoined = some outcome ∧ outcome.passed = some ⟨0x80101000, 4096, 0, 0⟩ ∧
      OnFreeList .ilp32 0x1000 outcome.usage.mem 0x80100e00 ∧
      outcome.usage.mem 0x80100e00 = 512 ∧ outcome.Roomy .ilp32 0x1000 := by
  have freed : (FreeList.kfree .ilp32 0x1000 4 0x80101430 spanJoined.mem).map Prod.fst =
      some (some ⟨0x80101000, 4096, 0, 0⟩) := by decide +kernel
  have live : (⟨0x80101430, 1024⟩ : Object) ∈ spanJoined.live := by decide +kernel
  have slice : (spanJoined.release ⟨0x80101430, 1024⟩ (some ⟨0x80101000, 4096, 0, 0⟩)).mem 0x1000 =
      node .ilp32 0x80100e00 := by
    decide +kernel
  have roomy := (returned_slices_roomy spanJoined_reachable live).2 _ _ (run_release freed)
  exact ⟨spanJoined_reachable, 4, _, run_release freed, rfl, ⟨by decide, 1, slice⟩,
    by decide +kernel, roomy⟩

/-- The state after a request that takes the joined block up to sixteen bytes before the border. -/
def spanCut : Usage := spanJoined.serve ⟨0x80100e20, 464⟩ none none

theorem spanCut_reachable : FromBoot Requested spanCut := by
  have values : spanJoined.reply 464 none = some (some 0x80100e20, none) := by decide +kernel
  exact (spanJoined_reachable.mono fun _ _ careful => careful.1).next (run_serve _ values rfl)
    (requested_none (by decide))

/-- Freeing the other object of the second page gives the page back and leaves a slice of sixteen
bytes in front of it. -/
theorem returned_slice_small : FromBoot Requested spanCut ∧
    ∃ fuel outcome, (Call.kfree ⟨0x80101430, 1024⟩).run .ilp32 (· + 0x80000000) 0x1000 fuel
      spanCut = some outcome ∧ ¬ outcome.Roomy .ilp32 0x1000 := by
  have values : (FreeList.kfree .ilp32 0x1000 4 0x80101430 spanCut.mem).map
      (fun result => (result.1, result.2 0x1000, result.2 0x80100ff0)) =
        some (some ⟨0x80101000, 4096, 0, 0⟩, node .ilp32 0x80100ff0, 16) := by decide +kernel
  obtain ⟨⟨passed, after⟩, freed, same⟩ := map_eq_some_iff.mp values
  obtain ⟨rfl, rest⟩ := Prod.mk.inj same
  obtain ⟨toSlice, size⟩ := Prod.mk.inj rest
  dsimp only at toSlice size
  refine ⟨spanCut_reachable, 4, _, by rw [Call.run, freed, map_some], fun roomy => ?_⟩
  have room := roomy _ rfl 0x80100ff0 ⟨by decide, 1, toSlice⟩ (Or.inl (by dsimp only; rw [size]))
  dsimp only at room
  rw [size] at room
  exact absurd room (by decide)

end FreeList

end AIMv6
