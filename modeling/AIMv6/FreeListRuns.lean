/-
This file follows the free-list allocator through every run of `kmalloc` and `kfree` after
`simple_allocator_init`.

Between the calls the rest of the kernel may write anywhere but to the list head and to the
allocator's part of the pages it owns, which is all of them without the bytes that were asked
for. Two conditions keep the live blocks apart from each other and from the free list. A request
must find a block or be granted pages with room for its header, which the source does not ask
for: for one page of bytes it asks for one page and cuts a block out of it that is larger. And
when `kfree` returns pages, the slices that stay must have room for a header.
-/

import AIMv6.FreeListSeams

namespace AIMv6

open List hiding Disjoint Vector
open Option Function Set

namespace FreeList

/-- A step of a run: a call, with the answer of `alloc_pages` should it be asked, or what the rest
of the kernel makes of the memory in between. -/
inductive Call where
  | kmalloc (size flags : Nat) (answer : Option Nat)
  | kfree (object : Object)
  | write (mem : Memory)

/-- What a step leads to, with the pages it is granted and the pages it passes to `free_pages`. -/
structure Outcome where
  usage : Usage
  granted : Option Pages
  passed : Option Pages

/-- The addresses of some pages, if there are any, under a map of their first address. -/
def pagesAt (place : Nat → Nat) (pages : Option Pages) : Set Nat :=
  {address | ∃ given ∈ pages, address ∈ (⟨place given.paddr, given.size⟩ : Region).bytes}

/-- The cells that nobody but the allocator writes. -/
def Usage.reserved (abi : Abi) (head : Nat) (usage : Usage) : Set Nat :=
  {address | address = head ∨ address = head + abi.wordSize ∨ (address ∈ usage.owned ∧
    ∀ object ∈ usage.live, address ∉ (⟨object.obj, object.size⟩ : Region).bytes)}

namespace Call

/-- The effect of a step. The allocator owns pages from their grant until it passes their
addresses to `free_pages`. -/
def run (abi : Abi) (kva : Nat → Nat) (head fuel : Nat) (usage : Usage) : Call → Option Outcome
  | kmalloc size flags answer =>
    (alloc abi kva head fuel size flags answer usage.mem).map fun result =>
      let granted := result.asked.bind fun pages => answer.map fun paddr => { pages with paddr }
      { usage :=
          { mem := result.mem
            live := (result.obj.map fun obj => (⟨obj, size⟩ : Object)).toList ++ usage.live
            owned := pagesAt kva granted ∪ usage.owned }
        granted
        passed := none }
  | kfree object =>
    (FreeList.kfree abi head fuel object.obj usage.mem).map fun result =>
      { usage :=
          { mem := result.2
            live := usage.live.erase object
            owned := usage.owned \ pagesAt id result.1 }
        granted := none
        passed := result.1 }
  | write mem => some { usage := { usage with mem }, granted := none, passed := none }

/-- What the surroundings promise: requests do not wrap, `alloc_pages` grants fresh pages, only
live objects are freed, and what is reserved is left alone. -/
def Proper (abi : Abi) (kva : Nat → Nat) (head : Nat) (usage : Usage) : Call → Prop
  | kmalloc size _ answer =>
    size + abi.headerSize + pageSize < abi.modulus ∧
      ∀ paddr ∈ answer, Granted abi head usage ⟨kva paddr, pagesSize abi size⟩
  | kfree object => object ∈ usage.live
  | write mem => Set.EqOn mem usage.mem (usage.reserved abi head)

/-- The conditions on a step under which the blocks stay apart. A request finds a block on the
list, or the pages it may be granted have room for its block and end below the top of the address
space. When the region a freed block becomes part of has whole pages, what is left of it in front
of and behind them has room for a header. -/
def Sound (abi : Abi) (kva : Nat → Nat) (head : Nat) (usage : Usage) : Call → Prop
  | kmalloc size _ answer => ∀ paddr ∈ answer,
    (∃ block, OnFreeList abi head usage.mem block ∧ allocSize abi size ≤ usage.mem block) ∨
      (allocSize abi size ≤ pagesSize abi size ∧ kva paddr + pagesSize abi size < abi.modulus)
  | kfree object => ∀ extent, Extent abi head usage.mem (object.block abi usage.mem) extent →
      firstBorder extent < lastBorder extent →
      ∀ slice ∈ lowerSlice extent ++ upperSlice extent, abi.headerSize ≤ slice.size
  | write _ => True

end Call

/-- The state after `simple_allocator_init`. -/
def initial (abi : Abi) (head : Nat) (mem : Memory) : Usage := ⟨listInit abi mem head, [], ∅⟩

/-- The states of the runs whose steps are all allowed where they are made. -/
inductive Reachable (abi : Abi) (kva : Nat → Nat) (head : Nat) (allowed : Usage → Call → Prop)
    (start : Usage) : Usage → Prop
  | start : Reachable abi kva head allowed start start
  | step {usage : Usage} {outcome : Outcome} {fuel : Nat} (call : Call)
    (earlier : Reachable abi kva head allowed start usage) (fits : allowed usage call)
    (returned : call.run abi kva head fuel usage = some outcome) :
    Reachable abi kva head allowed start outcome.usage

/-- The live blocks lie inside the pages that are owned, hold what was asked for, and are apart
from each other and from the blocks on the free list. -/
structure Separated (abi : Abi) (head : Nat) (usage : Usage) : Prop where
  inside : ∀ object ∈ usage.live, (object.block abi usage.mem).bytes ⊆ usage.owned
  payload : ∀ object ∈ usage.live,
    (⟨object.obj, object.size⟩ : Region).bytes ⊆ (object.block abi usage.mem).bytes
  apart : usage.live.Pairwise fun first second =>
    Disjoint (first.block abi usage.mem).bytes (second.block abi usage.mem).bytes
  unlisted : ∀ object ∈ usage.live, ∀ block, OnFreeList abi head usage.mem block →
    Disjoint (object.block abi usage.mem).bytes (⟨block, usage.mem block⟩ : Region).bytes

variable {abi : Abi} {kva : Nat → Nat} {head fuel : Nat} {mem : Memory} {usage : Usage}
  {free : List Region}

/-! ### Single steps -/

variable {more size flags obj : Nat} {answer : Option Nat} {result : Option Pages × Memory}
  {call : Call} {object : Object}

theorem insertInOrder_mono {this : Nat} {after : Memory} (bound : fuel ≤ more)
    (returned : insertInOrder abi head fuel this mem = some after) :
    insertInOrder abi head more this mem = some after := by
  rcases found : Ring.seek mem head (fun tmp => this ≤ entry abi tmp) fuel (mem head) with _ | tmp
  · rw [insertInOrder, found] at returned
    cases returned
  · rw [insertInOrder, found] at returned
    rw [insertInOrder, Ring.seek_mono bound found]
    exact returned

theorem takePages_mono {paddr : Nat} {result : Nat × Memory} (bound : fuel ≤ more)
    (returned : takePages abi kva head fuel size flags paddr mem = some result) :
    takePages abi kva head more size flags paddr mem = some result := by
  rcases inserted : insertInOrder abi head fuel (kva paddr)
    (makeBlock abi mem (kva paddr) (pagesSize abi size) fun _ => flags) with _ | after
  · rw [takePages, inserted] at returned
    cases returned
  · rw [takePages, inserted] at returned
    rw [takePages, insertInOrder_mono bound inserted]
    exact returned

theorem alloc_mono {result : Allocated} (bound : fuel ≤ more)
    (returned : alloc abi kva head fuel size flags answer mem = some result) :
    alloc abi kva head more size flags answer mem = some result := by
  rcases found : Ring.seek mem head (fun this => allocSize abi size ≤ mem (entry abi this)) fuel
    (mem head) with _ | place
  · rw [alloc, found] at returned
    cases returned
  · rw [alloc, found] at returned
    rw [alloc, Ring.seek_mono bound found]
    by_cases atHead : place = head
    · simp only [if_pos atHead] at returned ⊢
      rcases answer with _ | paddr
      · exact returned
      · obtain ⟨taken, took, rfl⟩ := map_eq_some_iff.mp returned
        simp only [takePages_mono bound took, map_some]
    · simp only [if_neg atHead] at returned ⊢
      exact returned

theorem free_mono (bound : fuel ≤ more)
    (returned : FreeList.free abi head fuel obj mem = some result) :
    FreeList.free abi head more obj mem = some result := by
  rcases inserted : insertInOrder abi head fuel (header abi obj)
    (Function.update mem (header abi obj + abi.freeOffset) 1) with _ | after
  · rw [FreeList.free, inserted] at returned
    cases returned
  · rw [FreeList.free, inserted] at returned
    rw [FreeList.free, insertInOrder_mono bound inserted]
    exact returned

theorem kfree_mono (bound : fuel ≤ more)
    (returned : FreeList.kfree abi head fuel obj mem = some result) :
    FreeList.kfree abi head more obj mem = some result := by
  unfold FreeList.kfree at returned ⊢
  split at returned
  · rename_i notNull
    rw [if_pos notNull, free_mono bound returned]
  · rename_i isNull
    rw [if_neg isNull, returned]

theorem Call.run_mono {outcome : Outcome} (bound : fuel ≤ more)
    (returned : call.run abi kva head fuel usage = some outcome) :
    call.run abi kva head more usage = some outcome := by
  cases call with
  | kmalloc size flags answer =>
    obtain ⟨result, allocated, same⟩ := map_eq_some_iff.mp returned
    rw [Call.run, alloc_mono bound allocated, map_some, same]
  | kfree object =>
    obtain ⟨result, freed, same⟩ := map_eq_some_iff.mp returned
    rw [Call.run, kfree_mono bound freed, map_some, same]
  | write after => exact returned

@[simp] theorem pagesAt_none (place : Nat → Nat) : pagesAt place none = ∅ := by
  ext address
  simp [pagesAt]

@[simp] theorem pagesAt_some (place : Nat → Nat) (pages : Pages) :
    pagesAt place (some pages) = (⟨place pages.paddr, pages.size⟩ : Region).bytes := by
  ext address
  simp [pagesAt]

section Calls

variable (invariant : Invariant abi head usage free)

include invariant

/-- When no block on the list is large enough, the pages asked for are. -/
theorem Invariant.room_of_sound {size flags paddr : Nat}
    (sound : (Call.kmalloc size flags (some paddr)).Sound abi kva head usage)
    (none : ∀ block ∈ free, block.size < allocSize abi size) :
    allocSize abi size ≤ pagesSize abi size ∧ kva paddr + pagesSize abi size < abi.modulus := by
  refine (sound paddr rfl).resolve_left ?_
  rintro ⟨base, listed, large⟩
  obtain ⟨block, member, rfl⟩ := invariant.represents.onFreeList_iff.mp listed
  rw [invariant.represents.sizes block member] at large
  exact not_le.mpr (none block member) large

/-- `kmalloc` keeps the invariant. It takes pages in, or makes do with what there is. -/
theorem Invariant.kmalloc (proper : (Call.kmalloc size flags answer).Proper abi kva head usage)
    (sound : (Call.kmalloc size flags answer).Sound abi kva head usage)
    (enough : free.length < fuel) :
    ∃ outcome left, (Call.kmalloc size flags answer).run abi kva head fuel usage = some outcome ∧
      Invariant abi head outcome.usage left ∧ (Trimmed free → Trimmed left) ∧
      outcome.passed = none ∧
      (outcome.granted = none ∧ outcome.usage.owned = usage.owned ∨
        ∃ paddr, outcome.granted = some ⟨paddr, pagesSize abi size, flags, 0⟩ ∧ paddr ∈ answer ∧
          outcome.usage.owned =
            (⟨kva paddr, pagesSize abi size⟩ : Region).bytes ∪ usage.owned) := by
  obtain ⟨small, promise⟩ := proper
  have quiet : pagesAt kva none ∪ usage.owned = usage.owned := by
    rw [pagesAt_none, empty_union]
  by_cases fit : ∃ block ∈ free, allocSize abi size ≤ block.size
  · obtain ⟨front, block, back, after, rfl, large, -, returned, cutFrom⟩ :=
      @Invariant.alloc_first _ _ _ _ invariant kva _ _ flags answer (allocSize_fits small) enough
        fit
    refine ⟨_, _, by rw [Call.run, returned, map_some], ?_, cutFrom.trimmed large, rfl,
      Or.inl ⟨rfl, quiet⟩⟩
    simpa using cutFrom.handedOut.invariant
  · have none := size_lt_of_no_fit fit
    rcases answer with _ | paddr
    · refine ⟨_, free, by rw [Call.run, invariant.alloc_refused enough none, map_some], ?_, id, rfl,
        Or.inl ⟨rfl, quiet⟩⟩
      simpa using invariant
    · have room := invariant.room_of_sound sound none
      have granted := promise paddr rfl
      obtain ⟨front, back, after, rfl, returned, cutFrom⟩ := @Invariant.takePages_parts _ _ _ _
        invariant _ _ _ flags _ small enough granted room.2 room.1
      refine ⟨_, _, by
          rw [Call.run, invariant.represents.alloc_takePages enough none, returned, map_some,
            map_some], ?_, cutFrom.trimmed_pages small room.1 granted.aligned, rfl,
        Or.inr ⟨paddr, rfl, rfl, congrArg (· ∪ _) (pagesAt_some kva _)⟩⟩
      simpa using cutFrom.handedOut.invariant

theorem Invariant.obj_ne_zero (member : object ∈ usage.live) : object.obj ≠ 0 := by
  have header := abi.header_fields
  have bound := (invariant.holds object member).1
  omega

/-- `kfree` keeps the invariant. It keeps the region the block becomes part of, or passes its
whole pages on. -/
theorem Invariant.kfree {object : Object} (proper : (Call.kfree object).Proper abi kva head usage)
    (sound : (Call.kfree object).Sound abi kva head usage) (enough : free.length < fuel) :
    ∃ outcome left after front extent back,
      (Call.kfree object).run abi kva head fuel usage = some outcome ∧
      Invariant abi head outcome.usage left ∧ outcome.granted = none ∧
      Merged abi head usage object free after front extent back ∧
      outcome.usage.blocks abi = (usage.live.erase object).map (Object.block abi usage.mem) ∧
      ((¬ firstBorder extent < lastBorder extent ∧ outcome.passed = none ∧
          outcome.usage.owned = usage.owned ∧ left = front ++ extent :: back) ∨
        ∃ flags, firstBorder extent < lastBorder extent ∧ outcome.usage.owned ⊆ usage.owned ∧
          left = front ++ lowerSlice extent ++ upperSlice extent ++ back ∧
          outcome.passed =
            some ⟨firstBorder extent, lastBorder extent - firstBorder extent, flags, 0⟩) := by
  have notNull := invariant.obj_ne_zero proper
  obtain ⟨after, front, joined, back, freed, merged⟩ := invariant.merge proper enough
  by_cases whole : firstBorder joined < lastBorder joined
  · obtain ⟨flags, ended, returned, kept, same⟩ :=
      merged.giveBack invariant.holds whole (sound joined merged.extent whole)
    refine ⟨_, front ++ lowerSlice joined ++ upperSlice joined ++ back, after, front, joined, back,
      by rw [Call.run, FreeList.kfree, if_pos notNull, freed, returned, map_some], ?_, rfl,
      merged, ?_, Or.inr ⟨flags, whole, sdiff_subset, rfl, rfl⟩⟩
    · rw [pagesAt_some]
      exact kept
    · exact same
  · obtain ⟨returned, kept⟩ := merged.keep invariant.holds whole
    refine ⟨_, front ++ joined :: back, after, front, joined, back,
      by rw [Call.run, FreeList.kfree, if_pos notNull, freed, returned, map_some], ?_, rfl,
      merged, ?_, Or.inl ⟨whole, rfl, ?_, rfl⟩⟩
    · rw [pagesAt_none, sdiff_empty]
      exact kept
    · exact merged.same
    · rw [pagesAt_none, sdiff_empty]

end Calls

theorem payload_subset (above : abi.headerSize ≤ object.obj)
    (room : abi.headerSize + object.size ≤ (object.block abi mem).size) :
    (⟨object.obj, object.size⟩ : Region).bytes ⊆ (object.block abi mem).bytes := by
  intro address inside
  obtain ⟨lower, upper⟩ := Region.mem_bytes.mp inside
  refine Region.mem_bytes.mpr ?_
  unfold Object.block header at room ⊢
  dsimp only at *
  omega

/-- What the rest of the kernel writes is in no header. -/
theorem Invariant.untouched (invariant : Invariant abi head usage free)
    (proper : (Call.write mem).Proper abi kva head usage) :
    ∀ tile ∈ free ++ usage.blocks abi, ∀ offset < abi.headerSize,
      mem (tile.base + offset) = usage.mem (tile.base + offset) := by
  obtain ⟨-, -, tiled, holds⟩ := invariant
  intro tile member offset bound
  have roomy := (tiled.fine tile member).roomy
  have inTile : tile.base + offset ∈ tile.bytes :=
    Region.mem_bytes.mpr ⟨Nat.le_add_right _ _, by omega⟩
  refine proper (Or.inr (Or.inr ⟨tiled.tiling.subset member inTile, fun object live inside => ?_⟩))
  obtain ⟨above, room⟩ := holds object live
  have blockMember : object.block abi usage.mem ∈ free ++ usage.blocks abi :=
    mem_append_right _ (mem_map_of_mem live)
  by_cases same : tile = object.block abi usage.mem
  · have lower := (Region.mem_bytes.mp inside).1
    rw [same] at lower
    unfold Object.block header at lower
    dsimp only at lower
    omega
  · exact disjoint_left.mp (tiled.tiling.apart.forall member blockMember same) inTile
      (payload_subset above room inside)

theorem Invariant.write_blocks (invariant : Invariant abi head usage free)
    (proper : (Call.write mem).Proper abi kva head usage) :
    Usage.blocks abi { usage with mem } = usage.blocks abi := by
  obtain ⟨freePositive, flagsAbove, nodeAbove, wordPositive, headerFits⟩ := abi.header_fields
  refine map_congr_left fun object member => ?_
  exact congrArg (Region.mk (header abi object.obj)) (invariant.untouched proper
    (object.block abi usage.mem) (mem_append_right _ (mem_map_of_mem member)) 0 (by omega))

theorem Invariant.write (invariant : Invariant abi head usage free)
    (proper : (Call.write mem).Proper abi kva head usage) :
    Invariant abi head { usage with mem } free := by
  have untouched := invariant.untouched proper
  have blocksSame := invariant.write_blocks proper
  obtain ⟨represents, ascending, tiled, holds⟩ := invariant
  refine ⟨represents.congr ?_, ascending, ?_, fun object member => ?_⟩
  · rintro address (isHead | isHead | ⟨base, listed, offset, bound, rfl⟩)
    · exact proper (Or.inl isHead)
    · exact proper (Or.inr (Or.inl isHead))
    · obtain ⟨tile, member, rfl⟩ := mem_map.mp listed
      exact untouched tile (mem_append_left _ member) offset bound
  · rw [blocksSame]
    exact tiled
  · rw [map_inj_left.mp blocksSame object member]
    exact holds object member

/-! ### Runs -/

theorem Invariant.start (abi : Abi) (head : Nat) (mem : Memory) :
    Invariant abi head (initial abi head mem) [] := by
  obtain ⟨-, -, -, wordPositive, -⟩ := abi.header_fields
  have toHead : listInit abi mem head head = head := by
    rw [listInit, update_of_ne (by omega), update_self]
  have fromHead : listInit abi mem head (head + abi.wordSize) = head := update_self _ _ _
  refine ⟨⟨⟨⟨⟨toHead, fromHead⟩, rfl⟩,
    ⟨nodup_singleton _, fun first isFirst second isSecond => ?_⟩⟩,
    nofun⟩, List.Pairwise.nil, ⟨Tiling.nil, nofun, notMem_empty _, notMem_empty _⟩, nofun⟩
  rw [mem_singleton.mp isFirst, mem_singleton.mp isSecond]
  omega

/-- The conditions on the steps of a run. -/
def Fit (abi : Abi) (kva : Nat → Nat) (head : Nat) (usage : Usage) (call : Call) : Prop :=
  call.Proper abi kva head usage ∧ call.Sound abi kva head usage

theorem Invariant.step (invariant : Invariant abi head usage free) {call : Call}
    (fits : Fit abi kva head usage call) (enough : free.length < fuel) :
    ∃ outcome left, call.run abi kva head fuel usage = some outcome ∧
      Invariant abi head outcome.usage left := by
  obtain ⟨proper, sound⟩ := fits
  cases call with
  | kmalloc size flags answer =>
    obtain ⟨outcome, left, returned, kept, -⟩ := invariant.kmalloc proper sound enough
    exact ⟨outcome, left, returned, kept⟩
  | kfree object =>
    obtain ⟨outcome, left, -, -, -, -, returned, kept, -⟩ := invariant.kfree proper sound enough
    exact ⟨outcome, left, returned, kept⟩
  | write after => exact ⟨_, free, rfl, invariant.write proper⟩

/-- The rule for runs. A step may have returned with less fuel than its lemma asks for, but more
fuel does not change what it returns. -/
theorem Reachable.keeps {allowed : Usage → Call → Prop} {start : Usage}
    (kept : Usage → List Region → Prop) (initially : ∃ free, kept start free)
    (step : ∀ {usage free call fuel}, kept usage free → allowed usage call → free.length < fuel →
      ∃ outcome left, call.run abi kva head fuel usage = some outcome ∧ kept outcome.usage left)
    (reachable : Reachable abi kva head allowed start usage) : ∃ free, kept usage free := by
  induction reachable with
  | start => exact initially
  | @step before outcome fuel call earlier fits returned inductionHypothesis =>
    obtain ⟨free, holds⟩ := inductionHypothesis
    obtain ⟨again, left, same, still⟩ :=
      step holds fits (Nat.lt_succ_of_le (Nat.le_add_left _ fuel))
    rw [Call.run_mono (Nat.le_succ_of_le (Nat.le_add_right _ _)) returned] at same
    cases same
    exact ⟨left, still⟩

theorem Reachable.invariant
    (reachable : Reachable abi kva head (Fit abi kva head) (initial abi head mem) usage) :
    ∃ free, Invariant abi head usage free :=
  reachable.keeps (Invariant abi head) ⟨[], Invariant.start abi head mem⟩
    fun invariant fits enough => invariant.step fits enough

/-- Every step that fits returns, wherever a run has come to. -/
theorem Reachable.returns
    (reachable : Reachable abi kva head (Fit abi kva head) (initial abi head mem) usage)
    (fits : Fit abi kva head usage call) :
    ∃ fuel outcome, call.run abi kva head fuel usage = some outcome := by
  obtain ⟨free, invariant⟩ := reachable.invariant
  obtain ⟨outcome, -, returned, -⟩ := invariant.step fits (Nat.lt_succ_self free.length)
  exact ⟨_, outcome, returned⟩

theorem Invariant.separated (invariant : Invariant abi head usage free) :
    Separated abi head usage := by
  obtain ⟨represents, -, tiled, holds⟩ := invariant
  obtain ⟨-, liveApart, across⟩ := pairwise_append.mp tiled.tiling.apart
  rw [Usage.blocks, pairwise_map] at liveApart
  refine ⟨fun object member => ?_, fun object member => ?_, liveApart,
    fun object member base listed => ?_⟩
  · exact tiled.tiling.subset (mem_append_right _ (mem_map_of_mem member))
  · exact payload_subset (holds object member).1 (holds object member).2
  · obtain ⟨block, blockMember, rfl⟩ := represents.onFreeList_iff.mp listed
    rw [represents.sizes block blockMember]
    exact (across block blockMember _ (mem_map_of_mem member)).symm

/-- In every run whose steps fit, the live blocks lie inside the owned pages, hold what was asked
for, and are apart from each other and from the free list. -/
theorem live_blocks_separated
    (reachable : Reachable abi kva head (Fit abi kva head) (initial abi head mem) usage) :
    Separated abi head usage := by
  obtain ⟨free, invariant⟩ := reachable.invariant
  exact invariant.separated

/-- The allocator as set up in the examples: nothing is allocated, and `pa2kva` adds `KERN_BASE`. -/
def bootUsage : Usage := initial .ilp32 0x1000 fun _ => 0

/-- The states that calls of a kind lead to from there. -/
abbrev FromBoot (allowed : Abi → (Nat → Nat) → Nat → Usage → Call → Prop) : Usage → Prop :=
  Reachable .ilp32 (· + 0x80000000) 0x1000 (allowed .ilp32 (· + 0x80000000) 0x1000) bootUsage

theorem bootUsage_granted : Granted .ilp32 0x1000 bootUsage ⟨0x80100000, 4096⟩ := by
  refine ⟨by decide, disjoint_empty _, ?_, ?_⟩ <;> exact fun inside =>
    absurd inside.1 (by decide)

/-- The memory after a request, and after an object is freed. -/
def served (mem : Memory) (size : Nat) (answer : Option Nat) : Memory :=
  ((alloc .ilp32 (· + 0x80000000) 0x1000 4 size 0 answer mem).map Allocated.mem).getD mem

def released (mem : Memory) (obj : Nat) : Memory :=
  ((FreeList.kfree .ilp32 0x1000 4 obj mem).map Prod.snd).getD mem

/-- The state then. -/
def Usage.serve (usage : Usage) (object : Object) (answer : Option Nat) (granted : Option Pages) :
    Usage where
  mem := served usage.mem object.size answer
  live := object :: usage.live
  owned := pagesAt (· + 0x80000000) granted ∪ usage.owned

/-- What a request returns and asks for. -/
def Usage.reply (usage : Usage) (size : Nat) (answer : Option Nat) :
    Option (Option Nat × Option Pages) :=
  (alloc .ilp32 (· + 0x80000000) 0x1000 4 size 0 answer usage.mem).map fun result =>
    (result.obj, result.asked)

def Usage.release (usage : Usage) (object : Object) (passed : Option Pages) : Usage where
  mem := released usage.mem object.obj
  live := usage.live.erase object
  owned := usage.owned \ pagesAt id passed

theorem Reachable.next {allowed : Usage → Call → Prop} {start after : Usage}
    {granted passed : Option Pages} {call : Call}
    (earlier : Reachable abi kva head allowed start usage)
    (returned : call.run abi kva head fuel usage = some ⟨after, granted, passed⟩)
    (fits : allowed usage call) : Reachable abi kva head allowed start after :=
  Reachable.step call earlier fits returned

theorem run_serve {asked : Option Pages} (granted : Option Pages)
    (values : usage.reply size answer = some (some obj, asked))
    (grants : (asked.bind fun pages => answer.map fun paddr => { pages with paddr }) = granted) :
    (Call.kmalloc size 0 answer).run .ilp32 (· + 0x80000000) 0x1000 4 usage =
      some ⟨usage.serve ⟨obj, size⟩ answer granted, granted, none⟩ := by
  obtain ⟨⟨_, after, _⟩, allocated, same⟩ := map_eq_some_iff.mp values
  obtain ⟨rfl, rfl⟩ := Prod.mk.inj same
  rw [Call.run, Usage.serve, served, allocated, ← grants]
  rfl

theorem run_release {passed : Option Pages}
    (values : (FreeList.kfree .ilp32 0x1000 4 obj usage.mem).map Prod.fst = some passed) :
    (Call.kfree ⟨obj, size⟩).run .ilp32 kva 0x1000 4 usage =
      some ⟨usage.release ⟨obj, size⟩ passed, none, passed⟩ := by
  obtain ⟨⟨_, after⟩, freed, rfl⟩ := map_eq_some_iff.mp values
  rw [Call.run, Usage.release, released, freed]
  rfl

/-- A request that `alloc_pages` has no pages for. -/
theorem fit_of_none {flags : Nat} (small : size + abi.headerSize + pageSize < abi.modulus) :
    Fit abi kva head usage (.kmalloc size flags none) :=
  ⟨⟨small, fun _ isNone => absurd isNone (not_mem_none _)⟩,
    fun _ isNone => absurd isNone (not_mem_none _)⟩

/-- The state after a request for 16 bytes, which is granted a page, and after a second one. -/
def pageUsage : Usage :=
  bootUsage.serve ⟨0x80100020, 16⟩ (some 0x100000) (some ⟨0x100000, 4096, 0, 0⟩)

def pairUsage : Usage := pageUsage.serve ⟨0x80100050, 16⟩ none none

theorem run_pageUsage :
    (Call.kmalloc 16 0 (some 0x100000)).run .ilp32 (· + 0x80000000) 0x1000 4 bootUsage =
      some ⟨pageUsage, some ⟨0x100000, 4096, 0, 0⟩, none⟩ := by
  have values : bootUsage.reply 16 (some 0x100000) =
      some (some 0x80100020, some ⟨0, 4096, 0, 0⟩) := by decide +kernel
  exact run_serve _ values rfl

theorem run_pairUsage :
    (Call.kmalloc 16 0 none).run .ilp32 (· + 0x80000000) 0x1000 4 pageUsage =
      some ⟨pairUsage, none, none⟩ := by
  have values : pageUsage.reply 16 none = some (some 0x80100050, none) := by decide +kernel
  exact run_serve _ values rfl

theorem pairUsage_listed : OnFreeList .ilp32 0x1000 pairUsage.mem base ↔ base = 0x80100060 := by
  rw [@onFreeList_iff_mem _ _ _ _ [0x80100060] (by decide +kernel) (by decide), List.mem_singleton]

theorem pairUsage_size : pairUsage.mem 0x80100060 = 4000 := by decide +kernel

/-- Two requests for 16 bytes are granted one page and served from it. The second object is freed
again, and its block is joined with the rest of the page. -/
theorem live_blocks_separated_merged : ∃ usage, FromBoot Fit usage ∧
    usage.live = [⟨0x80100020, 16⟩] ∧ usage.mem 0x80100030 = 4048 ∧
      Separated .ilp32 0x1000 usage := by
  have block : Object.block .ilp32 pairUsage.mem ⟨0x80100050, 16⟩ = ⟨0x80100030, 48⟩ := by
    decide +kernel
  have sound : Call.Sound .ilp32 (· + 0x80000000) 0x1000 pairUsage (.kfree ⟨0x80100050, 16⟩) := by
    rintro ⟨base, length⟩ ⟨lower, upper⟩ whole
    simp only [block, pairUsage_listed, Region.limit] at lower upper
    norm_num [pairUsage_size] at lower upper
    obtain ⟨rfl, rfl⟩ : base = 0x80100030 ∧ length = 4048 := by omega
    exact absurd whole (by decide +kernel)
  have merged : (FreeList.kfree .ilp32 0x1000 4 0x80100050 pairUsage.mem).map Prod.fst =
      some none := by
    decide +kernel
  have page : FromBoot Fit pageUsage := by
    refine Reachable.start.next run_pageUsage ⟨⟨by decide +kernel, ?_⟩, ?_⟩
    · rintro _ ⟨⟩
      exact bootUsage_granted
    · rintro _ ⟨⟩
      exact Or.inr ⟨by decide +kernel, by decide +kernel⟩
  have pair := page.next run_pairUsage (fit_of_none (by decide))
  have joined := pair.next (run_release merged) ⟨mem_cons_self, sound⟩
  exact ⟨_, joined, by decide +kernel, by decide +kernel, live_blocks_separated joined⟩

/-- A request for one page of bytes is granted one page, and the block it is served with is
larger. -/
theorem kmalloc_overruns_page : ∃ usage, Reachable .ilp32 (· + 0x80000000) 0x1000 (fun usage call =>
      call.Proper .ilp32 (· + 0x80000000) 0x1000 usage)
      bootUsage usage ∧ ¬ Separated .ilp32 0x1000 usage := by
  have values : (alloc .ilp32 (· + 0x80000000) 0x1000 2 4096 0 (some 0x100000) bootUsage.mem).map
      (fun result => (result.obj, result.mem 0x80100000, result.asked)) =
        some (some 0x80100020, 4128, some ⟨0, 4096, 0, 0⟩) := by decide +kernel
  obtain ⟨result, allocated, same⟩ := Option.map_eq_some_iff.mp values
  simp only [Prod.mk.injEq] at same
  obtain ⟨obj, size, asked⟩ := same
  refine ⟨_, Reachable.step (.kmalloc 4096 0 (some 0x100000)) Reachable.start
    ⟨by decide +kernel, fun paddr same => by cases same; exact bootUsage_granted⟩
    (by rw [Call.run, allocated, map_some]), fun separated => ?_⟩
  have inside := separated.inside ⟨0x80100020, 4096⟩ (by simp [obj])
  have last : (0x80101000 : Nat) ∈ (Object.block .ilp32 result.mem ⟨0x80100020, 4096⟩).bytes := by
    rw [Object.block, show header .ilp32 0x80100020 = 0x80100000 from rfl, size]
    exact ⟨by decide, by decide +kernel⟩
  have owned := inside last
  rw [asked] at owned
  simp [Region.mem_bytes, bootUsage, initial] at owned

end FreeList

end AIMv6
