/-
This file follows the size of a block through `__alloc`: the size field that `ksize` reads back from
the pointer `kmalloc` has returned.

The request is rounded to `ALLOC_ALIGN`, a header is added, and the remainder of the block is
computed by a subtraction, all in `size_t`. For a request that does not wrap the block holds what
was asked for, also when the pages asked for are too few for it: then the remainder wraps to a large
number, the block is cut, and its size field is the size of the request with its header, or the size
of no pages at all less a header. When the rounded request and its header wrap, a block of any size
is taken for large enough.
-/

import AIMv6.FreeListBootstrap

namespace AIMv6

open List Nat Function

namespace FreeList

/-- `ksize`, with `__size`. -/
def ksize (abi : Abi) (obj : Nat) (mem : Memory) : Nat :=
  if obj ≠ 0 then wrapSub abi.modulus (mem (header abi obj)) abi.headerSize else 0

variable {abi : Abi} {kva : Nat → Nat} {head fuel : Nat} {blocks : List Nat} {initial mem : Memory}
  {usage : Usage} {free front back : List Region} {block : Region}

/-! ### The size field of the block that is cut down -/

/-- Cutting a block down, and linking the new block behind it and taking it off the list again,
leaves its size field at the size needed, or as it was. -/
theorem cutDown_this {this need prev next : Nat} (toNext : mem (node abi this) = next)
    (toPrev : mem (node abi this + abi.wordSize) = prev) (awayNext : this ≠ next + abi.wordSize)
    (awayPrev : this ≠ prev) (notSelf : node abi this ≠ next)
    (apart : abi.headerSize + allocAlign ≤ wrapSub abi.modulus (mem this) need →
      this + abi.headerSize ≤ (this + need) % abi.modulus ∨
        (this + need) % abi.modulus + abi.headerSize ≤ this) :
    cutDown abi this need mem this =
      if abi.headerSize + allocAlign ≤ wrapSub abi.modulus (mem this) need then need
        else mem this := by
  obtain ⟨freePositive, flagsAbove, nodeAbove, wordPositive, fits⟩ := abi.header_fields
  unfold cutDown
  dsimp only
  split
  · rename_i large
    have away := apart large
    generalize (this + need) % abi.modulus = new at away ⊢
    generalize wrapSub abi.modulus (mem this) need = newsize
    unfold node at *
    generalize filled : Function.update (makeBlock abi mem new newsize fun mem =>
      mem (this + abi.flagsOffset)) this need = made
    have kept : ∀ offset, 0 < offset → offset < abi.headerSize → made (this + offset) =
        mem (this + offset) := by
      intro offset positive bound
      rw [← filled, makeBlock, update_of_ne (by omega), update_of_ne (by omega),
        update_of_ne (by omega), update_of_ne (by omega)]
    have forward : made (this + abi.nodeOffset) = next := by
      rw [kept _ (by omega) (by omega), toNext]
    have backward : made (this + abi.nodeOffset + abi.wordSize) = prev := by
      rw [add_assoc, kept _ (by omega) fits, ← add_assoc, toPrev]
    have own : made this = need := by rw [← filled, update_self]
    rw [listAddAfter, forward]
    generalize linked : Ring.insert abi.wordSize made (new + abi.nodeOffset) (this + abi.nodeOffset)
      next = after
    have afterForward : after (this + abi.nodeOffset) = new + abi.nodeOffset := by
      rw [← linked, Ring.insert_apply, if_pos rfl]
    have afterBackward : after (this + abi.nodeOffset + abi.wordSize) = prev := by
      rw [← linked, Ring.insert_apply, if_neg (by omega), if_neg (by omega), if_neg (by omega),
        if_neg (by omega), backward]
    have afterOwn : after this = need := by
      rw [← linked, Ring.insert_apply, if_neg (by omega), if_neg (by omega), if_neg (by omega),
        if_neg awayNext, own]
    rw [listDel, Ring.remove_apply, update_of_ne (by omega), update_of_ne (by omega),
      update_of_ne (by omega), afterForward, afterBackward, afterOwn, if_neg awayPrev,
      if_neg (by omega)]
  · unfold node at *
    rw [listDel, Ring.remove_apply, update_of_ne (by omega), update_of_ne (by omega),
      update_of_ne (by omega), toPrev, toNext, if_neg awayPrev, if_neg awayNext]

/-- The same for a block on the list. -/
theorem During.cutDown_size (during : During abi head blocks initial mem (front ++ block :: back))
    (headers : Headers abi head blocks) {need : Nat}
    (apart : abi.headerSize + allocAlign ≤ wrapSub abi.modulus block.size need →
      block.base + abi.headerSize ≤ (block.base + need) % abi.modulus ∨
        (block.base + need) % abi.modulus + abi.headerSize ≤ block.base) :
    FreeList.cutDown abi block.base need mem block.base =
      if abi.headerSize + allocAlign ≤ wrapSub abi.modulus block.size need then need
      else block.size := by
  obtain ⟨toPrev, toNext, prevKnown, nextKnown⟩ := during.neighbours
  have member : block.base ∈ blocks := during.known block (by simp)
  have size : mem block.base = block.size := during.represents.sizes block (by simp)
  have separate := during.represents.ring.separate
  rw [nodes_append, nodes_cons] at separate
  have notSelf : node abi block.base ≠ firstNode abi head back := by
    intro same
    have places := (perm_middle.cons head).nodup_iff.mp separate.nodup
    rcases back with _ | ⟨next, rest⟩
    · exact (headers.node_ne_head member) same
    · rw [firstNode_cons] at same
      have distinct := (nodup_cons.mp (nodup_cons.mp places).2).1
      rw [same, nodes_cons] at distinct
      exact distinct (mem_append_right _ mem_cons_self)
  rw [← size] at apart ⊢
  exact cutDown_this toNext toPrev (headers.place_ne nextKnown member).2
    (headers.place_ne prevKnown member).1 notSelf apart

/-! ### Sizes of requests -/

theorem wrapSub_of_lt {modulus first second : Nat} (order : first < second)
    (fits : second ≤ modulus) : wrapSub modulus first second = first + (modulus - second) :=
  mod_eq_of_lt (by omega)

theorem abi_numbers (abi : Abi) :
    abi.modulus % 4096 = 0 ∧ 2 ^ 32 ≤ abi.modulus ∧ abi.headerSize % 16 = 0 ∧ 32 ≤ abi.headerSize ∧
      abi.headerSize ≤ 48 := by
  cases abi <;> decide

variable {size : Nat}

/-- The pages asked for have room for the rounded request, or are none. -/
theorem Unwrapped.pagesSize_cases (unwrapped : Unwrapped abi size) :
    (pagesSize abi size = 0 ∨ (size + 15) / 16 * 16 ≤ pagesSize abi size) ∧
      pagesSize abi size % 4096 = 0 ∧ pagesSize abi size + 4096 ≤ abi.modulus := by
  obtain ⟨whole, wide, -, header, -⟩ := abi_numbers abi
  have narrow : 12 ≤ abi.bits := by cases abi <;> decide
  have size_eq := alignAbove_two_pow abi.bits ((size + 15) / 16 * 16) 12
    (show _ < abi.modulus by unfold Unwrapped at unwrapped; omega) narrow
  have pages : pagesSize abi size = ((size + 15) / 16 * 16 + 4095) / 4096 * 4096 % abi.modulus := by
    rw [pagesSize, unwrapped.rounded]
    exact size_eq
  unfold Unwrapped at unwrapped
  rw [pages]
  generalize (size + 15) / 16 * 16 = rounded at *
  by_cases room : rounded + 4095 < abi.modulus
  · rw [mod_eq_of_lt (by omega)]
    omega
  · have top : (rounded + 4095) / 4096 * 4096 = abi.modulus := by omega
    rw [top, mod_self]
    omega

/-- A request that wraps is satisfied with a header. -/
theorem allocSize_of_wrapped (word : size < abi.modulus)
    (wraps : ¬ Unwrapped abi size) : allocSize abi size ≤ abi.headerSize ∧ 0 < size := by
  obtain ⟨whole, wide, aligned, header, small⟩ := abi_numbers abi
  have narrow : 4 ≤ abi.bits := by cases abi <;> decide
  have rounded : alignAbove abi.bits size allocAlign = (size + 15) / 16 * 16 % abi.modulus :=
    alignAbove_two_pow abi.bits size 4 word narrow
  unfold Unwrapped at wraps
  refine ⟨?_, by omega⟩
  rw [allocSize, rounded]
  generalize size_eq : (size + 15) / 16 * 16 = upper at *
  by_cases top : upper < abi.modulus
  · have carried : upper + abi.headerSize = upper + abi.headerSize - abi.modulus + abi.modulus := by
      omega
    rw [mod_eq_of_lt top, carried, add_mod_right, mod_eq_of_lt (by omega)]
    omega
  · have all : upper = abi.modulus := by omega
    rw [all, mod_self, zero_add]
    exact mod_le _ _

/-- Where a new block is cut off, its header does not overlap the header of the block. -/
theorem Unwrapped.apart {size this : Nat} (unwrapped : Unwrapped abi size)
    (inSpace : this + pageSize ≤ abi.modulus)
    (large : abi.headerSize + allocAlign ≤
      wrapSub abi.modulus (pagesSize abi size) (allocSize abi size)) :
    this + abi.headerSize ≤ (this + allocSize abi size) % abi.modulus ∨
      (this + allocSize abi size) % abi.modulus + abi.headerSize ≤ this := by
  obtain ⟨whole, wide, aligned, header, small⟩ := abi_numbers abi
  obtain ⟨room, -, below⟩ := unwrapped.pagesSize_cases
  rw [unwrapped.allocSize_eq] at large ⊢
  unfold Unwrapped at unwrapped
  generalize (size + 15) / 16 * 16 = rounded at *
  generalize pagesSize abi size = pages at *
  by_cases within : this + (rounded + abi.headerSize) < abi.modulus
  · rw [mod_eq_of_lt within]
    omega
  · have wrapped : this + (rounded + abi.headerSize) =
        this + (rounded + abi.headerSize) - abi.modulus + abi.modulus := by omega
    rw [wrapped, add_mod_right, mod_eq_of_lt (by omega)]
    by_cases order : rounded + abi.headerSize ≤ pages
    · rw [wrapSub_of_le order (by omega)] at large
      omega
    · rw [wrapSub_of_lt (not_le.mp order) (by omega)] at large
      omega

/-- The size field of a block made of the pages asked for, less a header, is at least the
request. -/
theorem Unwrapped.le_cut (unwrapped : Unwrapped abi size) :
    size ≤ wrapSub abi.modulus (if abi.headerSize + allocAlign ≤
        wrapSub abi.modulus (pagesSize abi size) (allocSize abi size)
        then allocSize abi size else pagesSize abi size) abi.headerSize := by
  obtain ⟨whole, wide, aligned, header, small⟩ := abi_numbers abi
  obtain ⟨room, multiple, below⟩ := unwrapped.pagesSize_cases
  have least : size ≤ (size + 15) / 16 * 16 := by omega
  rw [unwrapped.allocSize_eq]
  unfold Unwrapped at unwrapped
  unfold allocAlign
  generalize (size + 15) / 16 * 16 = rounded at *
  generalize pagesSize abi size = pages at *
  split
  · rw [wrapSub_of_le (by omega) (by omega)]
    omega
  · rename_i uncut
    by_cases order : rounded + abi.headerSize ≤ pages
    · rw [wrapSub_of_le (by omega) (by omega)]
      omega
    · rw [wrapSub_of_lt (not_le.mp order) (by omega)] at uncut
      have none : pages = 0 := by omega
      rw [none, wrapSub_of_lt (by omega) (by omega)]
      omega

/-! ### Blocks made of new pages -/

/-- The header of a page that is granted is apart from the headers on the list. -/
theorem Granted.headers (granted : Granted abi head usage ⟨block.base, pageSize⟩)
    (invariant : Invariant abi head usage free) :
    Headers abi head (block.base :: free.map Region.base) := by
  obtain ⟨-, -, -, header, small⟩ := abi_numbers abi
  have listed := invariant.tiled.headers
  have across : ∀ other ∈ free, block.base + abi.headerSize ≤ other.base ∨
      other.base + abi.headerSize ≤ block.base := by
    intro other member
    have fine := invariant.tiled.fine other (mem_append_left _ member)
    have apart := granted.fresh.mono_right
      (invariant.tiled.tiling.subset (mem_append_left _ member))
    have order := (Region.disjoint_iff (show 0 < pageSize by decide) fine.positive).mp apart
    have roomy := fine.roomy
    unfold Region.limit pageSize at order
    dsimp only at order
    omega
  refine ⟨fun first firstMember second secondMember different => ?_,
    fun base member offset bound => ?_⟩
  · rcases mem_cons.mp firstMember with rfl | firstListed
    · rcases mem_cons.mp secondMember with rfl | secondListed
      · exact absurd rfl different
      · obtain ⟨other, inside, rfl⟩ := mem_map.mp secondListed
        exact across other inside
    · rcases mem_cons.mp secondMember with rfl | secondListed
      · obtain ⟨other, inside, rfl⟩ := mem_map.mp firstListed
        exact (across other inside).symm
      · exact listed.apart first firstListed second secondListed different
  · rcases mem_cons.mp member with rfl | inside
    · have cell : block.base + offset ∈ (⟨block.base, pageSize⟩ : Region).bytes :=
        Region.mem_bytes.mpr ⟨Nat.le_add_right _ _, Nat.add_lt_add_left
          (show offset < pageSize by unfold pageSize; omega) _⟩
      exact ⟨fun same => granted.outside.1 (same ▸ cell), fun same =>
        granted.outside.2 (same ▸ cell)⟩
    · exact listed.outside base inside offset bound

/-- What `kmalloc` returns from new pages, and the size field it leaves there. -/
theorem Invariant.takePages_size (invariant : Invariant abi head usage free)
    {size flags paddr : Nat} (unwrapped : Unwrapped abi size) (enough : free.length < fuel)
    (granted : Granted abi head usage ⟨kva paddr, pageSize⟩)
    (inSpace : kva paddr + pageSize ≤ abi.modulus) :
    ∃ after, FreeList.takePages abi kva head fuel size flags paddr usage.mem =
        some (payload abi (kva paddr), after) ∧
      after (kva paddr) = if abi.headerSize + allocAlign ≤
          wrapSub abi.modulus (pagesSize abi size) (allocSize abi size)
        then allocSize abi size else pagesSize abi size := by
  generalize pagesIs : (⟨kva paddr, pagesSize abi size⟩ : Region) = pages
  have base : kva paddr = pages.base := by rw [← pagesIs]
  have total : pagesSize abi size = pages.size := by rw [← pagesIs]
  rw [base] at granted
  have headers := granted.headers invariant
  have fresh : ∀ other ∈ free, other.base ≠ pages.base := by
    intro other member same
    have fine := invariant.tiled.fine other (mem_append_left _ member)
    refine Set.disjoint_left.mp granted.fresh (Region.base_mem (show 0 < pageSize by decide)) ?_
    have inside := invariant.tiled.tiling.subset (mem_append_left _ member) fine.base_mem
    rwa [same] at inside
  have started : During abi head (pages.base :: free.map Region.base) usage.mem usage.mem free :=
    During.start invariant.represents fun other member =>
      mem_cons_of_mem _ (mem_map_of_mem member)
  obtain ⟨made, madeSize⟩ :=
    started.makeBlock headers pages.size (fun _ => flags) mem_cons_self fresh
  obtain ⟨front, back, after, -, -, -, inserted, ready⟩ :=
    made.insertInOrder headers mem_cons_self fresh madeSize enough
  refine ⟨FreeList.cutDown abi pages.base (allocSize abi size) after, ?_, ?_⟩
  · rw [FreeList.takePages, base, total, inserted]
  · rw [base] at inSpace ⊢
    have apart := unwrapped.apart inSpace
    rw [total] at apart ⊢
    exact ready.cutDown_size headers apart

/-! ### `kmalloc` and `ksize` -/

/-- In every state of the allocator, a pointer that `kmalloc` returns for a size is aligned, and
`ksize` says that it has room for that size. The page that `alloc_pages` may answer with begins at a
border, is not in use, and lies in the address space. -/
def Serves (abi : Abi) (size : Nat) : Prop :=
  ∀ (kva : Nat → Nat) (head fuel flags : Nat) (usage : Usage) (free : List Region)
    (answer : Option Nat) (result : Allocated) (obj : Nat), Invariant abi head usage free →
    (∀ paddr ∈ answer, Granted abi head usage ⟨kva paddr, pageSize⟩ ∧
      kva paddr + pageSize ≤ abi.modulus) →
    alloc abi kva head fuel size flags answer usage.mem = some result → result.obj = some obj →
    obj % allocAlign = 0 ∧ size ≤ ksize abi obj result.mem

theorem payload_aligned {base : Nat} (aligned : base % allocAlign = 0) :
    payload abi base % allocAlign = 0 := by
  obtain ⟨-, -, header, -⟩ := abi_numbers abi
  unfold payload allocAlign at *
  omega

theorem ksize_payload (base : Nat) :
    ksize abi (payload abi base) mem = wrapSub abi.modulus (mem base) abi.headerSize := by
  obtain ⟨-, -, -, header, -⟩ := abi_numbers abi
  rw [ksize, if_pos (by unfold payload; omega), FreeList.header, payload, Nat.add_sub_cancel]

/-- A block of the list that is handed out has room for the request. -/
theorem Invariant.ksize_live (invariant : Invariant abi head usage free) {object : Object}
    (member : object ∈ usage.live) :
    object.obj % allocAlign = 0 ∧ object.size ≤ ksize abi object.obj usage.mem := by
  obtain ⟨above, room⟩ := invariant.holds object member
  have fine := invariant.tiled.fine (object.block abi usage.mem)
    (mem_append_right _ (mem_map_of_mem member))
  have place : payload abi (header abi object.obj) = object.obj := Nat.sub_add_cancel above
  rw [← place, ksize_payload]
  refine ⟨payload_aligned fine.baseAligned, ?_⟩
  have inside := fine.inside
  unfold Object.block Region.limit pageSize at *
  dsimp only at *
  rw [wrapSub_of_le (by omega) (by omega)]
  omega

theorem Unwrapped.serves (unwrapped : Unwrapped abi size) : Serves abi size := by
  intro kva head fuel flags usage free answer result obj invariant granted returned isObj
  have enough : free.length < max fuel (free.length + 1) := lt_max_of_lt_right (lt_succ_self _)
  have again := alloc_mono (le_max_left fuel (free.length + 1)) returned
  by_cases fit : ∃ block ∈ free, allocSize abi size ≤ block.size
  · obtain ⟨found, after, left, call, handedOut⟩ :=
      invariant.alloc_found unwrapped.request enough fit
    rw [call] at again
    cases again
    cases isObj
    exact handedOut.invariant.ksize_live mem_cons_self
  · have none := size_lt_of_no_fit fit
    rcases answer with _ | paddr
    · rw [invariant.alloc_refused enough none] at again
      cases again
      cases isObj
    · obtain ⟨page, inSpace⟩ := granted paddr rfl
      obtain ⟨after, taken, size_eq⟩ :=
        @Invariant.takePages_size _ _ _ _ _ _ invariant
        size flags paddr unwrapped enough page inSpace
      rw [invariant.represents.alloc_takePages enough none, taken] at again
      cases again
      cases isObj
      have border := page.aligned
      refine ⟨payload_aligned ?_, ?_⟩
      · unfold pageSize at border
        unfold allocAlign
        dsimp only at border
        omega
      · rw [ksize_payload]
        dsimp only
        rw [size_eq]
        exact unwrapped.le_cut

theorem header_pool_tiled (abi : Abi) :
    Tiled abi 0 (⟨pageSize, abi.headerSize⟩ : Region).bytes
      ([⟨pageSize, abi.headerSize⟩] ++ []) := by
  refine ⟨⟨pairwise_singleton _ _, by simp⟩, fun tile member => ?_, ?_⟩
  · rw [append_nil, mem_singleton] at member
    rw [member]
    cases abi <;> exact ⟨by decide, by decide, by decide, by decide⟩
  · cases abi <;> exact ⟨fun inside => absurd inside.1 (by decide), fun inside =>
      absurd inside.1 (by decide)⟩

/-- For a request that wraps, the block that is found is not cut, and has no room for a byte. -/
theorem not_serves (word : size < abi.modulus) (wraps : ¬ Unwrapped abi size) :
    ¬ Serves abi size := by
  obtain ⟨-, wide, -, header, small⟩ := abi_numbers abi
  obtain ⟨need, positive⟩ := allocSize_of_wrapped word wraps
  have tiled := header_pool_tiled abi
  have invariant := tiled.bootstrap_invariant fun _ => 0
  generalize poolIs : (⟨pageSize, abi.headerSize⟩ : Region) = pool at tiled invariant
  have poolSize : pool.size = abi.headerSize := by rw [← poolIs]
  rcases Represents.firstFit invariant.represents
    (lt_succ_self 1) with ⟨front, block, back, split, -, -, notHead, found⟩ | ⟨none, -⟩
  · obtain rfl : block = pool := by
      have member : block ∈ [pool] := by rw [split]; simp
      exact mem_singleton.mp member
    have during : During abi 0 [block.base] _ _ ([] ++ block :: []) :=
      During.start invariant.represents fun other member => by
        rw [mem_singleton.mp member]
        exact mem_singleton_self _
    have uncut : ¬ abi.headerSize + allocAlign ≤
        wrapSub abi.modulus block.size (allocSize abi size) := by
      rw [poolSize, wrapSub_of_le need (by omega)]
      unfold allocAlign
      omega
    have kept := during.cutDown_size tiled.headers fun large => absurd large uncut
    rw [if_neg uncut, poolSize] at kept
    intro serves
    have served := serves id 0 2 0 _ _ none ⟨some (payload abi block.base), _,
      none⟩ _ invariant nofun
      (by rw [alloc, found]; simp only [if_neg notHead, entry_node]; rfl) rfl
    rw [ksize_payload] at served
    dsimp only at served
    rw [kept, wrapSub_of_le le_rfl (by omega)] at served
    omega
  · have short := none pool (mem_singleton_self _)
    omega

/-- `kmalloc` of a size serves it in every state exactly when the size does not wrap with the
alignment and the header added. -/
theorem kmalloc_serves_iff (abi : Abi) (size : Nat) (word : size < abi.modulus) :
    Serves abi size ↔ Unwrapped abi size :=
  ⟨fun serves => by_contra fun wraps => not_serves word wraps serves, Unwrapped.serves⟩

theorem kmalloc_serves_page : Serves .ilp32 4096 :=
  (kmalloc_serves_iff .ilp32 4096 (by decide)).mpr (by unfold Unwrapped; decide)

/-- A request for all bytes but one of the address space, of a pool of two kilobytes: it is served
with the block behind the first header, and `ksize` says that it has no room. -/
theorem kmalloc_wraps :
    IsPool .ilp32 0x1000 ⟨0x10000, 0x800⟩ ∧ (alloc .ilp32 id 0x1000 2 0xffffffff 0 none
          (bootstrapped .ilp32 0x1000 ⟨0x10000, 0x800⟩ fun _ => 0).mem).map
        (fun result => (result.obj, ksize .ilp32 0x10020 result.mem)) = some (some 0x10020, 0) ∧
      ¬ Serves .ilp32 0xffffffff := by
  refine ⟨⟨by decide, by decide, by decide, fun page aligned above below => ?_,
    fun inside => absurd inside.1 (by decide), fun inside => absurd inside.1 (by decide)⟩,
    by decide +kernel, not_serves (by decide) (by unfold Unwrapped; decide)⟩
  unfold pageSize Region.limit at *
  dsimp only at *
  omega

end FreeList

end AIMv6
