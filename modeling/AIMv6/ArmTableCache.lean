/-
This file follows the second-level tables of an ARM page index from `pt_l2_cache` and back.

`__arm_map_table` takes a table from the cache and stores its *physical* address in the
first-level entry. `__arm_unmap_l1` and `destroy_pgindex` pass that address to `cache_free` as
it is, and the slab looks for the slab that holds it by its *virtual* range. So the addresses
given back are the addresses obtained, all shifted by the same distance, and as soon as there
is one of them the two cannot agree. The first-level table is given back by the pointer that
`cache_alloc` returned, and that call succeeds.

Which translations the tables hold plays no part here; the stores into second-level tables
are those of the model of the walk and are left out.
-/

import AIMv6.ArmWalk
import AIMv6.SlabCalls

namespace AIMv6

open List Nat Option

/-! ### Where a cache has its slabs -/

namespace Cache

/-- Every slab lies between two addresses and begins on a page, and its bitmap is made of bytes. -/
def Placed (low high : Nat) (cache : Cache) : Prop :=
  ∀ slab ∈ cache.slabs,
    slab.vaddr % pageSize = 0 ∧ low ≤ slab.vaddr ∧ slab.vaddr + cache.slabSize ≤ high ∧
      slab.byte < 256

/-- The pages granted lie between the same addresses. -/
def Supply.Placed (low high slabSize : Nat) (supply : Supply) : Prop :=
  ∀ vaddr ∈ supply.grant, vaddr % pageSize = 0 ∧ low ≤ vaddr ∧ vaddr + slabSize ≤ high

section Slabs

variable {abi : Abi} {cache after : Cache} {low high : Nat} {slab : Slab}

/-- The scan for a free object stops at the first byte, at bit 8 if the byte is full. -/
theorem scan_first (abi : Abi) (small : slab.byte < 256) :
    ∃ index ≤ 8, scan abi slab.used.toList 0 = some (0, index) := by
  obtain ⟨vaddr, ⟨⟨bytes⟩, length⟩⟩ := slab
  rcases bytes with _ | ⟨byte, rest⟩
  · cases length
  have first : byte < 256 := small
  have stops : 0 < ffz abi byte ∧ ffz abi byte ≤ 9 := by
    by_cases full : byte = 255
    · rw [full, ffz_fullByte]
      decide
    · obtain ⟨positive, bound, -⟩ := ffz_byte abi byte (by omega)
      exact ⟨positive, bound.trans (by decide)⟩
  refine ⟨ffz abi byte - 1, by omega, ?_⟩
  show scan abi (byte :: rest) 0 = _
  rw [scan, if_neg stops.1.ne']

theorem setBit_byte_lt (small : slab.byte < 256) (i j : Nat) : (slab.setBit i j).byte < 256 := by
  rw [Slab.byte, Slab.setBit, Slab.getD_setIfInBounds _ _ _ (by decide)]
  split
  · exact mod_lt _ (by decide)
  · exact small

theorem clearBit_byte_lt (small : slab.byte < 256) (i j : Nat) :
    (slab.clearBit i j).byte < 256 := by
  rw [Slab.byte, Slab.clearBit, Slab.getD_setIfInBounds _ _ _ (by decide)]
  split
  · rename_i first
    subst first
    exact lt_of_le_of_lt and_le_left small
  · exact small

theorem release_placed (cache : Cache) (small : slab.byte < 256) (obj : Nat) :
    (cache.release slab obj).vaddr = slab.vaddr ∧ (cache.release slab obj).byte < 256 := by
  rcases release_cases cache slab obj with equal | ⟨i, j, equal⟩
  · rw [equal]
    exact ⟨rfl, small⟩
  · rw [equal]
    exact ⟨rfl, clearBit_byte_lt small i j⟩

/-- A slab with an object taken from it: where the object lies, and the cache that has the slab back
on its lists. -/
theorem Placed.allocFrom {rest : Cache} {obj : Nat}
    (call : AIMv6.Cache.allocFrom abi rest slab = some (obj, after)) (placed : rest.Placed low high)
    (own : slab.vaddr % pageSize = 0 ∧ low ≤ slab.vaddr ∧ slab.vaddr + rest.slabSize ≤ high ∧
      slab.byte < 256)
    (fits : high < abi.modulus) (room : 9 * rest.size ≤ rest.slabSize) :
    after.Placed low high ∧ after.size = rest.size ∧ after.slabSize = rest.slabSize ∧
      ∃ taken ∈ after.partialSlabs ++ after.fullSlabs, ∃ index ≤ 8,
        taken.vaddr = slab.vaddr ∧ obj = slab.vaddr + index * rest.size := by
  obtain ⟨page, above, below, small⟩ := own
  obtain ⟨index, bound, found⟩ := scan_first abi small
  have inside : index * rest.size ≤ 8 * rest.size := mul_le_mul_right _ bound
  have word : (slab.vaddr + (0 * 8 + index) * rest.size) % abi.modulus =
      slab.vaddr + index * rest.size := by
    rw [zero_mul, zero_add]
    exact mod_eq_of_lt (by omega)
  have kept : ∀ other : Slab, other = slab.setBit 0 index ∨ other ∈ rest.slabs →
      other.vaddr % pageSize = 0 ∧ low ≤ other.vaddr ∧ other.vaddr + rest.slabSize ≤ high ∧
        other.byte < 256 := by
    rintro other (rfl | member)
    · exact ⟨page, above, below, setBit_byte_lt small 0 index⟩
    · exact placed other member
  unfold AIMv6.Cache.allocFrom at call
  rw [found] at call
  dsimp only at call
  split at call
  all_goals
    obtain ⟨rfl, rfl⟩ := Prod.mk.inj (Option.some.inj call)
    refine ⟨fun other member => kept other ?_, rfl, rfl, slab.setBit 0 index, by simp, index, bound,
      rfl, word⟩
    simp only [slabs, mem_append, mem_cons] at member ⊢
    tauto

/-- An object that `cache_alloc` hands out lies at one of the first nine places of a slab. -/
theorem Placed.alloc {supply : Supply} {obj : Nat} {made : List Nat}
    (call : cache.alloc abi supply = some (some obj, after, made)) (placed : cache.Placed low high)
    (granted : supply.Placed low high cache.slabSize) (fits : high < abi.modulus)
    (room : 9 * cache.size ≤ cache.slabSize) :
    after.Placed low high ∧ after.size = cache.size ∧ after.slabSize = cache.slabSize ∧
      ∃ taken ∈ after.partialSlabs ++ after.fullSlabs, ∃ index ≤ 8,
        obj = taken.vaddr + index * cache.size := by
  have narrow : ∀ {rest : Cache} {slab : Slab}, rest.size = cache.size →
      rest.slabSize = cache.slabSize →
      (∀ other, other = slab ∨ other ∈ rest.slabs → other ∈ cache.slabs) →
      AIMv6.Cache.allocFrom abi rest slab = some (obj, after) →
      after.Placed low high ∧ after.size = cache.size ∧ after.slabSize = cache.slabSize ∧
        ∃ taken ∈ after.partialSlabs ++ after.fullSlabs, ∃ index ≤ 8,
          obj = taken.vaddr + index * cache.size := by
    intro rest slab sizeSame slabSizeSame members taken
    rw [← sizeSame, ← slabSizeSame] at room ⊢
    obtain ⟨kept, size, slabSize, home, listed, index, bound, same, place⟩ :=
      Placed.allocFrom taken
        (fun other member => slabSizeSame.symm ▸ placed other (members other (Or.inr member)))
        (slabSizeSame.symm ▸ placed slab (members slab (Or.inl rfl))) fits room
    exact ⟨kept, size, slabSize, home, listed, index, bound, same.symm ▸ place⟩
  rcases Usage.alloc_cases call with ⟨slab, rest, obj', after', front, taken, equal⟩ |
      ⟨slab, rest, obj', after', front, taken, equal⟩ | refused |
      ⟨vaddr, obj', after', made', noneEmpty, grant, taken, equal⟩
  · obtain ⟨rfl, rfl, -⟩ : obj = obj' ∧ after = after' ∧ made = [] := by simpa using equal
    refine @narrow { cache with partialSlabs := rest } slab rfl rfl (fun other member => ?_) taken
    simp only [slabs, front, mem_append, mem_cons] at member ⊢
    tauto
  · obtain ⟨rfl, rfl, -⟩ : obj = obj' ∧ after = after' ∧ made = [] := by simpa using equal
    refine @narrow { cache with emptySlabs := rest } slab rfl rfl (fun other member => ?_) taken
    simp only [slabs, front, mem_append, mem_cons] at member ⊢
    tauto
  · simp at refused
  · obtain ⟨rfl, rfl, -⟩ : obj = obj' ∧ after = after' ∧ made = made' := by simpa using equal
    obtain ⟨page, above, below⟩ := granted vaddr grant
    obtain ⟨kept, size, slabSize, home, listed, index, bound, same, place⟩ :=
      Placed.allocFrom taken placed ⟨page, above, below, Nat.two_pow_pos 8⟩ fits room
    exact ⟨kept, size, slabSize, home, listed, index, bound, same.symm ▸ place⟩

theorem Placed.free (placed : cache.Placed low high) (obj : Nat) :
    (cache.free abi obj).2.Placed low high ∧ (cache.free abi obj).2.size = cache.size ∧
      (cache.free abi obj).2.slabSize = cache.slabSize := by
  rcases free_shape abi cache obj with failed | ⟨slab, listed, -, sizeSame, slabSizeSame, members⟩
  · rw [failed]
    exact ⟨placed, rfl, rfl⟩
  refine ⟨fun other member => ?_, sizeSame, slabSizeSame⟩
  rw [slabSizeSame]
  rcases members other member with released | old
  · obtain ⟨page, above, below, small⟩ := placed slab listed
    obtain ⟨same, smaller⟩ := release_placed cache small obj
    rw [released, same]
    exact ⟨page, above, below, smaller⟩
  · exact placed other old

end Slabs

end Cache

namespace Arm

/-! ### The page index and its caches -/

/-- The linear mapping of memory: where it begins physically and in the kernel's addresses, and how
much there is of it. -/
structure Linear where
  kernBase : Nat
  ramPhysbase : Nat
  ramSize : Nat
  kernBase_pos : 0 < kernBase
  kernBase_page : kernBase % pageSize = 0
  ramPhysbase_page : ramPhysbase % pageSize = 0
  kern_fits : kernBase + ramSize < 2 ^ 32
  phys_fits : ramPhysbase + ramSize ≤ 2 ^ 32
  shifted : ramPhysbase ≠ kernBase

/-- The configured addresses, with a gigabyte of memory. -/
def Linear.configured : Linear where
  kernBase := 0x80000000
  ramPhysbase := 0
  ramSize := 0x40000000
  kernBase_pos := by decide
  kernBase_page := by decide
  ramPhysbase_page := by decide
  kern_fits := by decide
  phys_fits := by decide
  shifted := by decide

/-- `kva2pa`. -/
def Linear.kva2pa (linear : Linear) (kva : Nat) : Nat :=
  (2 ^ 32 - linear.kernBase + linear.ramPhysbase + kva) % 2 ^ 32

/-- `ARM_PT_L1_SIZE`. -/
def l1Size : Nat := 16384

/-- A first-level table and `pt_l2_cache`, with the tables obtained from the cache and the calls of
`cache_free` on it with their return values. -/
structure PageIndex where
  l1 : Nat → Nat
  cache : Cache
  obtained : List Nat
  returned : List (Nat × Int)

/-- The arguments of a call of `map_pages` on a page index. -/
structure MapCall where
  vaddr : Nat
  paddr : Nat
  size : Nat
  flags : Nat
  deriving DecidableEq, Repr

namespace PageIndex

/-- `cache_free(pt_l2_cache, obj)`. -/
def cacheFree (obj : Nat) (index : PageIndex) : PageIndex :=
  let result := index.cache.free .ilp32 obj
  { index with cache := result.2, returned := index.returned ++ [(obj, result.1)] }

/-- `__arm_unmap_l1`. -/
def unmapL1 (vaddr : Nat) (index : PageIndex) : PageIndex :=
  let entry := index.l1 (l1Index vaddr)
  let index := if isTableEntry entry then index.cacheFree (tableBase entry) else index
  { index with l1 := Function.update index.l1 (l1Index vaddr) 0 }

/-- `__arm_map_sect`. -/
def mapSect (paddr vaddr flags : Nat) (index : PageIndex) : PageIndex :=
  let index := index.unmapL1 vaddr
  { index with
    l1 := Function.update index.l1 (l1Index vaddr) (sectEntry paddr (convertFlags flags)) }

section Mapping

variable (linear : Linear) (supply : Nat → Cache.Supply)

/-- `__arm_map_table`, with what the cache is supplied with for each table. `none` is the failed
assertion. -/
def mapTable (vaddr : Nat) (index : PageIndex) : Option PageIndex :=
  if isTableEntry (index.l1 (l1Index vaddr)) then some index
  else
    match index.cache.alloc .ilp32 (supply index.obtained.length) with
    | some (some l2, cache, _) =>
      some
        { index with
          l1 := Function.update index.l1 (l1Index vaddr) (l1Table ||| linear.kva2pa l2)
          cache
          obtained := index.obtained ++ [l2] }
    | _ => none

/-- `__arm_map_page`, up to the store into the second-level table. -/
def mapPage (vaddr : Nat) (index : PageIndex) : Option PageIndex :=
  index.mapTable linear supply (alignBelow 32 vaddr sectSize)

/-- The loop of `map_pages`; it is allowed one round for each page. -/
def mapLoop (flags : Nat) : Nat → Nat → Nat → Nat → PageIndex → Option PageIndex
  | 0, _, _, size, index => if size = 0 then some index else none
  | rounds + 1, vaddr, paddr, size, index =>
    if 0 < size then
      if sectPossible vaddr paddr size then
        mapLoop flags rounds ((vaddr + sectSize) % 2 ^ 32) ((paddr + sectSize) % 2 ^ 64)
          (size - sectSize) (index.mapSect paddr vaddr flags)
      else
        (index.mapPage linear supply vaddr).bind
          (mapLoop flags rounds ((vaddr + pageSize) % 2 ^ 32) ((paddr + pageSize) % 2 ^ 64)
            (size - pageSize))
    else some index

/-- `map_pages`: the value returned and the page index. -/
def mapPages (pgindex : Nat) (call : MapCall) (index : PageIndex) : Option (Int × PageIndex) :=
  if accepts pgindex call.vaddr call.paddr call.size then
    (index.mapLoop linear supply call.flags (call.size / pageSize) call.vaddr call.paddr
      call.size).map fun index => (0, index)
  else some (eof, index)

/-- Calls of `map_pages` one after the other. -/
def mapAll (pgindex : Nat) : List MapCall → PageIndex → Option PageIndex
  | [], index => some index
  | call :: rest, index =>
    (index.mapPages linear supply pgindex call).bind fun result => mapAll pgindex rest result.2

/-- The body of the loop of `destroy_pgindex`. -/
def destroyEntry (index : PageIndex) (i : Nat) : PageIndex :=
  if isTableEntry (index.l1 i) then index.cacheFree (tableBase (index.l1 i)) else index

/-- The loop of `destroy_pgindex`. -/
def destroyTables (index : PageIndex) : PageIndex := (List.range 4096).foldl destroyEntry index

end Mapping

end PageIndex

/-- What is left of a page index in the end: the page index with its tables destroyed, and the calls
of `cache_free` on `pt_l1_cache`. -/
structure Lifetime where
  pgindex : Nat
  index : PageIndex
  returned : List (Nat × Int)

/-- `init_pgindex`, calls of `map_pages`, and `destroy_pgindex`. The objects of `pt_l1_cache` are
cleared when they are made and when they are given back. -/
def lifetime (linear : Linear) (l1Cache l2Cache : Cache) (l1Supply : Cache.Supply)
    (supply : Nat → Cache.Supply) (calls : List MapCall) : Option Lifetime :=
  match l1Cache.alloc .ilp32 l1Supply with
  | some (some pgindex, l1Cache, _) =>
    (PageIndex.mapAll linear supply pgindex calls ⟨fun _ => 0, l2Cache, [], []⟩).map fun index =>
      ⟨pgindex, index.destroyTables, [(pgindex, (l1Cache.free .ilp32 pgindex).1)]⟩
  | _ => none

/-- Every second-level table obtained has been returned by a call that succeeded, as often as it was
obtained, and the first-level table has been returned once. -/
def Lifetime.Returned (life : Lifetime) : Prop :=
  (∀ table ∈ life.index.obtained,
    life.index.returned.count (table, 0) = life.index.obtained.count table) ∧
    life.returned.filter (fun call => call.2 = 0) = [(life.pgindex, 0)]

/-- A call that maps whole sections only: it is refused, it maps nothing, or all it is given is
aligned to sections. -/
def MapCall.WholeSections (call : MapCall) : Prop :=
  (isAligned call.vaddr pageSize && isAligned call.paddr pageSize && isAligned call.size pageSize) =
      false ∨
    call.size = 0 ∨
    call.vaddr % sectSize = 0 ∧ call.paddr % sectSize = 0 ∧ call.size % sectSize = 0

/-! ### The books of a page index -/

variable (linear : Linear)

theorem Linear.kva2pa_eq {kva : Nat} (above : linear.kernBase ≤ kva)
    (below : kva < linear.kernBase + linear.ramSize) :
    linear.kva2pa kva + linear.kernBase = kva + linear.ramPhysbase ∧
      linear.kva2pa kva < 2 ^ 32 := by
  have kern := linear.kern_fits
  have phys := linear.phys_fits
  unfold kva2pa
  omega

/-- The table an entry points to, if it points to one. -/
def entryTable (entry : Nat) : Multiset Nat := if isTableEntry entry then {tableBase entry} else 0

/-- The tables a first-level table points to. -/
def tables (l1 : Nat → Nat) : Multiset Nat := ∑ i ∈ Finset.range 4096, entryTable (l1 i)

theorem entryTable_sect {entry : Nat} (other : isTableEntry entry = false) :
    entryTable entry = 0 := by
  rw [entryTable, other]
  rfl

theorem tables_clear : tables (fun _ => 0) = 0 :=
  Finset.sum_eq_zero fun _ _ => entryTable_sect (show isTableEntry 0 = false by decide)

variable {i : Nat} {made : List Nat} {items : Multiset Nat}

/-- Storing an entry trades the table of the old one for the table of the new one. -/
theorem tables_update (l1 : Nat → Nat) (inside : i < 4096) (entry : Nat) :
    entryTable (l1 i) + tables (Function.update l1 i entry) = entryTable entry + tables l1 := by
  have member := Finset.mem_range.mpr inside
  have moved : ∀ j, entryTable (Function.update l1 i entry j) =
      Function.update (fun j => entryTable (l1 j)) i (entryTable entry) j := fun j => by
    by_cases same : j = i
    · subst same
      simp
    · simp [same]
  unfold tables
  rw [Finset.sum_congr rfl fun j _ => moved j, Finset.sum_update_of_mem member,
    Finset.sum_eq_add_sum_sdiff_singleton_of_mem member fun j => entryTable (l1 j)]
  abel

variable {pgindex : Nat}

namespace PageIndex

/-- The addresses given back and those still held by the first-level table are together the physical
addresses of the tables obtained, and these are kernel addresses of memory. -/
structure Ledger (linear : Linear) (index : PageIndex) : Prop where
  balance : (index.returned.map Prod.fst : Multiset Nat) + tables index.l1 =
    (index.obtained.map linear.kva2pa : List Nat)
  inside : ∀ table ∈ index.obtained,
    linear.kernBase ≤ table ∧ table < linear.kernBase + linear.ramSize
  placed : index.cache.Placed linear.kernBase (linear.kernBase + linear.ramSize)
  size : index.cache.size = l2Size
  slabSize : index.cache.slabSize = 32 * l2Size

section Ledgers

variable {linear : Linear} {supply : Nat → Cache.Supply} {index after : PageIndex}

theorem Ledger.obtained_ne_nil (ledger : index.Ledger linear) (inside : i < 4096)
    (table : isTableEntry (index.l1 i) = true) : index.obtained ≠ [] := by
  intro none
  have balance := ledger.balance
  rw [none, map_nil, Multiset.coe_nil, add_eq_zero] at balance
  have zero := (Finset.sum_eq_zero_iff.mp balance.2) i (Finset.mem_range.mpr inside)
  rw [entryTable, if_pos table] at zero
  exact Multiset.singleton_ne_zero _ zero

theorem unmapL1_obtained (vaddr : Nat) : (index.unmapL1 vaddr).obtained = index.obtained := by
  unfold unmapL1
  dsimp only
  split <;> rfl

variable {vaddr : Nat}

theorem Ledger.unmapL1 (ledger : index.Ledger linear) (fits : vaddr < 2 ^ 32) :
    (index.unmapL1 vaddr).Ledger linear ∧ (index.unmapL1 vaddr).l1 (l1Index vaddr) = 0 := by
  have inside := l1Index_lt fits
  have traded := tables_update index.l1 inside 0
  have balance := ledger.balance
  rw [entryTable_sect (show isTableEntry 0 = false by decide), zero_add] at traded
  unfold PageIndex.unmapL1
  dsimp only
  by_cases table : isTableEntry (index.l1 (l1Index vaddr)) = true
  · obtain ⟨placed, size, slabSize⟩ := Cache.Placed.free ledger.placed
      (tableBase (index.l1 (l1Index vaddr)))
    rw [if_pos table]
    refine ⟨⟨?_, ledger.inside, placed, size.trans ledger.size, slabSize.trans ledger.slabSize⟩, ?_⟩
    · refine Eq.trans ?_ balance
      rw [← traded, entryTable, if_pos table]
      simp only [cacheFree, map_append, map_cons, map_nil, ← Multiset.coe_add,
        Multiset.coe_singleton, add_assoc]
    · exact Function.update_self _ _ _
  · rw [entryTable_sect (by simpa using table), zero_add] at traded
    rw [if_neg table]
    refine ⟨⟨?_, ledger.inside, ledger.placed, ledger.size, ledger.slabSize⟩,
      Function.update_self _ _ _⟩
    exact (congrArg _ traded).trans balance

variable {paddr : Nat}

theorem Ledger.mapSect (ledger : index.Ledger linear) (flags : Nat) (fits : vaddr < 2 ^ 32)
    (aligned : paddr % 2 ^ 20 = 0) :
    (index.mapSect paddr vaddr flags).Ledger linear ∧
      (index.mapSect paddr vaddr flags).obtained = index.obtained := by
  obtain ⟨cleared, zero⟩ := ledger.unmapL1 fits
  obtain ⟨sect, -, -⟩ := sectEntry_fields (convertFlags_narrow flags) aligned
  have traded := tables_update (index.unmapL1 vaddr).l1 (l1Index_lt fits)
    (sectEntry paddr (convertFlags flags))
  rw [zero, entryTable_sect (not_table_of_sect sect),
    entryTable_sect (show isTableEntry 0 = false by decide), zero_add, zero_add] at traded
  refine ⟨⟨?_, cleared.inside, cleared.placed, cleared.size, cleared.slabSize⟩,
    unmapL1_obtained vaddr⟩
  exact (congrArg _ traded).trans cleared.balance

/-- A table that the cache hands out can be stored in an entry. -/
theorem Ledger.isL2Table (ledger : index.Ledger linear) {table : Nat} {cache : Cache}
    (granted : ∀ n, (supply n).Placed linear.kernBase (linear.kernBase + linear.ramSize)
      (32 * l2Size))
    (call : index.cache.alloc .ilp32 (supply index.obtained.length) =
      some (some table, cache, made)) :
    Arm.isL2Table (linear.kva2pa table) = true ∧
      (linear.kernBase ≤ table ∧ table < linear.kernBase + linear.ramSize) ∧
      cache.Placed linear.kernBase (linear.kernBase + linear.ramSize) ∧ cache.size = l2Size ∧
      cache.slabSize = 32 * l2Size := by
  have kernPage := linear.kernBase_page
  have physPage := linear.ramPhysbase_page
  have room : 9 * index.cache.size ≤ index.cache.slabSize := by
    rw [ledger.size, ledger.slabSize]
    decide
  obtain ⟨placed, size, slabSize, home, listed, place, bound, equal⟩ :=
    ledger.placed.alloc call (ledger.slabSize.symm ▸ granted _) linear.kern_fits room
  obtain ⟨page, above, below, -⟩ := placed home (by
    simp only [Cache.slabs, mem_append] at listed ⊢
    tauto)
  rw [ledger.size] at equal size
  rw [slabSize, ledger.slabSize] at below
  unfold l2Size at equal below
  have inside : linear.kernBase ≤ table ∧ table < linear.kernBase + linear.ramSize := by omega
  obtain ⟨sum, word⟩ := linear.kva2pa_eq inside.1 inside.2
  refine ⟨?_, inside, placed, size, slabSize.trans ledger.slabSize⟩
  rw [Arm.isL2Table, Bool.and_eq_true, decide_eq_true_iff, show l2Size = 2 ^ 10 from rfl,
    isAligned_two_pow]
  unfold pageSize at *
  omega

theorem Ledger.mapTable (ledger : index.Ledger linear) (fits : vaddr < 2 ^ 32)
    (granted : ∀ n, (supply n).Placed linear.kernBase (linear.kernBase + linear.ramSize)
      (32 * l2Size))
    (done : index.mapTable linear supply vaddr = some after) :
    after.Ledger linear ∧ after.obtained ≠ [] := by
  unfold PageIndex.mapTable at done
  split at done
  · rename_i table
    cases done
    exact ⟨ledger, ledger.obtained_ne_nil (l1Index_lt fits) table⟩
  rename_i notTable
  split at done
  · rename_i l2 cache made call
    cases done
    obtain ⟨kind, inside, placed, size, slabSize⟩ := ledger.isL2Table granted call
    obtain ⟨isTable, base⟩ := tableEntry_fields kind
    have traded := tables_update index.l1 (l1Index_lt fits) (l1Table ||| linear.kva2pa l2)
    rw [entryTable_sect (by simpa using notTable), zero_add, entryTable, if_pos isTable,
      base] at traded
    refine ⟨⟨?_, ?_, placed, size, slabSize⟩, by simp⟩
    · rw [traded, map_append, ← Multiset.coe_add, ← ledger.balance, map_singleton,
        Multiset.coe_singleton]
      abel
    · intro table member
      rcases mem_append.mp member with old | new
      · exact ledger.inside table old
      · rw [mem_singleton.mp new]
        exact inside
  · cases done

/-- After the loop no table has been obtained exactly when none had been before it and the loop maps
whole sections. -/
theorem Ledger.mapLoop {flags : Nat}
    (granted : ∀ n, (supply n).Placed linear.kernBase (linear.kernBase + linear.ramSize)
      (32 * l2Size))
    (rounds : Nat) {size : Nat} (ledger : index.Ledger linear) (fits : vaddr < 2 ^ 32)
    (done : index.mapLoop linear supply flags rounds vaddr paddr size = some after) :
    after.Ledger linear ∧
      (after.obtained = [] ↔ index.obtained = [] ∧
        (size = 0 ∨ vaddr % 2 ^ 20 = 0 ∧ paddr % 2 ^ 20 = 0 ∧ size % 2 ^ 20 = 0)) := by
  induction rounds generalizing vaddr paddr size index with
  | zero =>
    unfold PageIndex.mapLoop at done
    split at done
    · rename_i empty
      cases done
      exact ⟨ledger, by simp [empty]⟩
    · cases done
  | succ rounds inductionHypothesis =>
    unfold PageIndex.mapLoop at done
    split at done
    · have next : ∀ step, (vaddr + step) % 2 ^ 32 < 2 ^ 32 := fun step => mod_lt _ (by decide)
      split at done
      · rename_i positive large
        rw [sectPossible, Bool.and_eq_true, Bool.and_eq_true, decide_eq_true_iff,
          show sectSize = 2 ^ 20 from rfl, isAligned_two_pow, isAligned_two_pow] at large
        obtain ⟨mapped, same⟩ := ledger.mapSect flags fits large.1.2
        obtain ⟨kept, iff⟩ := inductionHypothesis mapped (next _) done
        refine ⟨kept, iff.trans ?_⟩
        rw [same, show sectSize = 2 ^ 20 from rfl]
        refine and_congr_right fun _ => ?_
        omega
      · rename_i positive small
        rw [sectPossible, Bool.and_eq_true, Bool.and_eq_true, decide_eq_true_iff,
          show sectSize = 2 ^ 20 from rfl, isAligned_two_pow, isAligned_two_pow] at small
        obtain ⟨middle, mapped, rest⟩ := bind_eq_some_iff.mp done
        have below : alignBelow 32 vaddr sectSize = vaddr / 2 ^ 20 * 2 ^ 20 :=
          alignBelow_two_pow 32 vaddr 20 fits (by decide)
        obtain ⟨linked, some⟩ := ledger.mapTable (by omega) granted mapped
        obtain ⟨kept, iff⟩ := inductionHypothesis linked (next _) rest
        refine ⟨kept, iff_of_false (fun none => some (iff.mp none).1) ?_⟩
        rintro ⟨-, empty | ⟨vaddrAligned, paddrAligned, sizeAligned⟩⟩
        · omega
        · exact small ⟨⟨vaddrAligned, paddrAligned⟩, by omega⟩
    · rename_i empty
      cases done
      exact ⟨ledger, by simp [Nat.eq_zero_of_not_pos empty]⟩

theorem Ledger.mapPages (pointer : pgindex ≠ 0)
    (granted : ∀ n, (supply n).Placed linear.kernBase (linear.kernBase + linear.ramSize) (32 *
      l2Size)) {call : MapCall} (fits : call.vaddr < 2 ^ 32) {ret : Int}
    (ledger : index.Ledger linear)
    (done : index.mapPages linear supply pgindex call = some (ret, after)) :
    after.Ledger linear ∧ (after.obtained = [] ↔ index.obtained = [] ∧ call.WholeSections) := by
  unfold PageIndex.mapPages at done
  unfold MapCall.WholeSections
  rw [accepts, decide_eq_true pointer, Bool.true_and] at done
  split at done
  · rename_i accepted
    obtain ⟨mapped, loop, equal⟩ := map_eq_some_iff.mp done
    obtain ⟨-, rfl⟩ := Prod.mk.inj equal
    obtain ⟨kept, iff⟩ := ledger.mapLoop granted _ fits loop
    refine ⟨kept, iff.trans ?_⟩
    rw [accepted]
    simp [sectSize]
  · rename_i refused
    obtain ⟨-, rfl⟩ := Prod.mk.inj (Option.some.inj done)
    refine ⟨ledger, ?_⟩
    rw [Bool.eq_false_of_not_eq_true refused]
    simp

theorem Ledger.mapAll (pointer : pgindex ≠ 0)
    (granted : ∀ n, (supply n).Placed linear.kernBase (linear.kernBase + linear.ramSize) (32 *
      l2Size)) (calls : List MapCall) (fits : ∀ call ∈ calls, call.vaddr < 2 ^ 32)
    (ledger : index.Ledger linear) (done : index.mapAll linear supply pgindex calls = some after) :
    after.Ledger linear ∧
      (after.obtained = [] ↔ index.obtained = [] ∧ ∀ call ∈ calls, call.WholeSections) := by
  induction calls generalizing index with
  | nil =>
    cases done
    exact ⟨ledger, by simp⟩
  | cons call rest inductionHypothesis =>
    obtain ⟨⟨ret, middle⟩, mapped, later⟩ := bind_eq_some_iff.mp done
    obtain ⟨first, others⟩ := forall_mem_cons.mp fits
    obtain ⟨linked, iff⟩ := ledger.mapPages pointer granted first mapped
    obtain ⟨kept, laterIff⟩ := inductionHypothesis others linked later
    refine ⟨kept, laterIff.trans ?_⟩
    rw [iff, forall_mem_cons, and_assoc]

/-- The loop of `destroy_pgindex` gives back what the entries hold. -/
theorem destroy_fold (index : PageIndex) (count : Nat) :
    ((List.range count).foldl destroyEntry index).l1 = index.l1 ∧
      ((List.range count).foldl destroyEntry index).obtained = index.obtained ∧
      (((List.range count).foldl destroyEntry index).returned.map Prod.fst : Multiset Nat) =
        (index.returned.map Prod.fst : Multiset Nat) +
          ∑ i ∈ Finset.range count, entryTable (index.l1 i) := by
  induction count with
  | zero => exact ⟨rfl, rfl, (add_zero _).symm⟩
  | succ count inductionHypothesis =>
    obtain ⟨l1, obtained, returned⟩ := inductionHypothesis
    rw [range_succ, foldl_append, foldl_cons, foldl_nil, Finset.sum_range_succ,
      ← add_assoc, ← returned, ← l1]
    generalize (List.range count).foldl destroyEntry index = reached at l1 obtained
    unfold destroyEntry entryTable
    split
    · exact ⟨rfl, obtained, by simp [cacheFree, ← Multiset.coe_add]⟩
    · exact ⟨rfl, obtained, (add_zero _).symm⟩

/-- In the end the addresses given back are the physical addresses of the tables obtained. -/
theorem Ledger.destroyTables (ledger : index.Ledger linear) :
    index.destroyTables.obtained = index.obtained ∧
      (index.destroyTables.returned.map Prod.fst : Multiset Nat) =
        (index.obtained.map linear.kva2pa : List Nat) := by
  obtain ⟨-, obtained, returned⟩ := destroy_fold index 4096
  exact ⟨obtained, returned.trans ledger.balance⟩

end Ledgers

end PageIndex

/-! ### Addresses that are all shifted -/

theorem sum_map_shift {before after : Nat} {translate : Nat → Nat}
    (moved : ∀ item ∈ items, translate item + before = item + after) :
    (items.map translate).sum + items.card * before = items.sum + items.card * after := by
  have sums := congrArg Multiset.sum (Multiset.map_congr rfl moved)
  simpa only [Multiset.sum_map_add, Multiset.map_id', Multiset.map_const', Multiset.sum_replicate,
    smul_eq_mul] using sums

/-- No collection of kernel addresses is the collection of its physical addresses. -/
theorem Linear.eq_zero_of_map_eq
    (inside : ∀ item ∈ items, linear.kernBase ≤ item ∧ item < linear.kernBase + linear.ramSize)
    (same : items.map linear.kva2pa = items) : items = 0 := by
  have sums := sum_map_shift fun item member =>
    (linear.kva2pa_eq (inside item member).1 (inside item member).2).1
  rw [same] at sums
  have product := add_left_cancel sums
  rw [← Multiset.card_eq_zero]
  by_contra nonempty
  exact linear.shifted (Nat.eq_of_mul_eq_mul_left (Nat.pos_of_ne_zero nonempty) product).symm

namespace PageIndex

/-- The tables are returned as often as they are obtained exactly when none is obtained. -/
theorem Ledger.returned_iff {linear : Linear} {index : PageIndex} (ledger : index.Ledger linear) :
    (∀ table ∈ index.destroyTables.obtained,
      index.destroyTables.returned.count (table, 0) = index.destroyTables.obtained.count table) ↔
      index.obtained = [] := by
  obtain ⟨obtained, returned⟩ := ledger.destroyTables
  rw [obtained]
  constructor
  · intro each
    have below : (index.obtained : Multiset Nat) ≤
        (index.obtained.map linear.kva2pa : List Nat) := by
      rw [← returned, Multiset.le_iff_count]
      intro table
      by_cases member : table ∈ index.obtained
      · rw [Multiset.coe_count, Multiset.coe_count, ← each table member]
        generalize index.destroyTables.returned = calls
        exact @count_le_count_map _ _ _ _ _ _ _ Prod.fst (table, 0)
      · rw [Multiset.coe_count, count_eq_zero.mpr member]
        exact zero_le _
    have same := Multiset.eq_of_le_of_card_le below (by simp)
    have fixed : (index.obtained : Multiset Nat).map linear.kva2pa = index.obtained :=
      (Multiset.map_coe _ _).trans same.symm
    exact (Multiset.coe_eq_zero _).mp (linear.eq_zero_of_map_eq
      (fun item member => ledger.inside item (Multiset.mem_coe.mp member)) fixed)
  · intro none table member
    rw [none] at member
    cases member

end PageIndex

theorem free_first_level {l1Cache after : Cache} {supply : Cache.Supply}
    (placed : l1Cache.Placed linear.kernBase (linear.kernBase + linear.ramSize))
    (size : l1Cache.size = l1Size) (slabSize : l1Cache.slabSize = 32 * l1Size)
    (granted : supply.Placed linear.kernBase (linear.kernBase + linear.ramSize) (32 * l1Size))
    (call : l1Cache.alloc .ilp32 supply = some (some pgindex, after, made)) :
    pgindex ≠ 0 ∧ (after.free .ilp32 pgindex).1 = 0 := by
  have positive := linear.kernBase_pos
  have fits := linear.kern_fits
  obtain ⟨kept, -, same, home, listed, place, bound, equal⟩ :=
    placed.alloc call (slabSize.symm ▸ granted) linear.kern_fits (by rw [size, slabSize]; decide)
  obtain ⟨-, above, below, -⟩ := kept home (by
    simp only [Cache.slabs, mem_append] at listed ⊢
    tauto)
  rw [same, slabSize] at below
  rw [size] at equal
  unfold l1Size at equal below
  refine ⟨by omega, Cache.free_succeeds listed ⟨by omega, ?_⟩⟩
  rw [same, slabSize]
  show pgindex < (home.vaddr + 32 * 16384) % 2 ^ 32
  omega

/-- The two caches have their slabs in memory, with the object sizes of `arch_mm_init`, and are
supplied with memory. -/
structure CachesPlaced (linear : Linear) (l1Cache l2Cache : Cache) (l1Supply : Cache.Supply)
    (supply : Nat → Cache.Supply) : Prop where
  l1Placed : l1Cache.Placed linear.kernBase (linear.kernBase + linear.ramSize)
  l1Sizes : l1Cache.size = l1Size ∧ l1Cache.slabSize = 32 * l1Size
  l2Placed : l2Cache.Placed linear.kernBase (linear.kernBase + linear.ramSize)
  l2Sizes : l2Cache.size = l2Size ∧ l2Cache.slabSize = 32 * l2Size
  l1Granted : l1Supply.Placed linear.kernBase (linear.kernBase + linear.ramSize) (32 * l1Size)
  l2Granted : ∀ n, (supply n).Placed linear.kernBase (linear.kernBase + linear.ramSize)
    (32 * l2Size)

/-- The books before `destroy_pgindex`, and what it makes of them. -/
theorem CachesPlaced.exists_ledger {linear : Linear} {l1Cache l2Cache : Cache}
    {l1Supply : Cache.Supply} {supply : Nat → Cache.Supply} {calls : List MapCall} {life : Lifetime}
    (placed : CachesPlaced linear l1Cache l2Cache l1Supply supply)
    (typed : ∀ call ∈ calls, call.vaddr < 2 ^ 32)
    (lived : lifetime linear l1Cache l2Cache l1Supply supply calls = some life) :
    ∃ index : PageIndex, index.Ledger linear ∧
      (index.obtained = [] ↔ ∀ call ∈ calls, call.WholeSections) ∧
      life.index = index.destroyTables ∧ life.returned = [(life.pgindex, 0)] := by
  unfold lifetime at lived
  split at lived
  · rename_i pgindex l1After made call
    obtain ⟨index, mapped, rfl⟩ := map_eq_some_iff.mp lived
    obtain ⟨pointer, freed⟩ := free_first_level linear placed.l1Placed placed.l1Sizes.1
      placed.l1Sizes.2 placed.l1Granted call
    have fresh : PageIndex.Ledger linear ⟨fun _ => 0, l2Cache, [], []⟩ :=
      ⟨by rw [tables_clear]; rfl, fun _ member => absurd member not_mem_nil, placed.l2Placed,
        placed.l2Sizes.1, placed.l2Sizes.2⟩
    obtain ⟨ledger, iff⟩ := fresh.mapAll pointer placed.l2Granted calls typed mapped
    refine ⟨index, ledger, iff.trans (by simp only [true_and]), ?_, ?_⟩
    · dsimp only
    · rw [freed]
  · cases lived

/-- Everything is returned exactly when no second-level table is obtained. -/
theorem CachesPlaced.returned_iff {linear : Linear} {l1Cache l2Cache : Cache}
    {l1Supply : Cache.Supply} {supply : Nat → Cache.Supply} {calls : List MapCall} {life : Lifetime}
    (placed : CachesPlaced linear l1Cache l2Cache l1Supply supply)
    (typed : ∀ call ∈ calls, call.vaddr < 2 ^ 32)
    (lived : lifetime linear l1Cache l2Cache l1Supply supply calls = some life) :
    life.Returned ↔ life.index.obtained = [] := by
  obtain ⟨index, ledger, -, destroyed, returned⟩ := placed.exists_ledger typed lived
  have each := ledger.returned_iff
  have obtained := ledger.destroyTables.1
  rw [← destroyed] at each obtained
  unfold Lifetime.Returned
  rw [each, returned, obtained]
  simp

/-- After `init_pgindex`, any calls of `map_pages` and `destroy_pgindex`, the second-level tables
and the first-level table have been returned to their caches exactly when every call of `map_pages`
maps whole sections only. -/
theorem tables_returned_iff (linear : Linear) (l1Cache l2Cache : Cache) (l1Supply : Cache.Supply)
    (supply : Nat → Cache.Supply) (calls : List MapCall) (life : Lifetime)
    (placed : CachesPlaced linear l1Cache l2Cache l1Supply supply)
    (typed : ∀ call ∈ calls, call.vaddr < 2 ^ 32)
    (lived : lifetime linear l1Cache l2Cache l1Supply supply calls = some life) :
    life.Returned ↔ ∀ call ∈ calls, call.WholeSections := by
  obtain ⟨index, ledger, iff, destroyed, -⟩ := placed.exists_ledger typed lived
  have obtained := ledger.destroyTables.1
  rw [← destroyed] at obtained
  rw [placed.returned_iff typed lived, obtained]
  exact iff

/-- A cache of tables of a size with one slab, all of whose objects are free. -/
def oneSlab (size vaddr : Nat) : Cache :=
  ⟨size, size, true, 32 * size, [⟨vaddr, Vector.replicate slabMaskChars 0⟩], [], []⟩

theorem oneSlab_placed :
    CachesPlaced .configured (oneSlab l1Size 0x80200000) (oneSlab l2Size 0x80300000) ⟨false, none⟩
      fun _ => ⟨false, none⟩ where
  l1Placed := by
    unfold Cache.Placed
    decide +kernel
  l1Sizes := ⟨rfl, rfl⟩
  l2Placed := by
    unfold Cache.Placed
    decide +kernel
  l2Sizes := ⟨rfl, rfl⟩
  l1Granted := fun _ grant => absurd grant (not_mem_none _)
  l2Granted := fun _ _ grant => absurd grant (not_mem_none _)

/-- One section is mapped, and the page index destroyed. -/
theorem tables_returned_section :
    ∃ life, lifetime .configured (oneSlab l1Size 0x80200000) (oneSlab l2Size 0x80300000)
        ⟨false, none⟩ (fun _ => ⟨false, none⟩) [⟨0x100000, 0x100000, 0x100000, vmaWrite⟩] =
        some life ∧ life.Returned := by
  have lived : (lifetime .configured (oneSlab l1Size 0x80200000) (oneSlab l2Size 0x80300000)
      ⟨false, none⟩ (fun _ => ⟨false, none⟩)
      [⟨0x100000, 0x100000, 0x100000, vmaWrite⟩]).isSome = true := by decide +kernel
  obtain ⟨life, equal⟩ := isSome_iff_exists.mp lived
  refine ⟨life, equal, (tables_returned_iff _ _ _ _ _ _ life oneSlab_placed (by decide +kernel)
    equal).mpr ?_⟩
  exact forall_mem_singleton.mpr (Or.inr (Or.inr (by decide)))

/-- One page is mapped, and the page index destroyed: the table at `0x80300000` is not returned. Its
physical address `0x300000`, which is passed to `cache_free`, is in no slab. -/
theorem table_not_returned :
    (∃ life, lifetime .configured (oneSlab l1Size 0x80200000) (oneSlab l2Size 0x80300000)
        ⟨false, none⟩ (fun _ => ⟨false, none⟩) [⟨0x1000, 0x1000, 0x1000, vmaWrite⟩] = some life ∧
      ¬ life.Returned) ∧
      ((oneSlab l2Size 0x80300000).alloc .ilp32 ⟨false, none⟩).map (fun result =>
        (result.1, (result.2.1.free .ilp32 (Linear.configured.kva2pa 0x80300000)).1)) =
        some (some 0x80300000, -1) := by
  have lived : (lifetime .configured (oneSlab l1Size 0x80200000) (oneSlab l2Size 0x80300000)
      ⟨false, none⟩ (fun _ => ⟨false, none⟩) [⟨0x1000, 0x1000, 0x1000, vmaWrite⟩]).isSome =
        true := by
    decide +kernel
  obtain ⟨life, equal⟩ := isSome_iff_exists.mp lived
  refine ⟨⟨life, equal, fun all => ?_⟩, by decide +kernel⟩
  have typed : ∀ call ∈ [(⟨0x1000, 0x1000, 0x1000, vmaWrite⟩ : MapCall)], call.vaddr < 2 ^ 32 := by
    decide +kernel
  obtain ⟨index, ledger, iff, destroyed, -⟩ := oneSlab_placed.exists_ledger typed equal
  have none := (oneSlab_placed.returned_iff typed equal).mp all
  have obtained := ledger.destroyTables.1
  rw [← destroyed] at obtained
  exact absurd (iff.mp (obtained.symm.trans none) _ mem_cons_self)
    (by unfold MapCall.WholeSections; decide +kernel)

end Arm

end AIMv6
