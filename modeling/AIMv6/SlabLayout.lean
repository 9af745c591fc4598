/-
This file compares the size that `__create` rounds with the size that the other functions of
`kern/mm/vmm/slab.c` read. `__create` raises the object size to `SLAB_MIN_SIZE`, rounds it to the
alignment and to whole pages, and computes the size of a slab from the result, but it does not store
the rounded size: `__alloc`, `__extend` and `__free` all step and divide by `cache->size` itself.

Three results say what comes of it, each with the exact condition on the sizes. An object is aligned
as the cache asks only when the alignment divides the object size and is at most a page. The
constructor loop builds the objects of a slab only when the object size divides the slab size. The
byte that `__free` clears a bit of lies inside the bitmap only when the slab is no larger than 32
objects.
-/

import AIMv6.SlabCalls

namespace AIMv6

open List Nat

namespace Cache

open Usage

variable {abi : Abi} {cache after : Cache} {size exponent obj vaddr : Nat}

/-! ### The size of a slab -/

theorem slabSizeFor_lt (abi : Abi) (size align : Nat) : slabSizeFor abi size align < abi.modulus :=
  mod_lt _ (Nat.two_pow_pos _)

theorem pageSize_dvd_modulus (abi : Abi) : pageSize ∣ abi.modulus := by
  cases abi <;> decide

theorem pageSize_dvd_slabSizeFor (abi : Abi) (size align : Nat) :
    pageSize ∣ slabSizeFor abi size align := by
  have narrow : 12 ≤ abi.bits := by cases abi <;> decide
  have rounded := fun value : Nat =>
    alignAbove_two_pow abi.bits (value % abi.modulus) 12 (mod_lt _ (Nat.two_pow_pos _)) narrow
  unfold slabSizeFor
  rw [show pageSize = 2 ^ 12 from rfl, rounded]
  exact (dvd_mod_iff (pageSize_dvd_modulus abi)).mpr (dvd_mul_left _ _)

/-- A slab can lie in the address space above its first page. -/
theorem pageSize_add_slabSizeFor_le (abi : Abi) (size align : Nat) :
    pageSize + slabSizeFor abi size align ≤ abi.modulus := by
  have below := slabSizeFor_lt abi size align
  obtain ⟨pages, whole⟩ := pageSize_dvd_slabSizeFor abi size align
  obtain ⟨all, total⟩ := pageSize_dvd_modulus abi
  rw [whole, total] at below ⊢
  have more : pages + 1 ≤ all := Nat.lt_of_mul_lt_mul_left below
  calc
    pageSize + pageSize * pages = pageSize * (pages + 1) := by
      rw [mul_add, mul_one, add_comm]
    _ ≤ pageSize * all := mul_le_mul_left _ more

/-! ### The alignment of the objects -/

variable {align : Nat}

namespace Usage

/-- The pages that a call is granted start at a page border. -/
def Paged (_ : Usage) : Call → Prop
  | .alloc supply => ∀ vaddr, supply.grant = some vaddr → pageSize ∣ vaddr
  | .free _ => True
  | .trim => True

theorem run_paged {createObj : Bool} {usage : Usage}
    (run : Runs abi Paged size align createObj usage) :
    usage.cache.size = size ∧ ∀ base, usage.cache.IsBase base → pageSize ∣ base := by
  induction run with
  | refl =>
    refine ⟨rfl, ?_⟩
    rintro base ⟨slab, member, -⟩
    cases member
  | tail earlier step inductionHypothesis =>
    obtain ⟨sizeSame, paged⟩ := inductionHypothesis
    obtain ⟨call, meets, -, taken⟩ := step
    cases call with
    | alloc supply =>
      obtain ⟨result, called, rfl⟩ := Option.map_eq_some_iff.mp taken
      obtain ⟨kept, bases, -⟩ := alloc_place called
      have next : result.2.1.size = size ∧ ∀ base, result.2.1.IsBase base → pageSize ∣ base := by
        refine ⟨kept.trans sizeSame, fun base isBase => ?_⟩
        rcases bases base isBase with old | granted
        · exact paged base old
        · exact meets base granted
      split <;> exact next
    | free obj =>
      obtain ⟨kept, bases⟩ := free_place abi _ obj
      simp only [step, Option.some.injEq] at taken
      subst taken
      split <;> exact ⟨kept.trans sizeSame, fun base isBase => paged base (bases base isBase)⟩
    | trim =>
      simp only [step, Option.some.injEq] at taken
      subst taken
      refine ⟨sizeSame, ?_⟩
      rintro base ⟨slab, member, rfl⟩
      refine paged _ ⟨slab, ?_, rfl⟩
      simp only [Cache.trim, mem_slabs, not_mem_nil, false_or] at member
      exact mem_slabs.mpr (Or.inr member)

/-- Every object that `cache_alloc` returns in a run is a multiple of the cache's alignment. -/
def AllocAligned (abi : Abi) (size align : Nat) : Prop :=
  ∀ (createObj : Bool) (usage : Usage) (supply : Supply) (obj : Nat) (after : Cache)
    (made : List Nat), Runs abi Paged size align createObj usage →
    usage.Allowed abi (.alloc supply) → usage.Paged (.alloc supply) →
    usage.cache.alloc abi supply = some (some obj, after, made) → align ∣ obj

/-- The cache after its first object was taken from a slab at the second page. -/
def oneTaken (abi : Abi) (size align : Nat) : Cache :=
  { create abi size align false with
    partialSlabs := [(⟨pageSize, Vector.replicate slabMaskChars 0⟩ : Slab).setBit 0 0] }

theorem oneTaken_partialSlabs (abi : Abi) (size align : Nat) :
    (oneTaken abi size align).partialSlabs = [⟨pageSize, #v[1, 0, 0, 0]⟩] := by
  have marked : (⟨pageSize, Vector.replicate slabMaskChars 0⟩ : Slab).setBit 0 0 =
      ⟨pageSize, #v[1, 0, 0, 0]⟩ := by decide
  rw [oneTaken, marked]

theorem alloc_first (abi : Abi) (size align : Nat) :
    (create abi size align false).alloc abi ⟨true, some pageSize⟩ =
      some (some (pageSize % abi.modulus), oneTaken abi size align, []) := by
  have stop : scan abi [0, 0, 0, 0] 0 = some (0, 0) := by cases abi <;> decide +kernel
  have marked : (⟨pageSize, #v[0, 0, 0, 0]⟩ : Slab).setBit 0 0 = ⟨pageSize, #v[1, 0, 0, 0]⟩ := by
    decide
  have notFull : (⟨pageSize, #v[1, 0, 0, 0]⟩ : Slab).isFull = false :=
    not_isFull ⟨by decide, rfl⟩
  have emptied : Vector.replicate slabMaskChars 0 = #v[0, 0, 0, 0] := rfl
  have taken : allocFrom abi (create abi size align false) ⟨pageSize, #v[0, 0, 0, 0]⟩ =
      some (pageSize % abi.modulus, oneTaken abi size align) := by
    unfold allocFrom
    rw [show (⟨pageSize, #v[0, 0, 0, 0]⟩ : Slab).used.toList = [0, 0, 0, 0] from rfl, stop]
    simp [marked, notFull, oneTaken, emptied, create]
  unfold Cache.alloc extend
  simp only [create, Bool.not_true, Bool.false_eq_true, if_false]
  rw [create] at taken
  rw [emptied, taken]
  rfl

theorem alloc_second (abi : Abi) (size align : Nat) :
    ∃ after, (oneTaken abi size align).alloc abi ⟨true, none⟩ =
      some (some ((pageSize + size) % abi.modulus), after, []) := by
  have stop : scan abi [1, 0, 0, 0] 0 = some (0, 1) := by cases abi <;> decide +kernel
  have marked : (⟨pageSize, #v[1, 0, 0, 0]⟩ : Slab).setBit 0 1 = ⟨pageSize, #v[3, 0, 0, 0]⟩ := by
    decide
  have notFull : (⟨pageSize, #v[3, 0, 0, 0]⟩ : Slab).isFull = false :=
    not_isFull ⟨by decide, rfl⟩
  unfold Cache.alloc
  rw [oneTaken_partialSlabs]
  dsimp only
  unfold allocFrom
  rw [show (⟨pageSize, #v[1, 0, 0, 0]⟩ : Slab).used.toList = [1, 0, 0, 0] from rfl, stop]
  simp [marked, notFull, oneTaken, create]

/-- The first two objects of a slab show what is needed. -/
theorem AllocAligned.divides (aligned : AllocAligned abi size (2 ^ exponent)) :
    2 ^ exponent ∣ pageSize ∧ 2 ^ exponent ∣ size := by
  have nothing : ∀ slab ∈ (create abi size (2 ^ exponent) false).slabs, False := by
    simp [create, Cache.slabs]
  have allowed : Usage.Allowed abi ⟨create abi size (2 ^ exponent) false, []⟩
      (.alloc ⟨true, some pageSize⟩) := by
    rintro _ ⟨⟩
    exact ⟨pageSize_add_slabSizeFor_le abi size _, fun slab member => (nothing slab member).elim⟩
  have paged : Usage.Paged ⟨create abi size (2 ^ exponent) false, []⟩
      (.alloc ⟨true, some pageSize⟩) := by
    rintro _ ⟨⟩
    exact dvd_rfl
  have first := aligned false ⟨create abi size (2 ^ exponent) false, []⟩ ⟨true, some pageSize⟩ _ _ _
    Relation.ReflTransGen.refl allowed paged (alloc_first abi size _)
  have whole : pageSize % abi.modulus = pageSize := by cases abi <;> rfl
  rw [whole] at first
  have run : Runs abi Paged size (2 ^ exponent) false
      ⟨oneTaken abi size (2 ^ exponent), [pageSize]⟩ := by
    refine Relation.ReflTransGen.single ⟨.alloc ⟨true, some pageSize⟩, paged, allowed, ?_⟩
    simp only [Usage.step, alloc_first, Option.map_some, whole]
  obtain ⟨after, called⟩ := alloc_second abi size (2 ^ exponent)
  have second := aligned false _ ⟨true, none⟩ _ _ _ run (fun _ same => by cases same)
    (fun _ same => by cases same) called
  rw [dvd_mod_iff (first.trans (pageSize_dvd_modulus abi)), Nat.dvd_add_right first] at second
  exact ⟨first, second⟩

/-- The objects of a cache are aligned exactly when the alignment divides the object size and is at
most a page. -/
theorem alloc_aligned_iff (abi : Abi) (size exponent : Nat) :
    AllocAligned abi size (2 ^ exponent) ↔ 2 ^ exponent ∣ size ∧ 2 ^ exponent ≤ pageSize := by
  constructor
  · intro aligned
    obtain ⟨page, divides⟩ := aligned.divides
    exact ⟨divides, le_of_dvd (by decide) page⟩
  · rintro ⟨divides, small⟩ createObj usage supply obj after made run - paged called
    have page : 2 ^ exponent ∣ pageSize := by
      have narrow : exponent ≤ 12 := (Nat.pow_le_pow_iff_right (by decide)).mp small
      exact pow_dvd_pow 2 narrow
    obtain ⟨sizeSame, bases⟩ := run_paged run
    obtain ⟨base, index, origin, place⟩ := (alloc_place called).2.2 obj rfl
    have baseAligned : pageSize ∣ base := by
      rcases origin with old | granted
      · exact bases base old
      · exact paged base granted
    rw [place, sizeSame, dvd_mod_iff (page.trans (pageSize_dvd_modulus abi))]
    exact dvd_add (page.trans baseAligned) (divides.mul_left index)

/-- Objects of 100 bytes with an alignment of eight, and the level-one tables of ARM with their
alignment of sixteen kilobytes. -/
theorem alloc_not_aligned :
    ¬ AllocAligned .ilp32 100 (2 ^ 3) ∧ ¬ AllocAligned .ilp32 0x4000 (2 ^ 14) :=
  ⟨fun aligned => absurd aligned.divides.2 (by decide),
    fun aligned => absurd aligned.divides.1 (by decide)⟩

end Usage

/-! ### The constructor loop -/

/-- An object size that divides the rest of the slab is stepped through to the end. -/
theorem createObjs_of_whole {steps index fuel : Nat} (fits : cache.slabSize < abi.modulus)
    (whole : (index + steps) * cache.size = cache.slabSize) (positive : 0 < cache.size)
    (enough : steps < fuel) :
    createObjs abi cache vaddr fuel (index * cache.size) = some ((List.range steps).map
      fun step => (vaddr + (index + step) * cache.size) % abi.modulus) := by
  induction steps generalizing index fuel with
  | zero =>
    obtain ⟨fuel, rfl⟩ := exists_eq_add_one.mpr enough
    rw [add_zero] at whole
    rw [createObjs, if_neg (not_lt.mpr whole.ge)]
    rfl
  | succ steps inductionHypothesis =>
    obtain ⟨fuel, rfl⟩ := exists_eq_add_one.mpr (zero_lt_of_lt enough)
    have next : index * cache.size + cache.size = (index + 1) * cache.size := by
      rw [add_mul, one_mul]
    have last : (index + 1) * cache.size ≤ cache.slabSize := by
      rw [← whole]
      exact mul_le_mul_right _ (by omega)
    rw [createObjs, if_pos (by omega), next, mod_eq_of_lt (last.trans_lt fits),
      inductionHypothesis (by rw [← whole]; congr 1; omega) (by omega), range_succ_eq_map,
      map_cons, map_map, Option.map_some, Nat.add_zero]
    refine congrArg (fun rest => some (_ :: rest)) (map_congr_left fun step _ => ?_)
    rw [Function.comp_apply, succ_eq_add_one, Nat.add_assoc index 1, Nat.add_comm 1]

/-- An object size that does not divide the slab size is stepped past it: the loop constructs an
object that begins before the end of the slab and ends behind it. -/
theorem createObjs_overrun {made : List Nat} {steps index fuel : Nat}
    (fits : cache.slabSize < abi.modulus) (last : (index + steps) * cache.size < cache.slabSize)
    (called : createObjs abi cache vaddr fuel (index * cache.size) = some made) :
    (vaddr + (index + steps) * cache.size) % abi.modulus ∈ made := by
  induction steps generalizing index fuel made with
  | zero =>
    cases fuel with
    | zero => cases called
    | succ fuel =>
      rw [add_zero] at last ⊢
      rw [createObjs, if_pos last] at called
      obtain ⟨rest, -, rfl⟩ := Option.map_eq_some_iff.mp called
      exact mem_cons_self
  | succ steps inductionHypothesis =>
    cases fuel with
    | zero => cases called
    | succ fuel =>
      have next : index * cache.size + cache.size = (index + 1) * cache.size := by
        rw [add_mul, one_mul]
      have between : (index + 1) * cache.size ≤ (index + (steps + 1)) * cache.size :=
        mul_le_mul_right _ (by omega)
      have small : (index + 1) * cache.size < abi.modulus := by omega
      rw [createObjs, if_pos (by omega), next, mod_eq_of_lt small] at called
      obtain ⟨rest, recursive, rfl⟩ := Option.map_eq_some_iff.mp called
      have same : index + (steps + 1) = index + 1 + steps := by omega
      rw [same] at last ⊢
      exact mem_cons_of_mem _ (inductionHypothesis last recursive)

theorem createObjs_endless (zero : cache.size = 0) (positive : 0 < cache.slabSize) (fuel : Nat) :
    createObjs abi cache vaddr fuel 0 = none := by
  induction fuel with
  | zero => rfl
  | succ fuel inductionHypothesis =>
    rw [createObjs, if_pos positive, zero, zero_add, zero_mod, inductionHypothesis]
    rfl

/-- Extending the cache by a slab at `vaddr` ends, has every slot that `__alloc` can hand out
constructed exactly once, and constructs no object that is not inside the slab. -/
def Constructs (abi : Abi) (cache : Cache) (vaddr : Nat) : Prop :=
  ∃ extended made, extend abi cache ⟨true, some vaddr⟩ = some (some (extended, made)) ∧
    (∀ index < slabEntries, made.count ((vaddr + index * cache.size) % abi.modulus) = 1) ∧
    ∀ built ∈ made, vaddr ≤ built ∧ built + cache.size ≤ vaddr + cache.slabSize

/-- The objects constructed in a slab that a whole number of objects fills. -/
theorem createObjs_of_dvd {total : Nat} (fits : cache.slabSize < abi.modulus)
    (inSpace : vaddr + cache.slabSize ≤ abi.modulus) (positive : 0 < cache.size)
    (whole : cache.slabSize = cache.size * total) :
    createObjs abi cache vaddr abi.modulus 0 =
      some ((List.range total).map fun step => vaddr + step * cache.size) := by
  have few : total ≤ cache.slabSize := by
    rw [whole]
    exact Nat.le_mul_of_pos_left total positive
  have loop := @createObjs_of_whole _ _ vaddr _ _ _ fits
    (by rw [zero_add, whole, mul_comm]) positive (few.trans_lt fits)
  rw [Nat.zero_mul] at loop
  rw [loop]
  refine congrArg some (map_congr_left fun step member => ?_)
  have bound : (step + 1) * cache.size ≤ cache.slabSize := by
    rw [whole, Nat.mul_comm cache.size]
    exact Nat.mul_le_mul_right _ (mem_range.mp member)
  rw [Nat.add_mul, Nat.one_mul] at bound
  rw [Nat.zero_add, mod_eq_of_lt (by omega)]

theorem extend_eq (constructor : cache.createObj = true) :
    extend abi cache ⟨true, some vaddr⟩ = (createObjs abi cache vaddr abi.modulus 0).map fun made =>
        some ({ cache with
          emptySlabs := ⟨vaddr, Vector.replicate slabMaskChars 0⟩ :: cache.emptySlabs }, made) := by
  unfold extend
  simp only [Bool.not_true, Bool.false_eq_true, if_false, constructor, if_true]

theorem Constructs.sizes (constructor : cache.createObj = true)
    (fits : cache.slabSize < abi.modulus)
    (inSpace : vaddr + cache.slabSize ≤ abi.modulus) (constructs : Constructs abi cache vaddr) :
    0 < cache.size ∧ cache.size ∣ cache.slabSize ∧ slabEntries * cache.size ≤ cache.slabSize := by
  obtain ⟨extended, made, called, slots, inside⟩ := constructs
  rw [extend_eq constructor] at called
  obtain ⟨objs, loop, equal⟩ := Option.map_eq_some_iff.mp called
  obtain rfl : objs = made := (Prod.mk.inj (Option.some.inj equal)).2
  have constructed : ∀ index < slabEntries, (vaddr + index * cache.size) % abi.modulus ∈ objs :=
    fun index low => one_le_count_iff.mp (slots index low).ge
  have nonempty : 0 < cache.slabSize := by
    by_contra empty
    obtain ⟨fuel, steps⟩ := Nat.exists_eq_add_one.mpr (Nat.two_pow_pos abi.bits)
    rw [Abi.modulus, steps, createObjs, if_neg empty] at loop
    obtain rfl := Option.some.inj loop
    exact not_mem_nil (constructed 0 (by decide))
  have positive : 0 < cache.size := by
    by_contra zero
    rw [createObjs_endless (Nat.eq_zero_of_not_pos zero) nonempty] at loop
    cases loop
  have divides : cache.size ∣ cache.slabSize := by
    by_contra remainder
    have last : cache.slabSize / cache.size * cache.size < cache.slabSize :=
      lt_of_le_of_ne (div_mul_le_self _ _) fun whole =>
        remainder ⟨_, by rw [mul_comm, whole]⟩
    have past := lt_mul_div_succ cache.slabSize positive
    rw [mul_add, mul_one, mul_comm] at past
    rw [← zero_mul cache.size] at loop
    rw [← zero_add (cache.slabSize / cache.size)] at last
    have overrun := inside _ (createObjs_overrun fits last loop)
    rw [zero_add] at last overrun
    rw [mod_eq_of_lt (by omega)] at overrun
    omega
  obtain ⟨total, whole⟩ := divides
  refine ⟨positive, ⟨total, whole⟩, ?_⟩
  rw [createObjs_of_dvd fits inSpace positive whole] at loop
  obtain rfl := Option.some.inj loop
  rw [whole, mul_comm cache.size]
  refine mul_le_mul_right _ (not_lt.mp fun few => ?_)
  obtain ⟨step, below, place⟩ := mem_map.mp (constructed total few)
  have before : step * cache.size < total * cache.size :=
    mul_lt_mul_of_pos_right (mem_range.mp below) positive
  rw [mul_comm cache.size] at whole
  rw [← whole] at place before
  rcases inSpace.lt_or_eq with lower | top
  · rw [mod_eq_of_lt lower] at place
    omega
  · rw [top, mod_self] at place
    omega

/-- A cache that `cache_create` has set up for this object size and alignment, whatever its
slabs. -/
structure Made (abi : Abi) (size align : Nat) (cache : Cache) : Prop where
  sizeSame : cache.size = size
  alignSame : cache.align = align
  slabSizeSame : cache.slabSize = slabSizeFor abi size align

theorem Made.slabSize_lt (made : Made abi size align cache) : cache.slabSize < abi.modulus := by
  rw [made.slabSizeSame]
  exact slabSizeFor_lt abi size align

/-- The constructor loop does its work exactly when the objects are not empty, a whole number of
them fills the slab, and the slab has room for the 32 that its bitmap counts. -/
theorem extend_constructs_iff (abi : Abi) (size exponent vaddr : Nat) (cache : Cache)
    (made : Made abi size (2 ^ exponent) cache) (constructor : cache.createObj = true)
    (inSpace : vaddr + cache.slabSize ≤ abi.modulus) :
    Constructs abi cache vaddr ↔
      0 < cache.size ∧ cache.size ∣ cache.slabSize ∧ slabEntries * cache.size ≤ cache.slabSize := by
  have fits := made.slabSize_lt
  refine ⟨Constructs.sizes constructor fits inSpace, ?_⟩
  rintro ⟨positive, ⟨total, whole⟩, room⟩
  have loop := createObjs_of_dvd fits inSpace positive whole
  refine ⟨_, _, (extend_eq constructor).trans (congrArg _ loop), fun index low => ?_,
    fun built member => ?_⟩
  · have many : slabEntries ≤ total := by
      rw [whole, mul_comm cache.size] at room
      exact le_of_mul_le_mul_right room positive
    have bound : (index + 1) * cache.size ≤ slabEntries * cache.size := mul_le_mul_right _ low
    rw [add_mul, one_mul] at bound
    rw [mod_eq_of_lt (by omega)]
    refine count_eq_one_of_mem (nodup_range.map fun first second same => ?_)
      (mem_map.mpr ⟨index, mem_range.mpr (low.trans_le many), rfl⟩)
    exact eq_of_mul_eq_mul_right positive (add_left_cancel same)
  · obtain ⟨step, below, rfl⟩ := mem_map.mp member
    have bound : (step + 1) * cache.size ≤ cache.slabSize := by
      rw [whole, mul_comm cache.size]
      exact mul_le_mul_right _ (mem_range.mp below)
    rw [add_mul, one_mul] at bound
    omega

theorem extend_constructs_tables : Constructs .ilp32 (create .ilp32 1024 1024 true) 0x80001000 :=
  (extend_constructs_iff .ilp32 1024 10 0x80001000 (create .ilp32 1024 1024 true) ⟨rfl, rfl, rfl⟩
    rfl (by decide)).mpr (by decide)

/-- Objects of 100 bytes: the forty-first begins in the slab of 4096 bytes and ends behind it.
Objects of size zero: the loop does not end. -/
theorem extend_overruns :
    ¬ Constructs .ilp32 (create .ilp32 100 4 true) 0x80001000 ∧
      extend .ilp32 (create .ilp32 0 4 true) ⟨true, some 0x80001000⟩ = none := by
  refine ⟨fun constructs => ?_, ?_⟩
  · have sizes := constructs.sizes rfl (by decide) (by decide)
    exact absurd sizes.2.1 (by decide)
  · rw [extend_eq rfl, createObjs_endless rfl (by decide)]
    rfl

/-! ### The index into the bitmap -/

/-- The slab that `__free` finds for an address. -/
def located (abi : Abi) (cache : Cache) (obj : Nat) : Option Slab :=
  match findSlab abi cache.slabSize obj cache.fullSlabs with
  | some found => some found.2.1
  | none => (findSlab abi cache.slabSize obj cache.partialSlabs).map fun found => found.2.1

/-- `i /= 8`, the index of the byte of `used` that `__free` stores to. -/
def usedIndex (cache : Cache) (slab : Slab) (obj : Nat) : Int := (cache.objIndex slab obj).tdiv 8

/-- `cache_free` returns `EOF` and changes nothing, or the byte it stores to is one of the
bitmap. -/
def FreeInBitmap (abi : Abi) (cache : Cache) (obj : Nat) : Prop :=
  cache.free abi obj = (-1, cache) ∨
    ∃ slab, located abi cache obj = some slab ∧ 0 ≤ cache.usedIndex slab obj ∧
      cache.usedIndex slab obj < slabMaskChars

theorem located_inside {slab : Slab} (found : located abi cache obj = some slab) :
    slab.vaddr ≤ obj ∧ obj < (slab.vaddr + cache.slabSize) % abi.modulus := by
  unfold located at found
  split at found
  · rename_i result full
    cases found
    exact (Usage.findSlab_some full).2
  · obtain ⟨result, part, rfl⟩ := Option.map_eq_some_iff.mp found
    exact (Usage.findSlab_some part).2

theorem free_of_located_none (missing : located abi cache obj = none) :
    cache.free abi obj = (-1, cache) := by
  unfold located at missing
  split at missing
  · cases missing
  · rename_i full
    exact free_of_none full (Option.map_eq_none_iff.mp missing)

/-- In a slab of at most 32 objects every address has a byte of the bitmap. -/
theorem freeInBitmap_of_le (positive : 1 ≤ cache.size)
    (few : cache.slabSize ≤ slabEntries * cache.size) (obj : Nat) : FreeInBitmap abi cache obj := by
  rcases found : located abi cache obj with _ | slab
  · exact Or.inl (free_of_located_none found)
  · obtain ⟨low, high⟩ := located_inside found
    have inside : obj < slab.vaddr + cache.slabSize := high.trans_le (mod_le _ _)
    have small : (obj - slab.vaddr) / cache.size < slabEntries := by
      rw [div_lt_iff_lt_mul positive]
      omega
    have index : cache.objIndex slab obj = ((obj - slab.vaddr) / cache.size : Nat) :=
      Usage.bmod_low small
    have byte : (obj - slab.vaddr) / cache.size / 8 < slabMaskChars :=
      Nat.div_lt_of_lt_mul (small.trans_eq (Nat.mul_comm slabMaskChars 8))
    have quotient : cache.usedIndex slab obj = ((obj - slab.vaddr) / cache.size / 8 : Nat) := by
      rw [usedIndex, index]
      rfl
    refine Or.inr ⟨slab, found, ?_⟩
    rw [quotient]
    exact ⟨Int.natCast_nonneg _, Int.ofNat_lt.mpr byte⟩

/-- A cache with one slab, all of whose objects are in use. -/
def wholeSlab (abi : Abi) (size align vaddr : Nat) : Cache :=
  { create abi size align false with fullSlabs := [⟨vaddr, Vector.replicate slabMaskChars 255⟩] }

/-- The address behind the thirty-second object, in a slab that reaches further. -/
theorem not_freeInBitmap (positive : 1 ≤ size)
    (more : slabEntries * size < slabSizeFor abi size align)
    (inSpace : vaddr + slabSizeFor abi size align < abi.modulus) :
    ¬ FreeInBitmap abi (wholeSlab abi size align vaddr) (vaddr + slabEntries * size) := by
  have found : findSlab abi (wholeSlab abi size align vaddr).slabSize (vaddr + slabEntries * size)
      (wholeSlab abi size align vaddr).fullSlabs =
        some ([], ⟨vaddr, Vector.replicate slabMaskChars 255⟩, []) := by
    refine if_pos ⟨le_add_right _ _, ?_⟩
    show vaddr + slabEntries * size < (vaddr + slabSizeFor abi size align) % abi.modulus
    rw [mod_eq_of_lt inSpace]
    omega
  rintro (failed | ⟨slab, home, low, high⟩)
  · rw [free_of_full found] at failed
    exact absurd (Prod.mk.inj failed).1 (by decide)
  · have same : slab = ⟨vaddr, Vector.replicate slabMaskChars 255⟩ := by
      rw [located, found] at home
      exact (Option.some.inj home).symm
    have index :
        (wholeSlab abi size align vaddr).objIndex slab (vaddr + slabEntries * size) = 32 := by
      have quotient : (vaddr + slabEntries * size - vaddr) / size = 32 := by
        rw [Nat.add_sub_cancel_left]
        exact Nat.mul_div_cancel _ positive
      rw [same]
      show (((vaddr + slabEntries * size - vaddr) / size : Nat) : Int).bmod (2 ^ 32) = 32
      rw [quotient]
      decide
    rw [usedIndex, index] at high
    exact absurd high (by decide)

/-- Whatever the state of the cache and the address, `cache_free` stays inside the bitmap exactly
when a slab is no larger than 32 objects. -/
theorem free_inBitmap_iff (abi : Abi) (size exponent : Nat) (positive : 1 ≤ size) :
    (∀ cache obj, Made abi size (2 ^ exponent) cache → obj < abi.modulus →
        FreeInBitmap abi cache obj) ↔
      slabSizeFor abi size (2 ^ exponent) ≤ slabEntries * size := by
  constructor
  · intro inBitmap
    by_contra more
    have below := slabSizeFor_lt abi size (2 ^ exponent)
    have beyond : ¬ FreeInBitmap abi (wholeSlab abi size (2 ^ exponent) 0)
        (0 + slabEntries * size) :=
      not_freeInBitmap positive (not_le.mp more) (by omega)
    exact beyond (inBitmap _ _ ⟨rfl, rfl, rfl⟩ (by omega))
  · intro few cache obj made _
    have positive' : 1 ≤ cache.size := by rwa [made.sizeSame]
    refine freeInBitmap_of_le positive' ?_ obj
    rwa [made.slabSizeSame, made.sizeSame]

theorem free_inBitmap_tables :
    FreeInBitmap .ilp32 (wholeSlab .ilp32 1024 (2 ^ 10) 0x80001000) (0x80001000 + 31 * 1024) :=
  (free_inBitmap_iff .ilp32 1024 10 (by decide)).mpr (by decide) _ _ ⟨rfl, rfl, rfl⟩ (by decide)

/-- Objects of 64 bytes: a slab has 4096 bytes, and for the address behind its thirty-second object
`__free` stores to the fifth byte of a bitmap of four. -/
theorem free_past_bitmap :
    Made .ilp32 64 (2 ^ 6) (wholeSlab .ilp32 64 (2 ^ 6) 0x80001000) ∧
      ¬ FreeInBitmap .ilp32 (wholeSlab .ilp32 64 (2 ^ 6) 0x80001000) (0x80001000 + 32 * 64) :=
  ⟨⟨rfl, rfl, rfl⟩, not_freeInBitmap (by decide) (by decide) (by decide)⟩

end Cache

end AIMv6
