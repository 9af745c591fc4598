/-
This file follows a cache through every run of `cache_alloc`, `cache_free` and
`cache_trim`. As long as no allocation is served from a slab whose first bitmap
byte is full, the slabs of the cache track the objects its users hold, so live
objects never share memory, `cache_trim` never gives back a slab with a live
object and `cache_destroy` succeeds only when nothing is live. Without that
condition the ninth and the tenth allocation from one slab return the same
address.
-/

import AIMv6.SlabLiveness
import Mathlib.Logic.Relation

namespace AIMv6

open Nat Option

open List hiding Disjoint Vector

/-! ### Runs of a cache -/

namespace Cache

/-- A cache and the objects its users hold. -/
structure Usage where
  cache : Cache
  live : List Nat
  deriving DecidableEq, Repr

/-- The calls a user of a cache makes. -/
inductive Call where
  | alloc (supply : Supply)
  | free (obj : Nat)
  | trim
  deriving DecidableEq, Repr

namespace Usage

/-- The effect of a call. An object is live from the `cache_alloc` that returned it until the
`cache_free` that returned 0 for it. -/
def step (abi : Abi) (usage : Usage) : Call → Option Usage
  | .alloc supply =>
    (usage.cache.alloc abi supply).map fun result =>
      match result.1 with
      | none => ⟨result.2.1, usage.live⟩
      | some obj => ⟨result.2.1, obj :: usage.live⟩
  | .free obj =>
    let result := usage.cache.free abi obj
    some (if result.1 = 0 then ⟨result.2, usage.live.erase obj⟩ else ⟨result.2, usage.live⟩)
  | .trim => some ⟨usage.cache.trim.1, usage.live⟩

/-- What the surroundings promise: `alloc_pages` grants regions inside the address space and
disjoint from the cache's slabs, and only live objects are freed. -/
def Allowed (abi : Abi) (usage : Usage) : Call → Prop
  | .alloc supply => ∀ vaddr, supply.grant = some vaddr →
      vaddr + usage.cache.slabSize ≤ abi.modulus ∧
      ∀ slab ∈ usage.cache.slabs, Disjoint (⟨vaddr, usage.cache.slabSize⟩ : Region).bytes
        (slab.region usage.cache.slabSize).bytes
  | .free obj => obj ∈ usage.live
  | .trim => True

/-- `usage` turns into `next` by a call. -/
def Step (abi : Abi) (usage : Usage) (call : Call) (next : Usage) : Prop :=
  usage.Allowed abi call ∧ usage.step abi call = some next

/-- No object has to be found in a slab whose first eight objects are in use: the slab at the
front of the partial list, if there is one, has a clear bit in its first bitmap byte. -/
def HasRoom (cache : Cache) : Prop := ∀ slab ∈ cache.partialSlabs.head?, slab.byte ≠ 255

/-- The condition on a call under which the bitmap stays exact. -/
def Meets (usage : Usage) : Call → Prop
  | .alloc _ => HasRoom usage.cache
  | .free _ => True
  | .trim => True

/-- Every run from a fresh cache of the given size and alignment all of whose calls meet a
condition. -/
def Runs (abi : Abi) (condition : Usage → Call → Prop) (size align : Nat) (createObj : Bool) :
    Usage → Prop :=
  Relation.ReflTransGen (fun usage next => ∃ call, condition usage call ∧ usage.Step abi call next)
    ⟨Cache.create abi size align createObj, []⟩

/-- The invariant of such runs. -/
structure Invariant (abi : Abi) (size slabSize : Nat) (usage : Usage) : Prop where
  sizeSame : usage.cache.size = size
  slabSizeSame : usage.cache.slabSize = slabSize
  noneFull : usage.cache.fullSlabs = []
  emptyClear : ∀ slab ∈ usage.cache.emptySlabs, slab.byte = 0
  tracks : Tracks abi size slabSize usage.cache.slabs usage.live

variable {abi : Abi} {usage : Usage} {slab : Slab} {obj index size slabSize : Nat}

/-! ### Allocation -/

theorem slabs_perm (cache : Cache) (slab : Slab) :
    ({ cache with partialSlabs := slab :: cache.partialSlabs } : Cache).slabs.Perm
      (slab :: cache.slabs) := by
  show (cache.emptySlabs ++ slab :: cache.partialSlabs ++ cache.fullSlabs).Perm
    (slab :: (cache.emptySlabs ++ cache.partialSlabs ++ cache.fullSlabs))
  rw [append_assoc, append_assoc, cons_append]
  exact perm_middle

/-- In a slab with room in its first byte the scan stops in that byte, at a clear bit. -/
theorem scan_plain (abi : Abi) (plain : slab.Plain) (hasRoom : slab.byte ≠ 255) :
    ∃ index < 8, scan abi slab.used.toList 0 = some (0, index) ∧
      slab.byte.testBit index = false := by
  have small := plain.1
  obtain ⟨positive, low, clear⟩ := ffz_byte abi slab.byte (by omega)
  refine ⟨ffz abi slab.byte - 1, by omega, ?_, clear⟩
  rw [plain.2]
  show scan abi [slab.byte, 0, 0, 0] 0 = _
  rw [scan, if_neg (by omega)]

theorem not_isFull (plain : slab.Plain) : slab.isFull = false := by
  have short : ∀ byte : Nat, (#v[byte, 0, 0, 0] : Vector Nat 4).all (· == 255) = false := by simp
  rw [Slab.isFull, plain.2]
  exact short slab.byte

variable {cache : Cache} {next : Usage} {supply : Supply} {align : Nat} {createObj : Bool}

/-- What one `cache_alloc` can do: take from the partial list, take from the empty list, fail to
extend, or extend and take from the new slab. -/
theorem alloc_cases {result : Option Nat × Cache × List Nat}
    (call : cache.alloc abi supply = some result) :
    (∃ slab rest obj after, cache.partialSlabs = slab :: rest ∧
      allocFrom abi { cache with partialSlabs := rest } slab = some (obj, after) ∧
      result = (some obj, after, [])) ∨
    (∃ slab rest obj after, cache.emptySlabs = slab :: rest ∧
      allocFrom abi { cache with emptySlabs := rest } slab = some (obj, after) ∧
      result = (some obj, after, [])) ∨
    result = (none, cache, []) ∨
    (∃ vaddr obj after made, cache.emptySlabs = [] ∧ supply.grant = some vaddr ∧
      allocFrom abi cache ⟨vaddr, Vector.replicate slabMaskChars 0⟩ = some (obj, after) ∧
      result = (some obj, after, made)) := by
  unfold Cache.alloc at call
  split at call
  · rename_i slab rest front
    obtain ⟨⟨obj, after⟩, taken, rfl⟩ := map_eq_some_iff.mp call
    exact Or.inl ⟨slab, rest, obj, after, front, taken, rfl⟩
  split at call
  · rename_i slab rest front
    obtain ⟨⟨obj, after⟩, taken, rfl⟩ := map_eq_some_iff.mp call
    exact Or.inr (Or.inl ⟨slab, rest, obj, after, front, taken, rfl⟩)
  rename_i noneEmpty
  split at call
  · cases call
  · cases call
    exact Or.inr (Or.inr (Or.inl rfl))
  rename_i extended made extension
  have grown : ∃ vaddr, supply.grant = some vaddr ∧ extended =
      { cache with emptySlabs := ⟨vaddr, Vector.replicate slabMaskChars 0⟩ :: [] } := by
    rw [← noneEmpty]
    unfold extend at extension
    split at extension
    · cases extension
    split at extension
    · cases extension
    rename_i vaddr granted
    refine ⟨vaddr, granted, ?_⟩
    split at extension
    · obtain ⟨objs, -, equal⟩ := map_eq_some_iff.mp extension
      cases equal
      rfl
    · cases extension
      rfl
  obtain ⟨vaddr, granted, rfl⟩ := grown
  obtain ⟨⟨obj, after⟩, taken, rfl⟩ := map_eq_some_iff.mp call
  rw [← noneEmpty] at taken
  exact Or.inr (Or.inr (Or.inr ⟨vaddr, obj, after, made, noneEmpty, granted, taken, rfl⟩))

/-- Allocating from a slab with room in its first byte. -/
theorem allocFrom_invariant (positive : 1 ≤ size) (room : 8 * size ≤ slabSize) {rest after : Cache}
    {live : List Nat} (call : allocFrom abi rest slab = some (obj, after))
    (sizeSame : rest.size = size) (slabSizeSame : rest.slabSize = slabSize)
    (noneFull : rest.fullSlabs = []) (emptyClear : ∀ slab ∈ rest.emptySlabs, slab.byte = 0)
    (tracks : Tracks abi size slabSize (slab :: rest.slabs) live) (hasRoom : slab.byte ≠ 255) :
    Invariant abi size slabSize ⟨after, obj :: live⟩ := by
  have plain := tracks.plain slab mem_cons_self
  have inSpace := tracks.inSpace slab mem_cons_self
  obtain ⟨index, low, stop, clear⟩ := scan_plain abi plain hasRoom
  have inside := Tracks.slot_inside positive room slab low
  have fits : slab.vaddr + index * size < abi.modulus :=
    lt_of_lt_of_le (Region.mem_bytes.mp inside).2 inSpace
  simp only [allocFrom, stop, not_isFull (Slab.setBit_plain plain index), Bool.false_eq_true,
    if_false, Option.some.injEq, Prod.mk.injEq] at call
  obtain ⟨rfl, rfl⟩ := call
  refine ⟨sizeSame, slabSizeSame, noneFull, emptyClear, ?_⟩
  have address : ((slab.setBit 0 index).vaddr + (0 * 8 + index) * rest.size) % abi.modulus =
      slab.vaddr + index * size := by
    rw [zero_mul, zero_add, sizeSame]
    exact mod_eq_of_lt fits
  rw [address]
  exact (Tracks.take positive room low tracks clear).perm (slabs_perm rest _).symm

theorem alloc_invariant (positive : 1 ≤ size) (room : 8 * size ≤ slabSize)
    (invariant : Invariant abi size slabSize usage) (allowed : usage.Allowed abi (.alloc supply))
    (meets : HasRoom usage.cache) (call : usage.step abi (.alloc supply) = some next) :
    Invariant abi size slabSize next := by
  have noneFull := invariant.noneFull
  have tracks := invariant.tracks
  obtain ⟨result, outcome, rfl⟩ := map_eq_some_iff.mp call
  rcases alloc_cases outcome with ⟨slab, rest, obj, after, front, taken, rfl⟩ |
    ⟨slab, rest, obj, after, front, taken, rfl⟩ | rfl |
    ⟨vaddr, obj, after, made, noneEmpty, granted, taken, rfl⟩
  · refine allocFrom_invariant positive room taken invariant.sizeSame invariant.slabSizeSame
      noneFull invariant.emptyClear (tracks.perm ?_) (meets slab (by rw [front]; rfl))
    have same := slabs_perm { usage.cache with partialSlabs := rest } slab
    rwa [← front] at same
  · have clear := invariant.emptyClear slab (by rw [front]; exact mem_cons_self)
    refine allocFrom_invariant positive room taken invariant.sizeSame invariant.slabSizeSame
      noneFull (fun other member => ?_) ?_ (by omega)
    · exact invariant.emptyClear other (by rw [front]; exact mem_cons_of_mem _ member)
    · have same : usage.cache.slabs =
          slab :: ({ usage.cache with emptySlabs := rest } : Cache).slabs := by
        rw [Cache.slabs, front]
        rfl
      rwa [← same]
  · exact invariant
  · obtain ⟨inSpace, fresh⟩ := allowed vaddr granted
    rw [invariant.slabSizeSame] at inSpace fresh
    have clear : (⟨vaddr, Vector.replicate slabMaskChars 0⟩ : Slab).byte = 0 := rfl
    refine allocFrom_invariant positive room taken invariant.sizeSame invariant.slabSizeSame
      noneFull invariant.emptyClear ?_ (by omega)
    exact tracks.add inSpace fresh ⟨by omega, rfl⟩ clear

/-! ### Freeing -/

theorem findSlab_some {slabs before after : List Slab}
    (found : findSlab abi slabSize obj slabs = some (before, slab, after)) :
    slabs = before ++ slab :: after ∧ slab.vaddr ≤ obj ∧
      obj < (slab.vaddr + slabSize) % abi.modulus := by
  induction slabs generalizing before with
  | nil => cases found
  | cons head rest inductionHypothesis =>
    rw [findSlab] at found
    split at found
    · rename_i holds
      cases found
      exact ⟨rfl, holds⟩
    · obtain ⟨⟨inner, tail⟩, recursive, equal⟩ := map_eq_some_iff.mp found
      cases equal
      obtain ⟨rfl, holds⟩ := inductionHypothesis recursive
      exact ⟨rfl, holds⟩

theorem bmod_low (low : index < slabEntries) : (index : Int).bmod (2 ^ 32) = index := by
  have small : index < 32 := low
  rw [Int.bmod_def]
  omega

theorem objIndex_slot (positive : 1 ≤ cache.size) (slab : Slab) (low : index < slabEntries) :
    cache.objIndex slab (slab.vaddr + index * cache.size) = index := by
  have quotient : (slab.vaddr + index * cache.size - slab.vaddr) / cache.size = index := by
    rw [Nat.add_sub_cancel_left, Nat.mul_div_cancel _ positive]
  unfold objIndex
  rw [quotient]
  exact bmod_low low

theorem release_slot (positive : 1 ≤ cache.size) (slab : Slab) (low : index < slabEntries) :
    cache.release slab (slab.vaddr + index * cache.size) =
      slab.clearBit (index / 8) (index % 8) := by
  rw [release, objIndex_slot positive slab low]
  rfl

theorem slabs_middle (cache : Cache) (before after : List Slab) (slab : Slab) :
    ({ cache with partialSlabs := before ++ slab :: after } : Cache).slabs.Perm
      (slab :: ({ cache with partialSlabs := before ++ after } : Cache).slabs) := by
  show (cache.emptySlabs ++ (before ++ slab :: after) ++ cache.fullSlabs).Perm
    (slab :: (cache.emptySlabs ++ (before ++ after) ++ cache.fullSlabs))
  have moved : (before ++ slab :: after).Perm (slab :: (before ++ after)) := perm_middle
  refine ((moved.append_left cache.emptySlabs).append_right cache.fullSlabs).trans ?_
  rw [append_assoc, append_assoc, cons_append]
  exact perm_middle

/-- What one `cache_free` can do while no slab is full: nothing, with `EOF`, or release the
object in the slab of the partial list that holds it. -/
theorem free_cases {cache : Cache} (noneFull : cache.fullSlabs = []) :
    cache.free abi obj = (-1, cache) ∨
    ∃ before slab after, cache.partialSlabs = before ++ slab :: after ∧ slab.vaddr ≤ obj ∧
      obj < (slab.vaddr + cache.slabSize) % abi.modulus ∧
      cache.free abi obj = (0, if (cache.release slab obj).isEmpty then
          { cache with
            partialSlabs := before ++ after
            emptySlabs := cache.release slab obj :: cache.emptySlabs }
        else { cache with partialSlabs := before ++ cache.release slab obj :: after }) := by
  unfold Cache.free
  rw [noneFull]
  simp only [findSlab]
  split
  · rename_i before slab after found
    obtain ⟨split, low, high⟩ := findSlab_some found
    refine Or.inr ⟨before, slab, after, split, low, high, ?_⟩
    split <;> rfl
  · exact Or.inl rfl

theorem byte_of_isEmpty (plain : slab.Plain) (empty : slab.isEmpty = true) : slab.byte = 0 := by
  rw [Slab.isEmpty, plain.2] at empty
  have first : ∀ byte : Nat, (#v[byte, 0, 0, 0] : Vector Nat 4).all (· == 0) = true → byte = 0 := by
    simp
  exact first slab.byte empty

/-- The slab a live object is found in is the slab the bitmap records it in. -/
theorem slab_of_live (positive : 1 ≤ size) (room : 8 * size ≤ slabSize)
    (invariant : Invariant abi size slabSize usage) (member : obj ∈ usage.live)
    (onList : slab ∈ usage.cache.slabs) (low : slab.vaddr ≤ obj)
    (high : obj < slab.vaddr + slabSize) : ∃ index < 8, obj = slab.vaddr + index * size := by
  obtain ⟨home, homeMember, index, inByte, -, rfl⟩ := (invariant.tracks.mem_live obj).mp member
  have same : home = slab := by
    by_contra different
    have apart := invariant.tracks.apart_of_ne homeMember onList different
    exact Set.disjoint_left.mp apart (Tracks.slot_inside positive room home inByte)
      (Region.mem_bytes.mpr ⟨low, high⟩)
  exact ⟨index, inByte, by rw [same]⟩

theorem free_invariant (positive : 1 ≤ size) (room : 8 * size ≤ slabSize)
    (invariant : Invariant abi size slabSize usage) (member : obj ∈ usage.live)
    (call : usage.step abi (.free obj) = some next) : Invariant abi size slabSize next := by
  have noneFull := invariant.noneFull
  simp only [Usage.step, Option.some.injEq] at call
  rcases free_cases noneFull with failed | ⟨before, slab, after, split, low, high, done⟩
  · rw [failed, if_neg (show ¬ (-1 : Int) = 0 by decide)] at call
    subst call
    exact invariant
  rw [done, if_pos rfl] at call
  subst call
  have order : usage.cache.slabs.Perm
      (slab :: ({ usage.cache with partialSlabs := before ++ after } : Cache).slabs) := by
    have same := slabs_middle usage.cache before after slab
    rwa [← split] at same
  have onList : slab ∈ usage.cache.slabs := order.mem_iff.mpr mem_cons_self
  have limit : obj < slab.vaddr + slabSize := by
    rw [invariant.slabSizeSame] at high
    exact lt_of_lt_of_le high (mod_le _ _)
  obtain ⟨index, inByte, rfl⟩ := slab_of_live positive room invariant member onList low limit
  have released : usage.cache.release slab (slab.vaddr + index * size) = slab.clearBit 0 index := by
    have positive' : 1 ≤ usage.cache.size := by rw [invariant.sizeSame]; exact positive
    have slot := release_slot positive' slab (inByte.trans (by decide))
    rwa [invariant.sizeSame, div_eq_of_lt inByte, mod_eq_of_lt inByte] at slot
  have tracks := Tracks.drop positive room inByte (invariant.tracks.perm order)
  simp only [released]
  split
  · rename_i empty
    refine ⟨invariant.sizeSame, invariant.slabSizeSame, noneFull, ?_, tracks⟩
    refine forall_mem_cons.mpr ⟨byte_of_isEmpty ?_ empty, invariant.emptyClear⟩
    exact tracks.plain _ mem_cons_self
  · exact ⟨invariant.sizeSame, invariant.slabSizeSame, noneFull, invariant.emptyClear,
      tracks.perm (slabs_middle usage.cache before after _).symm⟩

theorem trim_invariant (invariant : Invariant abi size slabSize usage)
    (call : usage.step abi .trim = some next) : Invariant abi size slabSize next := by
  simp only [Usage.step, Option.some.injEq] at call
  subst call
  refine ⟨invariant.sizeSame, invariant.slabSizeSame, invariant.noneFull, by simp [Cache.trim], ?_⟩
  have tracks := invariant.tracks
  rw [Cache.slabs, append_assoc] at tracks
  exact tracks.discard invariant.emptyClear

/-! ### Whole runs -/

theorem create_invariant (abi : Abi) (size align : Nat) (createObj : Bool) :
    Invariant abi size (slabSizeFor abi size align)
      ⟨Cache.create abi size align createObj, []⟩ where
  sizeSame := rfl
  slabSizeSame := rfl
  noneFull := rfl
  emptyClear := by simp [Cache.create]
  tracks := ⟨by simp [Cache.create, Cache.slabs], by simp [Cache.create, Cache.slabs],
    by simp [Cache.create, Cache.slabs], nodup_nil, by simp [Cache.create, Cache.slabs]⟩

theorem run_invariant (positive : 1 ≤ size) (room : 8 * size ≤ slabSizeFor abi size align)
    (run : Runs abi Meets size align createObj usage) :
    Invariant abi size (slabSizeFor abi size align) usage := by
  induction run with
  | refl => exact create_invariant abi size align createObj
  | tail earlier step inductionHypothesis =>
    obtain ⟨call, meets, allowed, call'⟩ := step
    cases call with
    | alloc supply => exact alloc_invariant positive room inductionHypothesis allowed meets call'
    | free obj => exact free_invariant positive room inductionHypothesis allowed call'
    | trim => exact trim_invariant inductionHypothesis call'

/-- The live objects of a cache do not share memory: their addresses are distinct, their bytes
disjoint, and each lies inside exactly one slab. -/
structure Separate (usage : Usage) : Prop where
  distinct : usage.live.Nodup
  apart : usage.live.Pairwise fun first second =>
    Disjoint (⟨first, usage.cache.size⟩ : Region).bytes (⟨second, usage.cache.size⟩ : Region).bytes
  home : ∀ obj ∈ usage.live, ∃ slab ∈ usage.cache.slabs,
    (⟨obj, usage.cache.size⟩ : Region).bytes ⊆ (slab.region usage.cache.slabSize).bytes ∧
    ∀ other ∈ usage.cache.slabs,
      (⟨obj, usage.cache.size⟩ : Region).bytes ⊆ (other.region usage.cache.slabSize).bytes →
      other = slab

theorem slot_subset (room : 8 * size ≤ slabSize) (slab : Slab) (low : index < 8) :
    (⟨slab.vaddr + index * size, size⟩ : Region).bytes ⊆ (slab.region slabSize).bytes := by
  have bound : (index + 1) * size ≤ 8 * size := mul_le_mul_right size low
  rw [add_mul, one_mul] at bound
  intro address inside
  have range := Region.mem_bytes.mp inside
  refine Region.mem_bytes.mpr ?_
  show slab.vaddr ≤ address ∧ address < slab.vaddr + slabSize
  simp only at range
  omega

theorem slots_apart {first second : Nat} (different : first ≠ second) :
    Disjoint (⟨slab.vaddr + first * size, size⟩ : Region).bytes
      (⟨slab.vaddr + second * size, size⟩ : Region).bytes := by
  have ordered : ∀ {low high : Nat}, low < high →
      slab.vaddr + low * size + size ≤ slab.vaddr + high * size := by
    intro low high below
    have bound := mul_le_mul_right size (succ_le_of_lt below)
    rw [succ_mul] at bound
    omega
  rcases lt_or_gt_of_ne different with below | above
  · exact Region.disjoint_of_limit_le (ordered below)
  · refine Disjoint.symm ?_
    exact Region.disjoint_of_limit_le (ordered above)

theorem separate_of_invariant (positive : 1 ≤ size) (room : 8 * size ≤ slabSize)
    (invariant : Invariant abi size slabSize usage) : Separate usage := by
  obtain ⟨sizeSame, slabSizeSame, -, -, tracks⟩ := invariant
  refine ⟨tracks.nodup, ?_, fun obj member => ?_⟩
  · rw [sizeSame]
    refine tracks.nodup.imp_of_mem fun member member' different => ?_
    obtain ⟨slab, onList, index, low, -, rfl⟩ := (tracks.mem_live _).mp member
    obtain ⟨slab', onList', index', low', -, rfl⟩ := (tracks.mem_live _).mp member'
    by_cases same : slab = slab'
    · subst same
      exact slots_apart fun equal => different (by rw [equal])
    · exact (tracks.apart_of_ne onList onList' same).mono (slot_subset room slab low)
        (slot_subset room slab' low')
  · obtain ⟨slab, onList, index, low, -, rfl⟩ := (tracks.mem_live _).mp member
    rw [sizeSame, slabSizeSame]
    refine ⟨slab, onList, slot_subset room slab low, fun other onList' inside => ?_⟩
    by_contra different
    have first : slab.vaddr + index * size ∈ (⟨slab.vaddr + index * size, size⟩ : Region).bytes :=
      Region.mem_bytes.mpr ⟨le_rfl, Nat.lt_add_of_pos_right positive⟩
    exact Set.disjoint_left.mp (tracks.apart_of_ne onList' onList different) (inside first)
      (Tracks.slot_inside positive room slab low)

/-- The lists and bitmaps of a cache record exactly the live objects. -/
structure Recorded (usage : Usage) : Prop where
  bits : ∀ slab ∈ usage.cache.slabs, ∀ index < slabEntries,
    slab.bit index = true ↔ slab.vaddr + index * usage.cache.size ∈ usage.live
  trim : ∀ slab ∈ usage.cache.trim.2, ∀ obj ∈ usage.live,
    Disjoint (⟨obj, usage.cache.size⟩ : Region).bytes (slab.region usage.cache.slabSize).bytes
  destroy : usage.cache.destroy.1 = 0 → usage.live = []

theorem bit_iff_live (positive : 1 ≤ size) (invariant : Invariant abi size slabSize usage)
    (room : slabEntries * size ≤ slabSize) (onList : slab ∈ usage.cache.slabs)
    (inMap : index < slabEntries) :
    slab.bit index = true ↔ slab.vaddr + index * size ∈ usage.live := by
  have tracks := invariant.tracks
  have eight : 8 * size ≤ slabSize := le_trans (mul_le_mul_right size (by decide)) room
  rw [Slab.bit_plain (tracks.plain slab onList), tracks.mem_live]
  constructor
  · rintro ⟨low, set⟩
    exact ⟨slab, onList, index, low, set, rfl⟩
  · rintro ⟨other, onList', index', low', set, same⟩
    have bound : (index + 1) * size ≤ slabEntries * size := mul_le_mul_right size inMap
    rw [add_mul, one_mul] at bound
    have inside : slab.vaddr + index * size ∈ (slab.region slabSize).bytes := by
      refine Region.mem_bytes.mpr ?_
      show slab.vaddr ≤ slab.vaddr + index * size ∧
        slab.vaddr + index * size < slab.vaddr + slabSize
      omega
    have home : other = slab := by
      by_contra different
      have slot := Tracks.slot_inside positive eight other low'
      rw [← same] at slot
      exact Set.disjoint_left.mp (tracks.apart_of_ne onList' onList different) slot inside
    subst home
    have equal := eq_of_mul_eq_mul_right positive (add_left_cancel same)
    subst equal
    exact ⟨low', set⟩

theorem recorded_of_invariant (positive : 1 ≤ size) (room : slabEntries * size ≤ slabSize)
    (invariant : Invariant abi size slabSize usage) : Recorded usage := by
  have tracks := invariant.tracks
  have eight : 8 * size ≤ slabSize := le_trans (mul_le_mul_right size (by decide)) room
  refine ⟨fun slab onList index inMap => ?_, fun slab gone obj member => ?_, fun destroyed => ?_⟩
  · rw [invariant.sizeSame]
    exact bit_iff_live positive invariant room onList inMap
  · obtain ⟨home, onList, index, low, set, rfl⟩ := (tracks.mem_live _).mp member
    rw [invariant.sizeSame, invariant.slabSizeSame]
    have different : home ≠ slab := by
      rintro rfl
      rw [invariant.emptyClear home gone, zero_testBit] at set
      cases set
    have onList' : slab ∈ usage.cache.slabs :=
      mem_append_left _ (mem_append_left _ gone)
    exact (tracks.apart_of_ne onList onList' different).mono_left (slot_subset eight home low)
  · have nonePartial : usage.cache.partialSlabs = [] := by
      by_contra nonempty
      have occupied : usage.cache.partialSlabs.isEmpty = false :=
        isEmpty_eq_false_iff.mpr nonempty
      rw [Cache.destroy, occupied, if_pos (show (false == false) = true from rfl)] at destroyed
      exact absurd destroyed (show ¬ (-1 : Int) = 0 by decide)
    rw [eq_nil_iff_forall_not_mem]
    intro obj member
    obtain ⟨home, onList, index, low, set, rfl⟩ := (tracks.mem_live _).mp member
    rw [Cache.slabs, nonePartial, invariant.noneFull, append_nil, append_nil] at onList
    rw [invariant.emptyClear home onList, zero_testBit] at set
    cases set

/-- In every run that never allocates from a slab whose first eight objects are in use, on a cache
whose slabs have room for those eight, the live objects do not share memory. -/
theorem run_separate (abi : Abi) (size align : Nat) (createObj : Bool) (usage : Usage)
    (positive : 1 ≤ size) (room : 8 * size ≤ slabSizeFor abi size align)
    (run : Runs abi Meets size align createObj usage) : Separate usage :=
  separate_of_invariant positive room (run_invariant positive room run)

/-- In every run that never allocates from a slab whose first eight objects are in use, on a cache
whose slabs have room for all their objects, the bitmaps are exact, `cache_trim` gives back no
slab with a live object and `cache_destroy` succeeds only when nothing is live. -/
theorem run_recorded (abi : Abi) (size align : Nat) (createObj : Bool) (usage : Usage)
    (positive : 1 ≤ size) (room : slabEntries * size ≤ slabSizeFor abi size align)
    (run : Runs abi Meets size align createObj usage) : Recorded usage :=
  recorded_of_invariant positive room (run_invariant positive
    (le_trans (mul_le_mul_right size (by decide)) room) run)

/-! ### Runs by their calls -/

/-- A call that the surroundings allow, where pages are granted only to a cache without slabs. -/
def Permits (abi : Abi) (usage : Usage) : Call → Prop
  | .alloc supply => ∀ vaddr ∈ supply.grant,
      vaddr + usage.cache.slabSize ≤ abi.modulus ∧ usage.cache.slabs = []
  | .free obj => obj ∈ usage.live
  | .trim => True

instance (abi : Abi) (usage : Usage) : DecidablePred (Permits abi usage)
  | .alloc _ => inferInstanceAs (Decidable (∀ _ ∈ _, _))
  | .free _ => inferInstanceAs (Decidable (_ ∈ _))
  | .trim => inferInstanceAs (Decidable True)

instance (usage : Usage) : DecidablePred (Meets usage)
  | .alloc _ => inferInstanceAs (Decidable (∀ _ ∈ _, _))
  | .free _ => inferInstanceAs (Decidable True)
  | .trim => inferInstanceAs (Decidable True)

theorem Permits.allowed {call : Call} (permits : Permits abi usage call) :
    usage.Allowed abi call := by
  cases call with
  | alloc supply =>
    intro vaddr granted
    obtain ⟨fits, none⟩ := permits vaddr granted
    rw [none]
    exact ⟨fits, fun slab member => absurd member not_mem_nil⟩
  | free obj => exact permits
  | trim => trivial

/-- The cache after some calls that are permitted and meet a condition. -/
def follow (abi : Abi) (condition : Usage → Call → Prop)
    [∀ usage, DecidablePred (condition usage)] :
    List Call → Usage → Option Usage
  | [], usage => some usage
  | call :: rest, usage =>
    if condition usage call ∧ Permits abi usage call then
      (usage.step abi call).bind (follow abi condition rest)
    else none

theorem runs_follow {condition : Usage → Call → Prop} [∀ usage, DecidablePred (condition usage)]
    {calls : List Call} (run : Runs abi condition size align createObj usage)
    (done : follow abi condition calls usage = some next) :
    Runs abi condition size align createObj next := by
  induction calls generalizing usage with
  | nil =>
    cases done
    exact run
  | cons call rest inductionHypothesis =>
    rw [follow] at done
    split at done
    · rename_i fine
      obtain ⟨middle, first, later⟩ := bind_eq_some_iff.mp done
      exact inductionHypothesis (run.tail ⟨call, fine.1, fine.2.allowed, first⟩) later
    · cases done

/-- Four objects are allocated and two are freed; the pages of the first one are returned in
between. -/
theorem twoObjects_run : ∃ usage, Runs .ilp32 Meets 128 128 false usage ∧
    usage.live = [0x80003100, 0x80003000] := by
  obtain ⟨usage, done, live⟩ : ∃ usage, follow .ilp32 Meets
      [.alloc ⟨true, some 0x80001000⟩, .free 0x80001000, .trim, .alloc ⟨true, some 0x80003000⟩,
        .alloc ⟨false, none⟩, .alloc ⟨false, none⟩, .free 0x80003080]
      ⟨Cache.create .ilp32 128 128 false, []⟩ = some usage ∧
      usage.live = [0x80003100, 0x80003000] :=
    ⟨⟨⟨128, 128, false, 4096, [], [⟨0x80003000, #v[5, 0, 0, 0]⟩], []⟩,
      [0x80003100, 0x80003000]⟩, by decide +kernel, rfl⟩
  exact ⟨usage, runs_follow .refl done, live⟩

theorem run_separate_twoObjects :
    ∃ usage, usage.live = [0x80003100, 0x80003000] ∧ Separate usage := by
  obtain ⟨usage, run, live⟩ := twoObjects_run
  exact ⟨usage, live, run_separate .ilp32 128 128 false usage (by decide) (by decide +kernel) run⟩

theorem run_recorded_twoObjects :
    ∃ usage, usage.live = [0x80003100, 0x80003000] ∧ Recorded usage := by
  obtain ⟨usage, run, live⟩ := twoObjects_run
  exact ⟨usage, live, run_recorded .ilp32 128 128 false usage (by decide) (by decide +kernel) run⟩

/-! ### The ninth object -/

/-- The calls that allocate the given number of objects after the first. -/
def allocs (count : Nat) : List Call :=
  .alloc ⟨true, some 0x80001000⟩ :: replicate count (.alloc ⟨false, none⟩)

/-- The ninth and the tenth object allocated from one slab are the same. -/
theorem tenth_object_repeats :
    ∃ usage, Runs .ilp32 (fun _ _ => True) 128 128 false usage ∧ ¬ Separate usage := by
  obtain ⟨usage, done, repeated⟩ : ∃ usage, follow .ilp32 (fun _ _ => True) (allocs 9)
      ⟨Cache.create .ilp32 128 128 false, []⟩ = some usage ∧ ¬ usage.live.Nodup :=
    ⟨⟨⟨128, 128, false, 4096, [], [⟨0x80001000, #v[255, 0, 0, 0]⟩], []⟩,
      [0x80001400, 0x80001400, 0x80001380, 0x80001300, 0x80001280, 0x80001200, 0x80001180,
        0x80001100, 0x80001080, 0x80001000]⟩, by decide +kernel, by decide⟩
  exact ⟨usage, runs_follow .refl done, fun separate => repeated separate.distinct⟩

/-- The ninth object allocated from one slab is not recorded in its bitmap. -/
theorem ninth_object_unrecorded :
    ∃ usage, Runs .ilp32 (fun _ _ => True) 128 128 false usage ∧ ¬ Recorded usage := by
  have done : follow .ilp32 (fun _ _ => True) (allocs 8)
      ⟨Cache.create .ilp32 128 128 false, []⟩ = some
      ⟨⟨128, 128, false, 4096, [], [⟨0x80001000, #v[255, 0, 0, 0]⟩], []⟩,
        [0x80001400, 0x80001380, 0x80001300, 0x80001280, 0x80001200, 0x80001180, 0x80001100,
          0x80001080, 0x80001000]⟩ := by decide +kernel
  refine ⟨_, runs_follow .refl done, fun recorded => ?_⟩
  have ninth := (recorded.bits ⟨0x80001000, #v[255, 0, 0, 0]⟩ (by simp [Cache.slabs]) 8
    (by decide)).mpr (by decide)
  exact absurd ninth (by decide)

end Usage

end Cache

end AIMv6
