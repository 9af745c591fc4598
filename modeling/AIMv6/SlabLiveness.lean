/-
This file proves what the bitmap of a slab says about the objects in use. The
argument is about slabs as such: a list of slabs *tracks* a list of live objects
when their regions are disjoint and the set bits of the first bitmap byte name
exactly the live objects. Taking a clear bit, clearing a set one, adding a fresh
slab and dropping slabs whose bits are all clear keep this relation. Only the
first byte matters: in a full byte `ffz` does not report that there is no zero
bit, so the scan of `__alloc` never reaches the second.
-/

import AIMv6.Slab

namespace AIMv6

open List hiding Disjoint Vector
open Nat

namespace Slab

/-- The first byte of the bitmap. -/
def byte (slab : Slab) : Nat := slab.used.getD 0 0

/-- Only the first byte of the bitmap is in use. -/
def Plain (slab : Slab) : Prop := slab.byte < 256 ∧ slab.used = #v[slab.byte, 0, 0, 0]

theorem getD_setIfInBounds (bytes : Vector Nat slabMaskChars) (i value : Nat) {k : Nat}
    (inBounds : k < slabMaskChars) :
    (bytes.setIfInBounds i value).getD k 0 = if i = k then value else bytes.getD k 0 := by
  have read : ∀ bytes : Vector Nat slabMaskChars, bytes.getD k 0 = bytes[k] := fun bytes => by
    simp [Vector.getD, Array.getD, inBounds]
  rw [read, read, Vector.getElem_setIfInBounds]

section Bits

variable {slab : Slab} (plain : slab.Plain) (index : Nat)

include plain index

theorem bit_plain : slab.bit index = true ↔ index < 8 ∧ slab.byte.testBit index = true := by
  unfold bit
  by_cases low : index < 8
  · rw [div_eq_of_lt low, mod_eq_of_lt low]
    simp [low, byte]
  · have zero : slab.used.getD (index / 8) 0 = 0 := by
      rw [plain.2]
      obtain ⟨high, equal⟩ : ∃ high, index / 8 = high + 1 := ⟨index / 8 - 1, by omega⟩
      rw [equal]
      rcases high with _ | _ | _ | high <;> rfl
    simp [zero, low]

theorem setBit_used :
    (slab.setBit 0 index).used = #v[(slab.byte ||| 1 <<< index) % 256, 0, 0, 0] := by
  show slab.used.setIfInBounds 0 ((slab.byte ||| 1 <<< index) % 256) = _
  rw [plain.2]
  rfl

theorem clearBit_used :
    (slab.clearBit 0 index).used = #v[slab.byte &&& (255 - (1 <<< index) % 256), 0, 0, 0] := by
  show slab.used.setIfInBounds 0 (slab.byte &&& (255 - (1 <<< index) % 256)) = _
  rw [plain.2]
  rfl

theorem setBit_byte : (slab.setBit 0 index).byte = (slab.byte ||| 1 <<< index) % 256 := by
  rw [byte, setBit_used plain]
  rfl

theorem clearBit_byte :
    (slab.clearBit 0 index).byte = slab.byte &&& (255 - (1 <<< index) % 256) := by
  rw [byte, clearBit_used plain]
  rfl

theorem setBit_plain : (slab.setBit 0 index).Plain := by
  refine ⟨?_, ?_⟩
  · rw [setBit_byte plain]
    exact mod_lt _ (by decide)
  · rw [setBit_byte plain, setBit_used plain]

theorem clearBit_plain : (slab.clearBit 0 index).Plain := by
  refine ⟨?_, ?_⟩
  · rw [clearBit_byte plain]
    exact lt_of_le_of_lt and_le_left plain.1
  · rw [clearBit_byte plain, clearBit_used plain]

end Bits

variable {slab : Slab} {index : Nat}

theorem testBit_setBit (plain : slab.Plain) (other : Nat) (low : other < 8) :
    (slab.setBit 0 index).byte.testBit other = true ↔
      other = index ∨ slab.byte.testBit other = true := by
  rw [setBit_byte plain, show 256 = 2 ^ 8 by rfl, testBit_mod_two_pow, testBit_or,
    one_shiftLeft, testBit_two_pow]
  simp only [low, decide_true, Bool.true_and, Bool.or_eq_true, decide_eq_true_eq]
  constructor
  · rintro (old | rfl)
    · exact Or.inr old
    · exact Or.inl rfl
  · rintro (rfl | old)
    · exact Or.inr rfl
    · exact Or.inl old

theorem testBit_mask {byte : Nat} (small : byte < 256) (inByte : index < 8) (other : Nat) :
    (byte &&& (255 - (1 <<< index) % 256)).testBit other = true ↔
      other ≠ index ∧ byte.testBit other = true := by
  have fits : 1 <<< index < 256 := by
    rw [one_shiftLeft]
    exact Nat.pow_lt_pow_right (by decide) inByte
  rw [mod_eq_of_lt fits, testBit_and, one_shiftLeft,
    show 255 - 2 ^ index = 2 ^ 8 - (2 ^ index + 1) by omega,
    testBit_two_pow_sub_succ (by rwa [one_shiftLeft] at fits), testBit_two_pow]
  simp only [Bool.and_eq_true, decide_eq_true_eq, Bool.not_eq_eq_eq_not, Bool.not_true,
    decide_eq_false_iff_not]
  constructor
  · rintro ⟨old, -, differs⟩
    exact ⟨fun same => differs same.symm, old⟩
  · rintro ⟨differs, old⟩
    refine ⟨old, ?_, fun same => differs same.symm⟩
    by_contra high
    have tooBig := ge_two_pow_of_testBit old
    have bound : 2 ^ 8 ≤ 2 ^ other := Nat.pow_le_pow_right (by decide) (by omega)
    omega

theorem testBit_clearBit (plain : slab.Plain) (inByte : index < 8) (other : Nat) :
    (slab.clearBit 0 index).byte.testBit other = true ↔
      other ≠ index ∧ slab.byte.testBit other = true := by
  rw [clearBit_byte plain]
  exact testBit_mask plain.1 inByte other

end Slab

variable {slab : Slab} {index : Nat}

/-! ### Slabs that track the live objects -/

/-- The bitmaps of a list of slabs record exactly the live objects. -/
structure Tracks (abi : Abi) (size slabSize : Nat) (slabs : List Slab) (live : List Nat) :
    Prop where
  inSpace : ∀ slab ∈ slabs, slab.vaddr + slabSize ≤ abi.modulus
  apart : slabs.Pairwise fun first second =>
    Disjoint (first.region slabSize).bytes (second.region slabSize).bytes
  plain : ∀ slab ∈ slabs, slab.Plain
  nodup : live.Nodup
  mem_live : ∀ obj, obj ∈ live ↔
    ∃ slab ∈ slabs, ∃ index < 8, slab.byte.testBit index = true ∧ obj = slab.vaddr + index * size

namespace Tracks

variable {abi : Abi} {size slabSize : Nat} {slabs : List Slab} {live : List Nat}

theorem perm {other : List Slab} (tracks : Tracks abi size slabSize slabs live)
    (same : slabs.Perm other) : Tracks abi size slabSize other live where
  inSpace slab member := tracks.inSpace slab (same.mem_iff.mpr member)
  apart := (same.pairwise_iff fun apart => apart.symm).mp tracks.apart
  plain slab member := tracks.plain slab (same.mem_iff.mpr member)
  nodup := tracks.nodup
  mem_live obj := by simp only [tracks.mem_live, same.mem_iff]

variable {first second : Slab}

theorem apart_of_ne (tracks : Tracks abi size slabSize slabs live) (member : first ∈ slabs)
    (member' : second ∈ slabs) (different : first ≠ second) :
    Disjoint (first.region slabSize).bytes (second.region slabSize).bytes := by
  have : Std.Symm fun first second : Slab =>
      Disjoint (first.region slabSize).bytes (second.region slabSize).bytes :=
    ⟨fun _ _ apart => apart.symm⟩
  exact tracks.apart.forall member member' different

section Slots

variable (positive : 1 ≤ size) (room : 8 * size ≤ slabSize)

include positive room

theorem slot_inside (slab : Slab) (low : index < 8) :
    slab.vaddr + index * size ∈ (slab.region slabSize).bytes := by
  have bound : (index + 1) * size ≤ 8 * size := Nat.mul_le_mul_right size low
  rw [add_mul, one_mul] at bound
  rw [Region.mem_bytes]
  show slab.vaddr ≤ slab.vaddr + index * size ∧ slab.vaddr + index * size < slab.vaddr + slabSize
  omega

theorem slot_unique (member : first ∈ slabs) (member' : second ∈ slabs)
    (tracks : Tracks abi size slabSize slabs live) {index' : Nat} (low : index < 8)
    (low' : index' < 8) (same : first.vaddr + index * size = second.vaddr + index' * size) :
    first = second ∧ index = index' := by
  have equal : first = second := by
    by_contra different
    have apart := tracks.apart_of_ne member member' different
    have inside := slot_inside positive room second low'
    rw [← same] at inside
    exact Set.disjoint_left.mp apart (slot_inside positive room first low) inside
  subst equal
  exact ⟨rfl, eq_of_mul_eq_mul_right positive (add_left_cancel same)⟩

variable {rest : List Slab}

/-- Taking a clear bit of a slab makes one more object live, one that was not live before. -/
theorem take (low : index < 8) (tracks : Tracks abi size slabSize (slab :: rest) live)
    (clear : slab.byte.testBit index = false) :
    Tracks abi size slabSize (slab.setBit 0 index :: rest)
      ((slab.vaddr + index * size) :: live) := by
  have plain := tracks.plain slab mem_cons_self
  have apart := pairwise_cons.mp tracks.apart
  have inSpace := forall_mem_cons.mp tracks.inSpace
  have plainRest := (forall_mem_cons.mp tracks.plain).2
  have notLive : slab.vaddr + index * size ∉ live := by
    rw [tracks.mem_live]
    rintro ⟨other, member, index', low', set, same⟩
    obtain ⟨rfl, rfl⟩ := slot_unique positive room mem_cons_self member tracks low low' same
    rw [clear] at set
    cases set
  refine ⟨forall_mem_cons.mpr inSpace, pairwise_cons.mpr apart,
    forall_mem_cons.mpr ⟨Slab.setBit_plain plain index, plainRest⟩,
    nodup_cons.mpr ⟨notLive, tracks.nodup⟩, fun obj => ?_⟩
  simp only [mem_cons, tracks.mem_live, exists_eq_or_imp]
  constructor
  · rintro (rfl | ⟨index', low', set, same⟩ | inRest)
    · exact Or.inl ⟨index, low, (Slab.testBit_setBit plain index low).mpr (Or.inl rfl), rfl⟩
    · exact Or.inl ⟨index', low', (Slab.testBit_setBit plain index' low').mpr (Or.inr set), same⟩
    · exact Or.inr inRest
  · rintro (⟨index', low', set, same⟩ | inRest)
    · rcases (Slab.testBit_setBit plain index' low').mp set with rfl | old
      · exact Or.inl same
      · exact Or.inr (Or.inl ⟨index', low', old, same⟩)
    · exact Or.inr (Or.inr inRest)

/-- Clearing a set bit of a slab makes exactly that object no longer live. -/
theorem drop (low : index < 8) (tracks : Tracks abi size slabSize (slab :: rest) live) :
    Tracks abi size slabSize (slab.clearBit 0 index :: rest)
      (live.erase (slab.vaddr + index * size)) := by
  have plain := tracks.plain slab mem_cons_self
  have apart := pairwise_cons.mp tracks.apart
  have inSpace := forall_mem_cons.mp tracks.inSpace
  have plainRest := (forall_mem_cons.mp tracks.plain).2
  refine ⟨forall_mem_cons.mpr inSpace, pairwise_cons.mpr apart,
    forall_mem_cons.mpr ⟨Slab.clearBit_plain plain index, plainRest⟩,
    tracks.nodup.erase _, fun obj => ?_⟩
  rw [tracks.nodup.mem_erase_iff, tracks.mem_live]
  simp only [mem_cons, exists_eq_or_imp]
  constructor
  · rintro ⟨differs, ⟨index', low', set, rfl⟩ | inRest⟩
    · refine Or.inl ⟨index', low', (Slab.testBit_clearBit plain low index').mpr ⟨?_, set⟩, rfl⟩
      rintro rfl
      exact differs rfl
    · exact Or.inr inRest
  · rintro (⟨index', low', set, rfl⟩ | ⟨other, member, index', low', set, rfl⟩)
    · obtain ⟨differs, old⟩ := (Slab.testBit_clearBit plain low index').mp set
      refine ⟨fun same => differs ?_, Or.inl ⟨index', low', old, rfl⟩⟩
      exact eq_of_mul_eq_mul_right positive (add_left_cancel same)
    · refine ⟨fun same => ?_, Or.inr ⟨other, member, index', low', set, rfl⟩⟩
      have inside := slot_inside positive room other low'
      rw [same] at inside
      exact Set.disjoint_left.mp (apart.1 other member) (slot_inside positive room slab low) inside

end Slots

/-- A fresh slab has no live object. -/
theorem add (tracks : Tracks abi size slabSize slabs live)
    (inSpace : slab.vaddr + slabSize ≤ abi.modulus)
    (fresh : ∀ other ∈ slabs, Disjoint (slab.region slabSize).bytes (other.region slabSize).bytes)
    (plain : slab.Plain) (empty : slab.byte = 0) :
    Tracks abi size slabSize (slab :: slabs) live := by
  refine ⟨forall_mem_cons.mpr ⟨inSpace, tracks.inSpace⟩, pairwise_cons.mpr ⟨fresh, tracks.apart⟩,
    forall_mem_cons.mpr ⟨plain, tracks.plain⟩, tracks.nodup, fun obj => ?_⟩
  simp only [tracks.mem_live, mem_cons, exists_eq_or_imp, empty, zero_testBit,
    Bool.false_eq_true, false_and, and_false, exists_false, false_or]

/-- Slabs without a set bit can be given up. -/
theorem discard {gone : List Slab} (tracks : Tracks abi size slabSize (gone ++ slabs) live)
    (empty : ∀ slab ∈ gone, slab.byte = 0) : Tracks abi size slabSize slabs live := by
  refine ⟨fun slab member => tracks.inSpace slab (mem_append_right _ member),
    (pairwise_append.mp tracks.apart).2.1,
    fun slab member => tracks.plain slab (mem_append_right _ member), tracks.nodup,
    fun obj => ?_⟩
  rw [tracks.mem_live]
  constructor
  · rintro ⟨slab, member, index, low, set, same⟩
    rcases mem_append.mp member with inGone | kept
    · rw [empty slab inGone, zero_testBit] at set
      cases set
    · exact ⟨slab, kept, index, low, set, same⟩
  · rintro ⟨slab, member, rest⟩
    exact ⟨slab, mem_append_right _ member, rest⟩

end Tracks

end AIMv6
