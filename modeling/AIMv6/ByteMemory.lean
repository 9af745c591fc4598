/-
This file is a small library of byte memories with 32-bit addresses. Addresses are counted from
a base and wrap at the end of the address space, so that a range is given by its base and its
size and nothing has to be said about where it ends.

Copying to a range changes the range and nothing else, and two copies one behind the other are one
copy. A byte loop that moves a range to a range apart from it is one copy.
-/

import Mathlib.Tactic
import Mathlib.Order.CompletePartialOrder

namespace AIMv6

open List

/-- An address of a 32-bit address space. -/
abbrev Address := BitVec 32

/-- A byte for each address. -/
abbrev ByteMemory := Address → UInt8

variable {others bytes : Nat → UInt8} {position : Nat}

namespace ByteMemory

/-- The given number of addresses from a base on. -/
def range (base : Address) (size : Nat) : Set Address := {address | (address - base).toNat < size}

/-- The memory with bytes copied to a range. -/
def copy (mem : ByteMemory) (base : Address) (size : Nat) (bytes : Nat → UInt8) : ByteMemory :=
  fun address => if (address - base).toNat < size then bytes (address - base).toNat else mem address

/-- The bytes from an address on. -/
def bytesAt (mem : ByteMemory) (base : Address) : Nat → UInt8 :=
  fun offset => mem (base + BitVec.ofNat 32 offset)

/-- The byte loop that moves a range to another place, from its first byte to its last. -/
def move (mem : ByteMemory) (target source : Address) (size : Nat) : ByteMemory :=
  (List.range size).foldl (fun mem offset =>
    Function.update mem (target + BitVec.ofNat 32 offset) (mem.bytesAt source offset)) mem

variable {mem : ByteMemory} {base address : Address} {size offset : Nat} {bytes : Nat → UInt8}

theorem offset_toNat (base : Address) (fits : offset < 2 ^ 32) :
    (base + BitVec.ofNat 32 offset - base).toNat = offset := by
  rw [BitVec.add_comm, BitVec.add_sub_cancel, BitVec.toNat_ofNat, Nat.mod_eq_of_lt fits]

theorem mem_range (inside : offset < size) (fits : offset < 2 ^ 32) :
    base + BitVec.ofNat 32 offset ∈ range base size := by
  rw [range, Set.mem_ofPred_eq, offset_toNat base fits]
  exact inside

theorem range_mono {less : Nat} (bound : less ≤ size) : range base less ⊆ range base size :=
  fun _ inside => lt_of_lt_of_le inside bound

variable {more : Nat}

theorem range_disjoint {other : Address} (above : base.toNat + size ≤ other.toNat)
    (fits : other.toNat + more ≤ 2 ^ 32) : Disjoint (range base size) (range other more) := by
  refine Set.disjoint_left.mpr fun address low high => ?_
  rw [range, Set.mem_ofPred_eq, BitVec.toNat_sub] at low high
  omega

theorem exists_offset (base address : Address) :
    ∃ offset < 2 ^ 32, address = base + BitVec.ofNat 32 offset ∧ (address - base).toNat = offset :=
  ⟨(address - base).toNat, (address - base).isLt, by
    rw [BitVec.ofNat_toNat, BitVec.setWidth_eq, BitVec.add_comm, BitVec.sub_add_cancel], rfl⟩

theorem copy_inside (inside : offset < size) (fits : offset < 2 ^ 32) :
    copy mem base size bytes (base + BitVec.ofNat 32 offset) = bytes offset := by
  rw [copy, offset_toNat base fits, if_pos inside]

theorem copy_outside (outside : address ∉ range base size) :
    copy mem base size bytes address = mem address :=
  if_neg outside

theorem copy_zero : copy mem base 0 bytes = mem := by
  funext address
  exact if_neg (Nat.not_lt_zero _)

theorem distance_behind (address base : Address) (fits : size ≤ 2 ^ 32) :
    (address - (base + BitVec.ofNat 32 size)).toNat =
      if size ≤ (address - base).toNat then (address - base).toNat - size
      else 2 ^ 32 + (address - base).toNat - size := by
  obtain ⟨offset, bound, rfl, -⟩ := exists_offset base address
  rw [offset_toNat base bound, BitVec.add_comm base, BitVec.add_comm base]
  simp only [BitVec.toNat_sub, BitVec.toNat_add, BitVec.toNat_ofNat]
  split <;> omega

/-- The range behind a range is the rest of the range that both make up. -/
theorem mem_range_behind (fits : size + more ≤ 2 ^ 32) :
    address ∈ range (base + BitVec.ofNat 32 size) more ↔
      size ≤ (address - base).toNat ∧ (address - base).toNat < size + more := by
  rw [range, Set.mem_ofPred_eq, distance_behind address base (by omega)]
  split <;> omega

theorem copy_copy {more : Nat} (fits : size + more ≤ 2 ^ 32) :
    copy (copy mem base size bytes) (base + BitVec.ofNat 32 size) more
        (fun offset => bytes (size + offset)) =
      copy mem base (size + more) bytes := by
  funext address
  unfold copy
  rw [distance_behind address base (by omega)]
  generalize (address - base).toNat = offset
  by_cases early : offset < size
  · rw [if_neg (by omega : ¬ size ≤ offset), if_neg (by omega), if_pos early, if_pos (by omega)]
  · rw [if_pos (by omega : size ≤ offset)]
    by_cases inside : offset - size < more
    · rw [if_pos inside, if_pos (by omega)]
      exact congrArg bytes (Nat.add_sub_cancel' (by omega))
    · rw [if_neg inside, if_neg early, if_neg (by omega)]

theorem copy_congr (same : ∀ offset < size, bytes offset = others offset) :
    copy mem base size bytes = copy mem base size others := by
  funext address
  unfold copy
  split
  · rename_i inside
    exact same _ inside
  · rfl

theorem copy_eqOn {other : ByteMemory} {places : Set Address} (same : Set.EqOn mem other places) :
    Set.EqOn (copy mem base size bytes) (copy other base size bytes) places := by
  intro address inside
  unfold copy
  rw [same inside]

/-- The byte at the end of a range, stored by itself. -/
theorem copy_one {value : UInt8} (fits : size < 2 ^ 32) (same : bytes size = value) :
    Function.update (copy mem base size bytes) (base + BitVec.ofNat 32 size) value =
      copy mem base (size + 1) bytes := by
  rw [← copy_copy (by omega)]
  generalize copy mem base size bytes = before
  funext address
  unfold copy
  by_cases here : address = base + BitVec.ofNat 32 size
  · rw [here, Function.update_self, BitVec.sub_self, if_pos (by decide)]
    exact same.symm
  · have notFirst : ¬ (address - (base + BitVec.ofNat 32 size)).toNat < 1 := by
      intro first
      obtain ⟨offset, -, place, distance⟩ := exists_offset (base + BitVec.ofNat 32 size) address
      rw [distance, Nat.lt_one_iff] at first
      rw [first] at place
      exact here (place.trans (BitVec.add_zero _))
    rw [Function.update_of_ne here, if_neg notFirst]

theorem move_eq {target source : Address} (fits : size ≤ 2 ^ 32)
    (apart : Disjoint (range target size) (range source size)) :
    move mem target source size = copy mem target size (mem.bytesAt source) := by
  suffices ∀ count ≤ size,
    move mem target source count = copy mem target count (mem.bytesAt source) from
    this size le_rfl
  intro count bound
  induction count with
  | zero => exact copy_zero.symm
  | succ count inductionHypothesis =>
    have before := inductionHypothesis (by omega)
    have read : (copy mem target count (mem.bytesAt source)).bytesAt source count =
        mem.bytesAt source count := by
      refine copy_outside fun inside => Set.disjoint_left.mp apart ?_
        (mem_range (by omega) (by omega) : source + BitVec.ofNat 32 count ∈ range source size)
      exact lt_of_lt_of_le (show _ < count from inside) (by omega)
    unfold move at before ⊢
    rw [range_succ, foldl_append, before, foldl_cons, foldl_nil, read]
    exact copy_one (by omega) rfl

end ByteMemory

/-! ### Little-endian numbers -/

/-- The 16-bit number at a position. -/
def halfAt (bytes : Nat → UInt8) (position : Nat) : Nat :=
  (bytes position).toNat + 256 * (bytes (position + 1)).toNat

/-- The 32-bit number at a position. -/
def wordAt (bytes : Nat → UInt8) (position : Nat) : Nat :=
  halfAt bytes position + 65536 * halfAt bytes (position + 2)

theorem halfAt_lt (bytes : Nat → UInt8) (position : Nat) : halfAt bytes position < 2 ^ 16 := by
  have low := (bytes position).toNat_lt
  have high := (bytes (position + 1)).toNat_lt
  unfold halfAt
  omega

theorem wordAt_lt (bytes : Nat → UInt8) (position : Nat) : wordAt bytes position < 2 ^ 32 := by
  have low := halfAt_lt bytes position
  have high := halfAt_lt bytes (position + 2)
  unfold wordAt
  omega

theorem halfAt_congr (same : ∀ offset < 2, bytes (position + offset) = others (position + offset)) :
    halfAt bytes position = halfAt others position := by
  have low := same 0 (by decide)
  have high := same 1 (by decide)
  unfold halfAt
  rw [show bytes position = others position from low, high]

theorem wordAt_congr (same : ∀ offset < 4, bytes (position + offset) = others (position + offset)) :
    wordAt bytes position = wordAt others position := by
  have low : halfAt bytes position = halfAt others position :=
    halfAt_congr fun offset bound => same offset (by omega)
  have high : halfAt bytes (position + 2) = halfAt others (position + 2) :=
    halfAt_congr fun offset bound => by
      rw [add_assoc]
      exact same (2 + offset) (by omega)
  rw [wordAt, wordAt, low, high]

end AIMv6
