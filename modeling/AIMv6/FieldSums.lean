/-
This file treats a number as a row of fields of equal width. An addition whose
fields stay below their bound carries nothing from one field to the next, so it
adds field by field, and a subtraction without borrow subtracts field by field.
Shifting by whole fields renumbers them, and masking every other field away
leaves a row of fields twice as wide.
-/

import Mathlib.Tactic
import Mathlib.Data.Nat.Bitwise
import Mathlib.Algebra.BigOperators.Group.Finset.Basic

namespace AIMv6

open Nat Finset

/-- The field of the given width at the given index. -/
def field (width index value : Nat) : Nat := value / 2 ^ (width * index) % 2 ^ width

variable (width index value : Nat)

theorem field_lt : field width index value < 2 ^ width :=
  mod_lt _ (Nat.two_pow_pos _)

theorem testBit_field (position : Nat) :
    (field width index value).testBit position =
      (decide (position < width) && value.testBit (width * index + position)) := by
  rw [field, testBit_mod_two_pow, testBit_div_two_pow, add_comm]

theorem mod_field_succ :
    value % 2 ^ (width * (index + 1)) =
      value % 2 ^ (width * index) + 2 ^ (width * index) * field width index value := by
  rw [mul_succ, pow_add, mod_mul, field]

theorem field_shiftRight (count index value : Nat) :
    field width index (value >>> (width * count)) = field width (index + count) value := by
  rw [field, field, shiftRight_eq_div_pow, Nat.div_div_eq_div_mul, ← pow_add, Nat.mul_add,
    add_comm (width * count)]

theorem field_double :
    field (2 * width) index value =
      field width (2 * index) value + 2 ^ width * field width (2 * index + 1) value := by
  rw [field, field, field, two_mul, pow_add, mod_mul, Nat.div_div_eq_div_mul, ← pow_add]
  ring_nf

/-! ### Addition without carry -/

/-- No field of the sum reaches the bound of a field. -/
def NoCarry (width first second : Nat) : Prop :=
  ∀ index, field width index first + field width index second < 2 ^ width

section Addition

variable {width first second : Nat}

theorem NoCarry.low_lt (fits : NoCarry width first second) (index : Nat) :
    first % 2 ^ (width * index) + second % 2 ^ (width * index) < 2 ^ (width * index) := by
  induction index with
  | zero => simp [mod_one]
  | succ index low =>
    rw [mod_field_succ, mod_field_succ, mul_succ, pow_add]
    have room : field width index first + field width index second + 1 ≤ 2 ^ width := fits index
    have scaled := mul_le_mul_left (2 ^ (width * index)) room
    rw [mul_add, mul_add, mul_one] at scaled
    omega

theorem NoCarry.field_add (fits : NoCarry width first second) (index : Nat) :
    field width index (first + second) = field width index first + field width index second := by
  rw [field, add_div_eq_of_add_mod_lt (fits.low_lt index), add_mod_of_add_mod_lt (fits index)]
  rfl

theorem NoCarry.add_lt (fits : NoCarry width first second) {count : Nat}
    (firstFits : first < 2 ^ (width * count)) (secondFits : second < 2 ^ (width * count)) :
    first + second < 2 ^ (width * count) := by
  have low := fits.low_lt count
  rwa [mod_eq_of_lt firstFits, mod_eq_of_lt secondFits] at low

end Addition

/-! ### Subtraction without borrow -/

/-- No field of the second number is larger than that of the first. -/
def NoBorrow (width first second : Nat) : Prop :=
  ∀ index, field width index second ≤ field width index first

section Subtraction

variable {width first second : Nat}

theorem NoBorrow.low_le (fits : NoBorrow width first second) (index : Nat) :
    second % 2 ^ (width * index) ≤ first % 2 ^ (width * index) := by
  induction index with
  | zero => simp [mod_one]
  | succ index low =>
    rw [mod_field_succ, mod_field_succ]
    exact Nat.add_le_add low (Nat.mul_le_mul_left _ (fits index))

theorem NoBorrow.le (fits : NoBorrow width first second) {count : Nat}
    (firstFits : first < 2 ^ (width * count)) (secondFits : second < 2 ^ (width * count)) :
    second ≤ first := by
  have low := fits.low_le count
  rwa [mod_eq_of_lt firstFits, mod_eq_of_lt secondFits] at low

/-- Quotient and remainder of a difference that borrows nothing from the quotient. -/
theorem sub_div_mod {modulus : Nat} (positive : 0 < modulus) (order : second ≤ first)
    (low : second % modulus ≤ first % modulus) :
    (first - second) / modulus = first / modulus - second / modulus ∧
      (first - second) % modulus = first % modulus - second % modulus := by
  have split : first - second =
      first % modulus - second % modulus + modulus * (first / modulus - second / modulus) := by
    have higher := Nat.mul_le_mul_left modulus (Nat.div_le_div_right (c := modulus) order)
    have firstParts := mod_add_div first modulus
    have secondParts := mod_add_div second modulus
    rw [Nat.mul_sub]
    omega
  have small : first % modulus - second % modulus < modulus :=
    (sub_le _ _).trans_lt (mod_lt _ positive)
  rw [split]
  exact ⟨by rw [add_mul_div_left _ _ positive, div_eq_of_lt small, zero_add],
    by rw [add_mul_mod_self_left, mod_eq_of_lt small]⟩

theorem NoBorrow.field_sub (fits : NoBorrow width first second) (order : second ≤ first)
    (index : Nat) :
    field width index (first - second) = field width index first - field width index second := by
  rw [field, (sub_div_mod (Nat.two_pow_pos _) order (fits.low_le index)).1]
  exact (sub_div_mod (Nat.two_pow_pos _) (Nat.div_le_div_right order) (fits index)).2

end Subtraction

/-! ### Every other field -/

/-- Among the low `bits` bits the mask has those of every other field, the first one included. -/
def EveryOther (width bits mask : Nat) : Prop :=
  ∀ position < bits, mask.testBit position = decide (position % (2 * width) < width)

/-- What the mask leaves of a field of twice the width is its lower half. -/
theorem EveryOther.field_and {width bits mask value : Nat} (every : EveryOther width bits mask)
    (fits : value < 2 ^ bits) (index : Nat) :
    field (2 * width) index (value &&& mask) = field width (2 * index) value := by
  refine eq_of_testBit_eq fun position => ?_
  rw [testBit_field, testBit_field, testBit_and, ← mul_assoc, mul_comm width 2]
  rcases lt_or_ge (2 * width * index + position) bits with inside | outside
  · rw [every _ inside, mul_add_mod]
    rcases lt_or_ge position (2 * width) with within | past
    · rw [decide_eq_true within, mod_eq_of_lt within, Bool.true_and, Bool.and_comm]
    · rw [decide_eq_false (Nat.not_lt.mpr past), Bool.false_and,
        decide_eq_false (show ¬ position < width by omega), Bool.false_and]
  · have clear : value.testBit (2 * width * index + position) = false :=
      testBit_lt_two_pow (fits.trans_le (Nat.pow_le_pow_right (by decide) outside))
    rw [clear, Bool.false_and, Bool.and_false, Bool.and_false]

theorem sum_range_two_mul (value : Nat → Nat) (count : Nat) :
    ∑ index ∈ Finset.range (2 * count), value index =
      ∑ index ∈ Finset.range count, (value (2 * index) + value (2 * index + 1)) := by
  induction count with
  | zero => rfl
  | succ count same =>
    rw [mul_succ, sum_range_succ, sum_range_succ, same, sum_range_succ, add_assoc]

end AIMv6
