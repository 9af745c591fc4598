/-
This file models the word sizes of the two build targets and the alignment
macros of `include/util.h`. `ALIGN_ABOVE` subtracts one, sets the low bits and
adds one again, all in the type of its argument, so it is stated here with the
wrap-around that type has. At a power of two `ALIGN_BELOW` is then the greatest
multiple below the value, and `ALIGN_ABOVE` the least one above it, or zero
where that multiple does not fit into the type.
-/

import Mathlib.Tactic
import Mathlib.Data.Nat.Bitwise

namespace AIMv6

open Nat

/-- The two data models the kernel is compiled for: `__LP64__` unset and set. -/
inductive Abi where
  | ilp32
  | lp64
  deriving DecidableEq, Repr

/-- `BITS_PER_LONG`, also the width of `size_t` and of pointers. -/
def Abi.bits : Abi → Nat
  | .ilp32 => 32
  | .lp64 => 64

/-- `WORD_SHIFT`. -/
def Abi.wordShift : Abi → Nat
  | .ilp32 => 2
  | .lp64 => 3

/-- `WORD_SIZE`. -/
def Abi.wordSize : Abi → Nat
  | .ilp32 => 4
  | .lp64 => 8

theorem Abi.wordSize_pos (abi : Abi) : 0 < abi.wordSize := by
  cases abi <;> decide

/-- The number of values a `size_t` takes. -/
def Abi.modulus (abi : Abi) : Nat := 2 ^ abi.bits

/-- Subtraction in an unsigned type with the given number of values. -/
def wrapSub (modulus first second : Nat) : Nat := (first + (modulus - second)) % modulus

variable {first second alignment : Nat}

theorem wrapSub_of_le {modulus : Nat} (order : second ≤ first)
    (fits : first < modulus) : wrapSub modulus first second = first - second := by
  rw [wrapSub, show first + (modulus - second) = first - second + modulus by omega,
    add_mod_right, mod_eq_of_lt (by omega)]

/-- `PAGE_SHIFT`, the same on every target. -/
def pageShift : Nat := 12

/-- `PAGE_SIZE`. -/
def pageSize : Nat := 4096

/-- `__ALIGN_MASK`. -/
def alignMask (alignment : Nat) : Nat := alignment - 1

/-- `IS_ALIGNED`. -/
def isAligned (value alignment : Nat) : Bool := value &&& alignMask alignment == 0

/-- `ALIGN_ABOVE` on a type of the given width. -/
def alignAbove (width value alignment : Nat) : Nat :=
  ((wrapSub (2 ^ width) value 1 ||| alignMask alignment) + 1) % 2 ^ width

/-- `ALIGN_BELOW` on a type of the given width. -/
def alignBelow (width value alignment : Nat) : Nat :=
  value &&& (2 ^ width - 1 - alignMask alignment)

/-! ### The macros at a power of two -/

theorem isAligned_two_pow (value exponent : Nat) :
    isAligned value (2 ^ exponent) = true ↔ value % 2 ^ exponent = 0 := by
  rw [isAligned, alignMask, and_two_pow_sub_one_eq_mod, beq_iff_eq]

theorem or_eq_add {high low : Nat} (exponent : Nat) (aligned : high % 2 ^ exponent = 0)
    (small : low < 2 ^ exponent) : high ||| low = high + low := by
  have multiple := div_add_mod high (2 ^ exponent)
  rw [aligned, add_zero] at multiple
  rw [← multiple, ← two_pow_add_eq_or_of_lt small]

theorem or_two_pow_sub_one (value exponent : Nat) :
    value ||| (2 ^ exponent - 1) = value / 2 ^ exponent * 2 ^ exponent + (2 ^ exponent - 1) := by
  have small : 2 ^ exponent - 1 < 2 ^ exponent := sub_lt (Nat.two_pow_pos _) Nat.one_pos
  rw [mul_comm, two_pow_add_eq_or_of_lt small]
  refine eq_of_testBit_eq fun index => ?_
  rw [testBit_or, testBit_or, testBit_two_pow_sub_one, testBit_two_pow_mul, testBit_div_two_pow]
  by_cases low : index < exponent
  · simp [low]
  · simp [low, Nat.not_lt.mp low, Nat.sub_add_cancel (Nat.not_lt.mp low)]

/-- Rounding up by the macro is rounding up, modulo the width of the type. -/
theorem alignAbove_two_pow (width value exponent : Nat) (fits : value < 2 ^ width)
    (narrow : exponent ≤ width) :
    alignAbove width value (2 ^ exponent) =
      (value + (2 ^ exponent - 1)) / 2 ^ exponent * 2 ^ exponent % 2 ^ width := by
  have positive : 0 < 2 ^ exponent := Nat.two_pow_pos _
  rw [alignAbove, alignMask, wrapSub, or_two_pow_sub_one]
  rcases Nat.eq_zero_or_pos value with zero | nonzero
  · subst zero
    have wide : 0 < 2 ^ width := Nat.two_pow_pos _
    have total : 2 ^ width = 2 ^ (width - exponent) * 2 ^ exponent := by
      rw [← pow_add, Nat.sub_add_cancel narrow]
    have quotient : (2 ^ width - 1) / 2 ^ exponent = 2 ^ (width - exponent) - 1 := by
      have more : 0 < 2 ^ (width - exponent) := Nat.two_pow_pos _
      rw [total, Nat.div_eq_iff positive, Nat.sub_mul, one_mul]
      have := mul_le_mul_right (2 ^ exponent) more
      omega
    rw [Nat.zero_add, mod_eq_of_lt (sub_lt wide Nat.one_pos), quotient, Nat.sub_mul,
      one_mul, ← total, zero_add,
      div_eq_of_lt (sub_lt positive one_pos), zero_mul]
    have bound : 2 ^ exponent ≤ 2 ^ width := Nat.pow_le_pow_right (by decide) narrow
    rw [show 2 ^ width - 2 ^ exponent + (2 ^ exponent - 1) + 1 = 2 ^ width by omega]
    simp
  · have lowered : (value + (2 ^ width - 1)) % 2 ^ width = value - 1 :=
      wrapSub_of_le nonzero fits
    rw [lowered, show value + (2 ^ exponent - 1) = value - 1 + 2 ^ exponent by omega,
      add_div_right _ positive, succ_mul, Nat.add_assoc, Nat.sub_add_cancel positive]

theorem alignBelow_two_pow (width value exponent : Nat) (fits : value < 2 ^ width)
    (narrow : exponent ≤ width) :
    alignBelow width value (2 ^ exponent) = value / 2 ^ exponent * 2 ^ exponent := by
  rw [alignBelow, alignMask, mul_comm]
  have bound : 2 ^ exponent ≤ 2 ^ width := Nat.pow_le_pow_right (by decide) narrow
  rw [show 2 ^ width - 1 - (2 ^ exponent - 1) = 2 ^ width - (2 ^ exponent - 1 + 1) by omega]
  refine eq_of_testBit_eq fun index => ?_
  rw [testBit_and, testBit_two_pow_sub_succ (by omega), testBit_two_pow_sub_one,
    testBit_two_pow_mul, testBit_div_two_pow]
  by_cases low : index < exponent
  · simp [low]
  · rw [Nat.sub_add_cancel (Nat.not_lt.mp low)]
    by_cases inside : index < width
    · simp [low, inside, not_lt.mp low]
    · have outside : value < 2 ^ index :=
        lt_of_lt_of_le fits (Nat.pow_le_pow_right (by decide) (Nat.not_lt.mp inside))
      simp [testBit_lt_two_pow outside]

/-! ### Rounding up without wrap-around -/

/-- When there is room above the value the rounded value does not wrap. -/
theorem alignAbove_of_room {width value exponent : Nat}
    (room : value + (2 ^ exponent - 1) < 2 ^ width) :
    alignAbove width value (2 ^ exponent) =
      (value + (2 ^ exponent - 1)) / 2 ^ exponent * 2 ^ exponent := by
  have narrow : exponent ≤ width := by
    by_contra wide
    have bound : 2 ^ (width + 1) ≤ 2 ^ exponent := Nat.pow_le_pow_right (by decide) (by omega)
    rw [pow_succ] at bound
    omega
  rw [alignAbove_two_pow width value exponent (by omega) narrow]
  exact mod_eq_of_lt (lt_of_le_of_lt (div_mul_le_self _ _) room)

/-! ### The macros as roundings -/

/-- The multiples of the alignment that are not above the value. -/
def multiplesBelow (alignment value : Nat) : Set Nat :=
  {multiple | alignment ∣ multiple ∧ multiple ≤ value}

/-- The multiples of the alignment that are not below the value. -/
def multiplesAbove (alignment value : Nat) : Set Nat :=
  {multiple | alignment ∣ multiple ∧ value ≤ multiple}

theorem multiplesBelow_subset (order : first ≤ second) :
    multiplesBelow alignment first ⊆ multiplesBelow alignment second :=
  fun _ member => ⟨member.1, member.2.trans order⟩

theorem multiplesAbove_subset (order : first ≤ second) :
    multiplesAbove alignment second ⊆ multiplesAbove alignment first :=
  fun _ member => ⟨member.1, order.trans member.2⟩

theorem isLeast_multiplesAbove (positive : 0 < alignment) (value : Nat) :
    IsLeast (multiplesAbove alignment value)
      ((value + (alignment - 1)) / alignment * alignment) := by
  have division := div_add_mod (value + (alignment - 1)) alignment
  have remainder := mod_lt (value + (alignment - 1)) positive
  rw [mul_comm] at division
  refine ⟨⟨dvd_mul_left _ _, by omega⟩, ?_⟩
  rintro multiple ⟨⟨count, rfl⟩, above⟩
  rw [mul_comm alignment count] at above ⊢
  refine Nat.mul_le_mul_right _ (Nat.lt_succ_iff.mp ((Nat.div_lt_iff_lt_mul positive).mpr ?_))
  rw [succ_mul]
  omega

section Rounding

variable {width value exponent : Nat} (fits : value < 2 ^ width) (narrow : exponent ≤ width)

include fits narrow

theorem alignBelow_isGreatest :
    IsGreatest (multiplesBelow (2 ^ exponent) value) (alignBelow width value (2 ^ exponent)) := by
  rw [alignBelow_two_pow width value exponent fits narrow]
  refine ⟨⟨dvd_mul_left _ _, div_mul_le_self _ _⟩, ?_⟩
  rintro multiple ⟨divides, below⟩
  calc multiple = multiple / 2 ^ exponent * 2 ^ exponent := (Nat.div_mul_cancel divides).symm
    _ ≤ value / 2 ^ exponent * 2 ^ exponent := Nat.mul_le_mul_right _ (Nat.div_le_div_right below)

/-- The alignment macro rounds up to the least multiple, or to zero if that is not in the type. -/
theorem alignAbove_isLeast :
    ∃ least, IsLeast (multiplesAbove (2 ^ exponent) value) least ∧
      alignAbove width value (2 ^ exponent) = if least < 2 ^ width then least else 0 := by
  have least := isLeast_multiplesAbove (Nat.two_pow_pos exponent) value
  refine ⟨_, least, ?_⟩
  rw [alignAbove_two_pow width value exponent fits narrow]
  -- The type's modulus is itself a multiple, so the least one is at most the modulus.
  have top := least.2 ⟨pow_dvd_pow 2 narrow, fits.le⟩
  split
  case isTrue inside => exact mod_eq_of_lt inside
  case isFalse outside => rw [le_antisymm top (not_lt.mp outside), mod_self]

omit fits in
theorem alignAbove_eq_least {multiple : Nat}
    (member : multiple ∈ multiplesAbove (2 ^ exponent) value) (inside : multiple < 2 ^ width) :
    IsLeast (multiplesAbove (2 ^ exponent) value) (alignAbove width value (2 ^ exponent)) := by
  obtain ⟨least, isLeast, rounded⟩ := alignAbove_isLeast (member.2.trans_lt inside) narrow
  rw [rounded, if_pos ((isLeast.2 member).trans_lt inside)]
  exact isLeast

theorem alignBelow_of_dvd (divides : 2 ^ exponent ∣ value) :
    alignBelow width value (2 ^ exponent) = value :=
  (alignBelow_isGreatest fits narrow).unique ⟨⟨divides, le_rfl⟩, fun _ member => member.2⟩

theorem alignAbove_of_dvd (divides : 2 ^ exponent ∣ value) :
    alignAbove width value (2 ^ exponent) = value :=
  (alignAbove_eq_least narrow ⟨divides, le_rfl⟩ fits).unique
    ⟨⟨divides, le_rfl⟩, fun _ member => member.2⟩

/-- Rounding up ends on a multiple inside the type, also when it wraps to zero. -/
theorem alignAbove_mem :
    alignAbove width value (2 ^ exponent) < 2 ^ width ∧
      2 ^ exponent ∣ alignAbove width value (2 ^ exponent) := by
  obtain ⟨least, isLeast, rounded⟩ := alignAbove_isLeast fits narrow
  rw [rounded]
  split
  case isTrue inside => exact ⟨inside, isLeast.1.1⟩
  case isFalse => exact ⟨Nat.two_pow_pos _, dvd_zero _⟩

end Rounding

/-- The macros round to the nearest multiples within the type, are idempotent and monotone. -/
theorem align_rounds (width exponent : Nat) (narrow : exponent < width) :
    (∀ value < 2 ^ width,
      IsGreatest (multiplesBelow (2 ^ exponent) value) (alignBelow width value (2 ^ exponent)) ∧
      (isAligned value (2 ^ exponent) = true ↔ 2 ^ exponent ∣ value) ∧
      (∃ least, IsLeast (multiplesAbove (2 ^ exponent) value) least ∧
        alignAbove width value (2 ^ exponent) = if least < 2 ^ width then least else 0) ∧
      alignBelow width (alignBelow width value (2 ^ exponent)) (2 ^ exponent) =
        alignBelow width value (2 ^ exponent) ∧
      alignAbove width (alignAbove width value (2 ^ exponent)) (2 ^ exponent) =
        alignAbove width value (2 ^ exponent)) ∧
    MonotoneOn (alignBelow width · (2 ^ exponent)) (Set.Iio (2 ^ width)) ∧
    MonotoneOn (alignAbove width · (2 ^ exponent))
      {value | ∃ multiple ∈ multiplesAbove (2 ^ exponent) value, multiple < 2 ^ width} := by
  refine ⟨fun value fits => ?_, ?_, ?_⟩
  · have below := alignBelow_isGreatest fits narrow.le
    have above := alignAbove_mem fits narrow.le
    refine ⟨below, ?_, alignAbove_isLeast fits narrow.le, ?_, ?_⟩
    · rw [isAligned_two_pow, dvd_iff_mod_eq_zero]
    · exact alignBelow_of_dvd (below.1.2.trans_lt fits) narrow.le below.1.1
    · exact alignAbove_of_dvd above.1 narrow.le above.2
  · intro first fitsFirst second fitsSecond order
    exact (alignBelow_isGreatest fitsFirst narrow.le).mono
      (alignBelow_isGreatest fitsSecond narrow.le) (multiplesBelow_subset order)
  · rintro first ⟨firstMultiple, firstAbove, firstInside⟩ second
      ⟨secondMultiple, secondAbove, secondInside⟩ order
    exact (alignAbove_eq_least narrow.le secondAbove secondInside).mono
      (alignAbove_eq_least narrow.le firstAbove firstInside) (multiplesAbove_subset order)

/-- Page rounding on both word sizes: zero stays zero, the last byte wraps to zero. -/
theorem align_rounds_page :
    (∃ least, IsLeast (multiplesAbove (2 ^ 12) 0) least ∧
      alignAbove 32 0 (2 ^ 12) = if least < 2 ^ 32 then least else 0) ∧
    (∃ least, IsLeast (multiplesAbove (2 ^ 12) 0xffffffffffffffff) least ∧
      alignAbove 64 0xffffffffffffffff (2 ^ 12) = if least < 2 ^ 64 then least else 0) ∧
    alignAbove 32 0 (2 ^ 12) = 0 ∧ alignAbove 64 0xffffffffffffffff (2 ^ 12) = 0 :=
  ⟨((align_rounds 32 12 (by decide)).1 0 (by decide)).2.2.1,
    ((align_rounds 64 12 (by decide)).1 0xffffffffffffffff (by decide)).2.2.1,
    by decide +kernel, by decide +kernel⟩

end AIMv6
