/-
This file models the strings of the C library and `strcmp` of `lib/libc/strcmp.c`.

A string is given by the bytes in front of the zero byte that ends it, and none of them is
zero. `strcmp` returns zero exactly for equal strings.
-/

import Mathlib.Data.List.Basic
import Mathlib.Tactic

namespace AIMv6

/-- A string: the bytes in front of its terminating zero byte. -/
structure CString where
  bytes : List UInt8
  nonzero : 0 ∉ bytes
  deriving DecidableEq, Repr

/-- One string behind another. -/
def CString.append (first second : CString) : CString :=
  ⟨first.bytes ++ second.bytes, fun member =>
    (List.mem_append.mp member).elim first.nonzero second.nonzero⟩

/-- The loop of `strcmp` from one position on; the byte behind the last one is zero. -/
def strcmpLoop : List UInt8 → List UInt8 → Int
  | [], second => 0 - ((second.headD 0).toNat : Int)
  | char :: rest, second =>
    if char = second.headD 0 then
      if char = 0 then 0 else strcmpLoop rest second.tail
    else (char.toNat : Int) - ((second.headD 0).toNat : Int)

/-- `strcmp`. -/
def strcmp (first second : CString) : Int := strcmpLoop first.bytes second.bytes

theorem strcmpLoop_eq_zero {first second : List UInt8} (nonzero : 0 ∉ first)
    (otherNonzero : 0 ∉ second) : strcmpLoop first second = 0 ↔ first = second := by
  induction first generalizing second with
  | nil =>
    rcases second with _ | ⟨char, rest⟩
    · simp [strcmpLoop]
    · have positive : char.toNat ≠ 0 := fun zero =>
        otherNonzero (List.mem_cons.mpr (Or.inl (UInt8.toNat_inj.mp zero).symm))
      simp [strcmpLoop, positive]
  | cons char rest inductionHypothesis =>
    rcases second with _ | ⟨other, tail⟩
    · have positive : char ≠ 0 := fun zero => nonzero (List.mem_cons.mpr (Or.inl zero.symm))
      have number : char.toNat ≠ 0 := fun zero => positive (UInt8.toNat_inj.mp zero)
      simp [strcmpLoop, positive, number]
    · have positive : char ≠ 0 := fun zero => nonzero (List.mem_cons.mpr (Or.inl zero.symm))
      rw [strcmpLoop, List.headD_cons, List.tail_cons]
      by_cases same : char = other
      · subst same
        rw [if_pos rfl, if_neg positive, inductionHypothesis
          (fun member => nonzero (List.mem_cons_of_mem _ member))
          fun member => otherNonzero (List.mem_cons_of_mem _ member), List.cons.injEq]
        exact ⟨fun equal => ⟨rfl, equal⟩, And.right⟩
      · have different : char.toNat ≠ other.toNat := mt UInt8.toNat_inj.mp same
        rw [if_neg same, List.cons.injEq]
        exact ⟨fun zero => absurd zero (by omega), fun equal => absurd equal.1 same⟩

theorem strcmp_eq_zero {first second : CString} : strcmp first second = 0 ↔ first = second := by
  rw [strcmp, strcmpLoop_eq_zero first.nonzero second.nonzero, CString.mk.injEq]

end AIMv6
