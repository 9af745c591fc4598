/-
This file says what a search for the first or the last position of a property
answers: the position counted from one, or zero when there is none. The answers
are unique, and the answer for a row of positions that is joined from a lower
and an upper part is that of the part which holds it.
-/

import Mathlib.Tactic
import Mathlib.Order.Bounds.Basic

namespace AIMv6

/-- The answer of a search for the extreme position, counted from one; zero is "none". -/
def IndexAnswer (extreme : Set Nat → Nat → Prop) (holds : Nat → Bool) (answer : Int) : Prop :=
  (∃ index : Nat, extreme {position | holds position = true} index ∧ answer = index + 1) ∨
    ((∀ position, holds position = false) ∧ answer = 0)

/-- The answer of a search for the least position. -/
def FirstIndex : (Nat → Bool) → Int → Prop := IndexAnswer IsLeast

/-- The answer of a search for the greatest position. -/
def LastIndex : (Nat → Bool) → Int → Prop := IndexAnswer IsGreatest

section Answers

variable {holds : Nat → Bool} {answer other : Int} {extreme : Set Nat → Nat → Prop}

theorem IndexAnswer.of_extreme {index : Nat}
    (found : extreme {position | holds position = true} index) :
    IndexAnswer extreme holds (index + 1) :=
  Or.inl ⟨index, found, rfl⟩

theorem IndexAnswer.of_none
    (none : ∀ position, holds position = false) : IndexAnswer extreme holds 0 :=
  Or.inr ⟨none, rfl⟩

theorem firstIndex_zero_iff : FirstIndex holds 0 ↔ ∀ position, holds position = false := by
  refine ⟨fun first => ?_, IndexAnswer.of_none⟩
  rcases first with ⟨index, _, zero⟩ | ⟨none, _⟩
  · omega
  · exact none

/-- Two answers to one search are equal when an extreme position is unique and is a position. -/
theorem IndexAnswer.unique (member : ∀ positions index, extreme positions index → index ∈ positions)
    (same : ∀ positions first second, extreme positions first → extreme positions second →
      first = second)
    (first : IndexAnswer extreme holds answer) (second : IndexAnswer extreme holds other) :
    answer = other := by
  rcases first with ⟨index, found, rfl⟩ | ⟨none, rfl⟩
  · rcases second with ⟨index', found', rfl⟩ | ⟨none, rfl⟩
    · rw [same _ _ _ found found']
    · have here : holds index = true := member _ _ found
      simp [none] at here
  · rcases second with ⟨index', found', rfl⟩ | ⟨_, rfl⟩
    · have here : holds index' = true := member _ _ found'
      simp [none] at here
    · rfl

theorem FirstIndex.unique (first : FirstIndex holds answer) (second : FirstIndex holds other) :
    answer = other :=
  IndexAnswer.unique (fun positions index (found : IsLeast positions index) => found.1)
    (fun _ _ _ => IsLeast.unique) first second

theorem LastIndex.unique (first : LastIndex holds answer) (second : LastIndex holds other) :
    answer = other :=
  IndexAnswer.unique (fun positions index (found : IsGreatest positions index) => found.1)
    (fun _ _ _ => IsGreatest.unique) first second

theorem exists_isLeast (some : ∃ position, holds position = true) :
    ∃ index, IsLeast {position | holds position = true} index :=
  ⟨Nat.find some, Nat.find_spec some, fun _ member => Nat.find_min' some member⟩

theorem exists_isGreatest {bound : Nat} (some : ∃ position, holds position = true)
    (bounded : ∀ position, holds position = true → position < bound) :
    ∃ index, IsGreatest {position | holds position = true} index := by
  obtain ⟨position, here⟩ := some
  exact ⟨Nat.findGreatest (holds · = true) bound,
    Nat.findGreatest_spec (P := (holds · = true)) (bounded position here).le here,
    fun _ member => Nat.le_findGreatest (bounded _ member).le member⟩

end Answers

/-! ### Rows joined from two parts -/

/-- The row is the lower part on the first `width` positions and the upper part above them. -/
structure Joined (width : Nat) (holds lower upper : Nat → Bool) : Prop where
  below : ∀ position < width, holds position = lower position
  above : ∀ position, holds (position + width) = upper position
  bounded : ∀ position, lower position = true → position < width

namespace Joined

variable {width : Nat} {holds lower upper : Nat → Bool} {answer : Int}
  (joined : Joined width holds lower upper)

include joined

theorem of_lower {position : Nat} (here : lower position = true) : holds position = true :=
  (joined.below _ (joined.bounded _ here)).trans here

theorem cases {position : Nat} (here : holds position = true) :
    lower position = true ∨ ∃ rest, position = rest + width ∧ upper rest = true := by
  rcases Nat.lt_or_ge position width with low | high
  · exact Or.inl ((joined.below _ low).symm.trans here)
  · obtain ⟨rest, rfl⟩ := Nat.exists_eq_add_of_le' high
    exact Or.inr ⟨rest, rfl, (joined.above rest).symm.trans here⟩

theorem none (low : ∀ position, lower position = false)
    (high : ∀ position, upper position = false) (position : Nat) : holds position = false := by
  by_contra here
  rcases joined.cases (Bool.not_eq_false _ ▸ here) with inLower | ⟨rest, _, inUpper⟩
  · simp [low] at inLower
  · simp [high] at inUpper

theorem firstIndex_lower (some : ∃ position, lower position = true)
    (first : FirstIndex lower answer) : FirstIndex holds answer := by
  rcases first with ⟨index, found, rfl⟩ | ⟨none, rfl⟩
  · refine IndexAnswer.of_extreme ⟨joined.of_lower found.1, fun position member => ?_⟩
    rcases joined.cases member with inLower | ⟨rest, rfl, _⟩
    · exact found.2 inLower
    · exact (joined.bounded _ found.1).le.trans (Nat.le_add_left _ _)
  · obtain ⟨position, here⟩ := some
    simp [none] at here

theorem firstIndex_upper (none : ∀ position, lower position = false)
    (some : ∃ position, upper position = true) (first : FirstIndex upper answer) :
    FirstIndex holds (answer + width) := by
  rcases first with ⟨index, found, rfl⟩ | ⟨noneUpper, rfl⟩
  · rw [show ((index : Int) + 1 + width) = ((index + width : Nat) : Int) + 1 by omega]
    refine IndexAnswer.of_extreme ⟨(joined.above index).trans found.1, fun position member => ?_⟩
    rcases joined.cases member with inLower | ⟨rest, rfl, inUpper⟩
    · simp [none] at inLower
    · exact Nat.add_le_add_right (found.2 inUpper) width
  · obtain ⟨position, here⟩ := some
    simp [noneUpper] at here

theorem lastIndex_upper (some : ∃ position, upper position = true) (last : LastIndex upper answer) :
    LastIndex holds (answer + width) := by
  rcases last with ⟨index, found, rfl⟩ | ⟨none, rfl⟩
  · rw [show ((index : Int) + 1 + width) = ((index + width : Nat) : Int) + 1 by omega]
    refine IndexAnswer.of_extreme ⟨(joined.above index).trans found.1, fun position member => ?_⟩
    rcases joined.cases member with inLower | ⟨rest, rfl, inUpper⟩
    · exact (joined.bounded _ inLower).le.trans (Nat.le_add_left _ _)
    · exact Nat.add_le_add_right (found.2 inUpper) width
  · obtain ⟨position, here⟩ := some
    simp [none] at here

theorem lastIndex_lower (none : ∀ position, upper position = false)
    (last : LastIndex lower answer) : LastIndex holds answer := by
  rcases last with ⟨index, found, rfl⟩ | ⟨noneLower, rfl⟩
  · refine IndexAnswer.of_extreme ⟨joined.of_lower found.1, fun position member => ?_⟩
    rcases joined.cases member with inLower | ⟨rest, _, inUpper⟩
    · exact found.2 inLower
    · simp [none] at inUpper
  · exact IndexAnswer.of_none (joined.none noneLower none)

theorem lastIndex_lower_le (last : LastIndex lower answer) : answer ≤ width := by
  rcases last with ⟨index, found, rfl⟩ | ⟨_, rfl⟩
  · have := joined.bounded _ found.1
    omega
  · exact Int.natCast_nonneg _

end Joined

end AIMv6
