/-
This file proves that `vsnprintf` keeps to its buffer.

`set_ch` returns from the function with the character that would fill the buffer and puts the
terminating zero in its place. So whatever characters are put out, the first ones are stored up
to one byte in front of the end of the buffer, and nothing behind the buffer is written.
-/

import AIMv6.SnprintfOutput

namespace AIMv6

open List Function

namespace Snprintf

variable {abi : Abi}

/-- A character and the ones behind it fill the cells up to the stop. -/
theorem cells_cons (str : Nat → UInt8) (ch : UInt8) (chars : List UInt8) {pos stop : Nat}
    (room : pos < stop) (i : Nat) :
    (if pos + 1 ≤ i ∧ i < stop then chars.getD (i - (pos + 1)) 0
      else Function.update str pos ch i) =
      if pos ≤ i ∧ i < stop then (ch :: chars).getD (i - pos) 0 else str i := by
  rcases lt_trichotomy i pos with below | rfl | behind
  · rw [if_neg (by omega), if_neg (by omega), update_of_ne (by omega)]
  · rw [if_neg (by omega), if_pos (by omega), update_self, Nat.sub_self]
    rfl
  · rw [show i - pos = i - (pos + 1) + 1 by omega, getD_cons_succ, update_of_ne (by omega)]
    exact if_congr (by omega) rfl rfl

variable {size retval : Nat}

/-- What putting out characters does to a buffer that is not full: all of them are stored, or the
function returns when the buffer is full. -/
theorem foldlM_setCh (chars : List UInt8) (output : Output)
    (room : output.pos < size) : (output.pos + chars.length < size ∧
      ∃ str, chars.foldlM (setCh size) output = .ok ⟨str, output.pos + chars.length⟩ ∧
        ∀ i, str i = if output.pos ≤ i ∧ i < output.pos + chars.length then
          chars.getD (i - output.pos) 0 else output.str i) ∨
    (size ≤ output.pos + chars.length ∧
      ∃ str, chars.foldlM (setCh size) output = .error (.full (size, str)) ∧
        ∀ i, str i = if i = size - 1 then 0 else if output.pos ≤ i ∧ i < size - 1 then
          chars.getD (i - output.pos) 0 else output.str i) := by
  induction chars generalizing output with
  | nil =>
    refine Or.inl ⟨room, output.str, rfl, fun i => ?_⟩
    rw [if_neg (by rw [length_nil]; omega)]
  | cons ch chars inductionHypothesis =>
    rw [foldlM_cons, length_cons, setCh]
    by_cases last : output.pos + 1 = size
    · rw [if_pos last]
      refine Or.inr ⟨by omega, _, rfl, fun i => ?_⟩
      rw [update_apply]
      by_cases here : i = size - 1
      · rw [if_pos here, if_pos here]
      · rw [if_neg here, if_neg here, if_neg (by omega), update_of_ne (by omega)]
    · rw [if_neg last]
      have next : output.pos + 1 < size := by omega
      rcases inductionHypothesis ⟨Function.update output.str output.pos ch,
        output.pos + 1⟩ next with
        ⟨fits, str, done, cells⟩ | ⟨full, str, done, cells⟩
      · dsimp only at fits done cells
        rw [show output.pos + (chars.length + 1) = output.pos + 1 + chars.length by omega]
        exact Or.inl ⟨fits, str, done, fun i =>
          (cells i).trans (cells_cons output.str ch chars (by omega) i)⟩
      · dsimp only at full done cells
        refine Or.inr ⟨by omega, str, done, fun i => ?_⟩
        rw [cells]
        by_cases final : i = size - 1
        · rw [if_pos final, if_pos final]
        · rw [if_neg final, if_neg final]
          exact cells_cons output.str ch chars (by omega) i

theorem foldlM_listCh (chars listed : List UInt8) :
    chars.foldlM listCh listed = .ok (listed ++ chars) := by
  induction chars generalizing listed with
  | nil => rw [append_nil]; rfl
  | cons ch chars inductionHypothesis =>
    rw [foldlM_cons, listCh]
    exact (inductionHypothesis (listed ++ [ch])).trans (by simp)

/-- The unbounded output is what the abstract formatter prints. -/
theorem unbounded_of_print {fmt : CString} {args left : List (Arg abi)} {width : Int}
    {chars : List UInt8}
    (prints : (resume args).pending.print fmt.bytes = some (⟨.text, width, left⟩, chars)) :
    unbounded fmt args = .ok chars := by
  simp only [unbounded, run_of_print prints, foldlM_listCh, nil_append, dropLast_concat]

/-- A buffer of a size holds the first of the characters and is terminated, and nothing behind it
is written. -/
structure Holds (str after : Nat → UInt8) (size : Nat) (chars : List UInt8) : Prop where
  behind : ∀ i, size ≤ i → after i = str i
  stored : ∀ i < min chars.length (size - 1), after i = chars.getD i 0
  terminated : after (min chars.length (size - 1)) = 0

theorem vsnprintf_of_print {fmt : CString} {args left : List (Arg abi)} {width : Int}
    {chars : List UInt8}
    (prints : (resume args).pending.print fmt.bytes = some (⟨.text, width, left⟩, chars))
    (str : Nat → UInt8) (nonempty : 0 < size) :
    ∃ after, vsnprintf str size fmt args =
        .ok (if chars.length + 1 < size then chars.length else size, after) ∧
      Holds str after size chars := by
  have characters : ∀ i < chars.length, (chars ++ [0]).getD i 0 = chars.getD i 0 :=
    fun i bound => getD_append _ _ _ _ bound
  unfold vsnprintf
  rw [run_of_print prints]
  rcases foldlM_setCh (chars ++ [0]) ⟨str, 0⟩ nonempty with
    ⟨fits, memory, done, cells⟩ | ⟨full, memory, done, cells⟩
  · rw [done]
    simp only [length_append, length_singleton, Nat.zero_add, Nat.sub_zero, Nat.zero_le,
      true_and] at fits cells
    refine ⟨memory, ?_, fun i above => ?_, fun i below => ?_, ?_⟩
    · rw [if_pos fits]
      simp only [length_append, length_singleton, Nat.zero_add, Nat.add_sub_cancel]
    · rw [cells, if_neg (by omega)]
    · rw [cells, if_pos (by omega), characters i (by omega)]
    · rw [Nat.min_eq_left (by omega), cells, if_pos (by omega),
        getD_append_right _ _ _ _ le_rfl, Nat.sub_self]
      rfl
  · rw [done]
    simp only [length_append, length_singleton, Nat.zero_add, Nat.sub_zero, Nat.zero_le,
      true_and] at full cells
    refine ⟨memory, by rw [if_neg (by omega)], fun i above => ?_, fun i below => ?_, ?_⟩
    · rw [cells, if_neg (by omega), if_neg (by omega)]
    · rw [cells, if_neg (by omega), if_pos (by omega), characters i (by omega)]
    · rw [Nat.min_eq_right (by omega), cells, if_pos rfl]

/-- `buf` is never accessed outside of its bytes. For a complete format and matching arguments the
function returns, and the buffer holds the first characters of the unbounded output; so two
buffers of different sizes hold the same characters as far as the smaller one goes. -/
theorem vsnprintf_keeps_buffer :
    (∀ (str : Nat → UInt8) (size : Nat) (fmt : CString) (args : List (Arg abi)),
      vsnprintf str size fmt args ≠ .error .outside) ∧
    ∀ (fmt : CString) (args : List (Arg abi)), Matches fmt args →
      ∃ chars, unbounded fmt args = .ok chars ∧
        (∀ (str : Nat → UInt8) (size : Nat), 0 < size → ∃ retval after,
          vsnprintf str size fmt args = .ok (retval, after) ∧ Holds str after size chars) ∧
        ∀ (str : Nat → UInt8) (size other : Nat), 0 < size → size ≤ other →
          ∃ first second, vsnprintf str size fmt args = .ok first ∧
            vsnprintf str other fmt args = .ok second ∧
            ∀ i < min chars.length (size - 1), first.2 i = second.2 i := by
  constructor
  · intro str size fmt args faults
    have sound : ∀ output ch, setCh size output ch ≠ .error (.fault .outside) := by
      intro output ch
      unfold setCh
      split <;> nofun
    have inside := run_inside sound fmt args ⟨str, 0⟩
    unfold vsnprintf at faults
    rcases result : run (setCh size) fmt args ⟨str, 0⟩ with ⟨full | fault⟩ | output
    · rw [result] at faults
      cases faults
    · rw [result] at faults
      exact inside (result.trans (by rw [Except.error.inj faults]))
    · rw [result] at faults
      cases faults
  · intro fmt args matching
    obtain ⟨width, chars, prints⟩ := print_of_matches matching
    refine ⟨chars, unbounded_of_print prints, fun str size nonempty =>
      ⟨_, vsnprintf_of_print prints str nonempty⟩, fun str size other nonempty larger => ?_⟩
    obtain ⟨after, done, holds⟩ := vsnprintf_of_print prints str nonempty
    obtain ⟨otherAfter, otherDone, otherHolds⟩ :=
      vsnprintf_of_print prints str (lt_of_lt_of_le nonempty larger)
    refine ⟨_, _, done, otherDone, fun i below => ?_⟩
    exact (holds.stored i below).trans (otherHolds.stored i (by omega)).symm

/-- The format "%5u%%". -/
def sampleFormat : CString := ⟨[37, 53, 117, 37, 37], by decide⟩

/-- The number 42. -/
def sampleArgs : List (Arg .ilp32) := [.word 42]

theorem vsnprintf_keeps_buffer_eight :
    ∃ chars, unbounded sampleFormat sampleArgs = .ok chars ∧
      ∃ retval after, vsnprintf (fun _ => 7) 8 sampleFormat sampleArgs = .ok (retval, after) ∧
        Holds (fun _ => 7) after 8 chars := by
  obtain ⟨chars, lists, holds, -⟩ := vsnprintf_keeps_buffer.2 sampleFormat sampleArgs (by decide)
  exact ⟨chars, lists, holds _ 8 (by decide)⟩

/-! ### The value returned -/

/-- The `int` that a caller gets for the value returned. -/
def returned (retval : Nat) : Int := (retval : Int).bmod (2 ^ 32)

theorem returned_eq (retval : Nat) :
    returned retval = if (retval : Int) % 2 ^ 32 < 2 ^ 31 then (retval : Int) % 2 ^ 32
      else (retval : Int) % 2 ^ 32 - 2 ^ 32 :=
  Int.bmod_def _ _

theorem returned_of_lt (small : retval < 2 ^ 31) : returned retval = retval := by
  rw [returned_eq, if_pos (by omega)]
  omega

theorem returned_lt (large : 2 ^ 31 ≤ retval) : returned retval < retval := by
  rw [returned_eq]
  split <;> omega

theorem returned_ne_pred (retval : Nat) : returned retval ≠ (retval : Int) - 1 := by
  rw [returned_eq]
  split <;> omega

/-- The value says what the characters do in a buffer of a size: their number when they fit, and
at least the size exactly when some are dropped. -/
def Signals (size : Nat) (chars : List UInt8) (value : Int) : Prop :=
  (chars.length ≤ size - 1 → value = chars.length) ∧ ((size : Int) ≤ value ↔ size ≤ chars.length)

instance (size : Nat) (chars : List UInt8) (value : Int) : Decidable (Signals size chars value) :=
  inferInstanceAs (Decidable (_ ∧ _))

/-- The value returned says whether characters were dropped, exactly when the characters do not
just fill the buffer and the value can be returned as an `int`. -/
theorem truncation_signalled_iff {fmt : CString} {args : List (Arg abi)}
    (matching : Matches fmt args) (str : Nat → UInt8) {size : Nat} (nonempty : 0 < size) :
    ∃ chars retval after, unbounded fmt args = .ok chars ∧
      vsnprintf str size fmt args = .ok (retval, after) ∧
      (Signals size chars (returned retval) ↔
        chars.length ≠ size - 1 ∧ min chars.length size < 2 ^ 31) := by
  obtain ⟨width, chars, prints⟩ := print_of_matches matching
  obtain ⟨after, done, -⟩ := vsnprintf_of_print prints str nonempty
  refine ⟨chars, _, after, unbounded_of_print prints, done, ?_⟩
  rcases lt_trichotomy (chars.length + 1) size with fits | exact | dropped
  · rw [if_pos fits, min_eq_left (by omega)]
    constructor
    · rintro ⟨same, -⟩
      refine ⟨by omega, ?_⟩
      by_contra large
      have less := returned_lt (Nat.le_of_not_lt large)
      have equal := same (by omega)
      omega
    · rintro ⟨-, small⟩
      rw [returned_of_lt small]
      exact ⟨fun _ => rfl, by omega⟩
  · rw [if_neg (by omega)]
    refine ⟨fun signals => ?_, fun other => absurd (show chars.length = size - 1 by omega) other.1⟩
    have equal := signals.1 (by omega)
    have different := returned_ne_pred size
    omega
  · rw [if_neg (by omega), min_eq_right (by omega)]
    constructor
    · rintro ⟨-, large⟩
      refine ⟨by omega, ?_⟩
      by_contra wraps
      have less := returned_lt (Nat.le_of_not_lt wraps)
      omega
    · rintro ⟨-, small⟩
      rw [returned_of_lt small]
      exact ⟨by omega, by omega⟩

theorem truncation_signalled_eight :
    ∃ chars retval after, unbounded sampleFormat sampleArgs = .ok chars ∧
      vsnprintf (fun _ => 7) 8 sampleFormat sampleArgs = .ok (retval, after) ∧
      Signals 8 chars (returned retval) := by
  obtain ⟨chars, retval, after, lists, done, iff⟩ :=
    truncation_signalled_iff (by decide : Matches sampleFormat sampleArgs) (fun _ => 7)
      (by decide : 0 < 8)
  have shown : unbounded sampleFormat sampleArgs = .ok [48, 48, 48, 52, 50, 37] := rfl
  obtain rfl := Except.ok.inj (lists.symm.trans shown)
  exact ⟨_, retval, after, lists, done, iff.mpr (by decide)⟩

/-- The format "x". -/
def oneChar : CString := ⟨[120], by decide⟩

/-- One character fits into a buffer of two bytes, but the value returned is two. -/
theorem full_buffer_signalled :
    Matches oneChar ([] : List (Arg .ilp32)) ∧
      unbounded oneChar ([] : List (Arg .ilp32)) = .ok [120] ∧
      (∃ after, vsnprintf (fun _ => 7) 2 oneChar ([] : List (Arg .ilp32)) = .ok (2, after)) ∧
      ¬ Signals 2 [120] (returned 2) :=
  ⟨by decide, rfl, ⟨_, rfl⟩, by decide⟩

end Snprintf

end AIMv6
