/-
This file compares the output of two formats in a row with the outputs of the two.

The only thing one directive can leave behind for the next is the width: a directive that is
not recognised is printed as it stands without going past the point where the width is reset.
So the digits in such a directive count for the next one. The output of two formats is the
one output behind the other for every second format exactly when the digits that the first
one leaves behind spell zero.
-/

import AIMv6.SnprintfBuffer

namespace AIMv6

open Option

namespace Snprintf

variable {abi : Abi}

/-! ### Two formats in a row -/

theorem print_append (first second : List UInt8) (pending : Pending abi) :
    pending.print (first ++ second) = (pending.print first).bind fun early =>
        (early.1.print second).map fun late => (late.1, early.2 ++ late.2) := by
  induction first generalizing pending with
  | nil =>
    exact Option.map_id'.symm
  | cons ch first inductionHypothesis =>
    rw [List.cons_append, Pending.print, Pending.print, bind_assoc]
    refine congrArg _ (funext fun step => ?_)
    rw [inductionHypothesis, map_bind, bind_map]
    refine congrArg _ (funext fun early => ?_)
    rw [Function.comp_apply, map_map]
    refine congrArg (fun f => Option.map f _) (funext fun late => ?_)
    simp only [Function.comp_apply, List.append_assoc]

/-- More arguments. -/
def Pending.extend (pending : Pending abi) (later : List (Arg abi)) : Pending abi :=
  { pending with args := pending.args ++ later }

variable {ch : UInt8} {chars fmt : List UInt8} {pending next : Pending abi} {case : Case}
  {width after : Int} {args : List (Arg abi)} {digits : List Nat}

theorem Case.print_extend {rest : List (Arg abi)}
    (prints : case.print width args ch = some (after, rest, chars)) (later : List (Arg abi)) :
    case.print width (args ++ later) ch = some (after, rest ++ later, chars) := by
  cases case with
  | percent | zero | digit | default =>
    cases prints
    rfl
  | signed | unsigned | pointer | char | string =>
    rcases args with _ | ⟨value | value | value, args⟩ <;> cases prints
    rfl

theorem next_extend (does : pending.next ch = some (next, chars)) (later : List (Arg abi)) :
    (pending.extend later).next ch = some (next.extend later, chars) := by
  unfold Pending.next at does ⊢
  by_cases switches : pending.place.switches ch = true
  · rw [if_pos switches] at does
    rw [if_pos (show (pending.extend later).place.switches ch = true from switches)]
    obtain ⟨⟨after, rest, shown⟩, prints, same⟩ := map_eq_some_iff.mp does
    obtain ⟨rfl, rfl⟩ := Prod.mk.inj same
    rw [show (switchCase ch).print (pending.extend later).width (pending.extend later).args ch =
      _ from Case.print_extend prints later]
    rfl
  · rw [if_neg switches] at does
    rw [if_neg (show ¬ (pending.extend later).place.switches ch = true from switches)]
    obtain ⟨place, width, args⟩ := pending
    cases place <;> cases does <;> rfl

theorem print_extend (prints : pending.print fmt = some (next, chars)) (later : List (Arg abi)) :
    (pending.extend later).print fmt = some (next.extend later, chars) := by
  induction fmt generalizing pending next chars with
  | nil =>
    cases prints
    rfl
  | cons ch fmt inductionHypothesis =>
    obtain ⟨⟨middle, first⟩, here, behind⟩ := bind_eq_some_iff.mp prints
    obtain ⟨⟨last, rest⟩, there, same⟩ := map_eq_some_iff.mp behind
    obtain ⟨rfl, rfl⟩ := Prod.mk.inj same
    rw [Pending.print, next_extend here, bind_some, inductionHypothesis there]
    rfl

/-! ### The digits that are left behind -/

/-- The value of a digit. -/
def digitValue (ch : UInt8) : Nat := ch.toNat - '0'.toUInt8.toNat

/-- The digits left behind by a case of the `switch`, given those it is reached with. -/
def Case.stray (ch : UInt8) (digits : List Nat) : Case → List Nat
  | digit => digits ++ [digitValue ch]
  | zero => digits
  | default => digits
  | _ => []

/-- The digits left behind by a byte of the format. -/
def Place.stray (place : Place) (ch : UInt8) (digits : List Nat) : List Nat :=
  if place.switches ch then (switchCase ch).stray ch digits
  else match place with
    | number => digits ++ [digitValue ch]
    | _ => digits

/-- The digits of the unrecognised directives behind the last recognised one. -/
def strayDigits (place : Place) (digits : List Nat) : List UInt8 → List Nat
  | [] => digits
  | ch :: fmt => strayDigits (place.next ch) (place.stray ch digits) fmt

/-- The number that digits spell. -/
def spelled (digits : List Nat) : Nat := Nat.ofDigits 10 digits.reverse

theorem spelled_concat (digits : List Nat) (digit : Nat) :
    spelled (digits ++ [digit]) = spelled digits * 10 + digit := by
  rw [spelled, List.reverse_concat, Nat.ofDigits_cons, spelled]
  omega

/-- Reading one more digit of a width. -/
theorem widen_spelled {digits : List Nat} {ch : UInt8} (digit : isDigit ch = true) :
    widen abi (ssize abi (spelled digits)) ch =
      ssize abi (spelled (digits ++ [digitValue ch])) := by
  have value : (ch.toNat : Int) - ('0'.toUInt8.toNat : Int) = (digitValue ch : Int) := by
    have least : '0'.toUInt8.toNat ≤ ch.toNat := by
      simp only [isDigit, Bool.and_eq_true, decide_eq_true_eq] at digit
      exact UInt8.le_iff_toNat_le.mp digit.1
    rw [digitValue, Nat.cast_sub least]
  rw [widen, value, spelled_concat]
  simp only [ssize, Int.bmod_mul_bmod, Int.bmod_add_bmod]
  push_cast
  rfl

theorem of_ite {condition : Prop} [Decidable condition] {first second : Case}
    (different : first ≠ case) (same : (if condition then first else second) = case) :
    second = case := by
  split at same
  · exact absurd same different
  · exact same

theorem isDigit_of_switchCase (digit : switchCase ch = .digit) : isDigit ch = true := by
  iterate 9 replace digit := of_ite (by decide) digit
  by_contra other
  rw [if_neg other] at digit
  cases digit

/-- The width is the number that the digits left behind spell. -/
theorem next_width (does : pending.next ch = some (next, chars))
    (width : pending.width = ssize abi (spelled digits)) :
    next.place = pending.place.next ch ∧
      next.width = ssize abi (spelled (pending.place.stray ch digits)) := by
  have reset : (0 : Int) = ssize abi (spelled []) := Int.zero_bmod.symm
  unfold Pending.next at does
  unfold Place.stray
  by_cases switches : pending.place.switches ch = true
  · rw [if_pos switches] at does ⊢
    obtain ⟨⟨after, rest, shown⟩, prints, same⟩ := map_eq_some_iff.mp does
    obtain ⟨rfl, rfl⟩ := Prod.mk.inj same
    refine ⟨rfl, ?_⟩
    cases case : switchCase ch with
    | digit =>
      rw [case] at prints
      cases prints
      rw [width]
      exact widen_spelled (isDigit_of_switchCase case)
    | zero | default =>
      rw [case] at prints
      cases prints
      exact width
    | percent =>
      rw [case] at prints
      cases prints
      exact reset
    | signed | unsigned | pointer | char | string =>
      rw [case] at prints
      rcases pending with ⟨place, was, _ | ⟨value | value | value, args⟩⟩ <;> cases prints
      exact reset
  · rw [if_neg switches] at does ⊢
    obtain ⟨place, was, args⟩ := pending
    cases place with
    | text =>
      cases does
      exact ⟨rfl, width⟩
    | directive => exact absurd rfl switches
    | number =>
      have digit : isDigit ch = true := by simpa [Place.switches] using switches
      cases does
      refine ⟨rfl, ?_⟩
      rw [width]
      exact widen_spelled digit

theorem print_width (prints : pending.print fmt = some (next, chars))
    (width : pending.width = ssize abi (spelled digits)) :
    next.width = ssize abi (spelled (strayDigits pending.place digits fmt)) := by
  induction fmt generalizing pending next chars digits with
  | nil =>
    cases prints
    exact width
  | cons ch fmt inductionHypothesis =>
    obtain ⟨⟨middle, first⟩, here, behind⟩ := bind_eq_some_iff.mp prints
    obtain ⟨⟨last, rest⟩, there, same⟩ := map_eq_some_iff.mp behind
    obtain ⟨rfl, rfl⟩ := Prod.mk.inj same
    obtain ⟨place, middleWidth⟩ := next_width here width
    rw [strayDigits, ← place]
    exact inductionHypothesis there middleWidth

/-! ### When the outputs are independent -/

theorem ssize_eq_zero {number : Nat} : ssize abi number = 0 ↔ number % abi.modulus = 0 := by
  rw [ssize, ← Int.dvd_iff_bmod_eq_zero, Int.natCast_dvd_natCast, Nat.dvd_iff_mod_eq_zero]

/-- What is printed behind a format that leaves a width behind. -/
theorem unbounded_append {fmt other : CString} {more left : List (Arg abi)}
    {first second : List UInt8}
    (prints : (resume args).pending.print fmt.bytes = some (⟨.text, width, []⟩, first))
    (behind : (⟨.text, width, more⟩ : Pending abi).print other.bytes =
      some (⟨.text, after, left⟩, second)) :
    unbounded (fmt.append other) (args ++ more) = .ok (first ++ second) := by
  refine @unbounded_of_print _ _ _ left after _ ?_
  have early := print_extend prints more
  show ((resume args).pending.extend more).print (fmt.bytes ++ other.bytes) = _
  rw [print_append, early, bind_some]
  show ((⟨.text, width, [] ++ more⟩ : Pending abi).print other.bytes).map _ = _
  rw [List.nil_append, behind]
  rfl

/-- The formats "%s" and "%u". -/
def stringFormat : CString := ⟨[37, 115], by decide⟩

@[inherit_doc stringFormat]
def numberFormat : CString := ⟨[37, 117], by decide⟩

theorem print_numberFormat (width : Int) (value : BitVec abi.bits) :
    (⟨.text, width, [.word value]⟩ : Pending abi).print numberFormat.bytes =
      some (⟨.text, 0, []⟩, numberChars false width .decimal value.toNat) := by
  show some (_, [] ++ (numberChars false width .decimal value.toNat ++ [])) = _
  rw [List.append_nil]
  rfl

theorem print_stringFormat (width : Int) (value : Option CString) :
    (⟨.text, width, [.string value]⟩ : Pending abi).print stringFormat.bytes =
      some (⟨.text, 0, []⟩, stringChars value width) := by
  show some (_, [] ++ (stringChars value width ++ [])) = _
  rw [List.append_nil]
  rfl

/-- The output of a format and any other behind it is the output of the one and that of the other,
exactly when the digits it leaves behind spell zero. -/
theorem outputs_concat_iff {fmt : CString} {args : List (Arg abi)} (matching : Matches fmt args) :
    (∀ (other : CString) (more : List (Arg abi)), Matches other more →
      ∃ first second, unbounded fmt args = .ok first ∧ unbounded other more = .ok second ∧
        unbounded (fmt.append other) (args ++ more) = .ok (first ++ second)) ↔
    spelled (strayDigits .text [] fmt.bytes) % abi.modulus = 0 := by
  obtain ⟨width, chars, prints⟩ := print_of_matches matching
  have left : width = ssize abi (spelled (strayDigits .text [] fmt.bytes)) :=
    print_width prints Int.zero_bmod.symm
  rw [← ssize_eq_zero, ← left]
  constructor
  · intro independent
    by_contra nonzero
    have printed := unbounded_of_print prints
    have unequal : ∀ (other : CString) (more : List (Arg abi)) (alone behind : List UInt8),
        Matches other more → unbounded other more = .ok alone →
        unbounded (fmt.append other) (args ++ more) = .ok (chars ++ behind) → alone = behind := by
      intro other more alone behind otherMatching shown together
      obtain ⟨first, second, one, two, both⟩ := independent other more otherMatching
      obtain rfl := Except.ok.inj (printed.symm.trans one)
      obtain rfl := Except.ok.inj (shown.symm.trans two)
      exact List.append_cancel_left (Except.ok.inj (both.symm.trans together))
    rcases lt_or_gt_of_ne nonzero with negative | positive
    · have same := unequal numberFormat [.word 0] _ _ ⟨rfl, rfl⟩
        (unbounded_of_print (print_numberFormat 0 0))
        (unbounded_append prints (print_numberFormat width 0))
      rw [numberChars, numberChars, if_neg (by decide), if_pos negative] at same
      simp [numeral] at same
    · have same := unequal stringFormat [.string (some ⟨[], List.not_mem_nil⟩)] _ _ ⟨rfl, rfl⟩
        (unbounded_of_print (print_stringFormat 0 _))
        (unbounded_append prints (print_stringFormat width _))
      have length := congrArg List.length same
      simp [stringChars] at length
      omega
  · rintro rfl other more otherMatching
    obtain ⟨after, second, behind⟩ := print_of_matches otherMatching
    exact ⟨chars, second, unbounded_of_print prints, unbounded_of_print behind,
      unbounded_append prints behind⟩

theorem outputs_concat_iff_sample :
    spelled (strayDigits .text [] sampleFormat.bytes) % Abi.ilp32.modulus = 0 ∧
      ∃ first second, unbounded sampleFormat sampleArgs = .ok first ∧
        unbounded numberFormat ([.word 7] : List (Arg .ilp32)) = .ok second ∧
        unbounded (sampleFormat.append numberFormat) (sampleArgs ++ [.word 7]) =
          .ok (first ++ second) :=
  ⟨by decide, (outputs_concat_iff (by decide)).mpr (by decide) numberFormat [.word 7] (by decide)⟩

/-- The format "%5q", whose directive is not recognised. -/
def unknownFormat : CString := ⟨[37, 53, 113], by decide⟩

/-- The width of "%5q" is used for "%u": the output for 7 is "%q00007" and not "%q7". -/
theorem width_left_behind :
    Matches unknownFormat ([] : List (Arg .ilp32)) ∧
      unbounded unknownFormat ([] : List (Arg .ilp32)) = .ok [37, 113] ∧
      unbounded numberFormat ([.word 7] : List (Arg .ilp32)) = .ok [55] ∧
      unbounded (unknownFormat.append numberFormat) ([.word 7] : List (Arg .ilp32)) =
        .ok [37, 113, 48, 48, 48, 48, 55] :=
  ⟨by decide, rfl, rfl, rfl⟩

end Snprintf

end AIMv6
