/-
This file says which numerals `vsnprintf` prints for integers, without and with a width.

A numeral is read back by a function of its own, and a numeral is canonical for a number when it
reads as the number, has a sign exactly for a negative number, and has no zero in front of other
digits. There is one canonical numeral for each number, and this is the one that is printed
without a width.

With a width the source counts the width down over the digits, so that it prints as many digits as
the width says: zeros in front when there are fewer, and only the lower ones when there are more.
The test for zero padding is always true, so the branch that pads with spaces is never reached.
-/

import AIMv6.SnprintfConcat

namespace AIMv6

open List Nat

namespace Snprintf

variable {abi : Abi}

/-! ### Reading numerals -/

/-- The value of a digit, with the letters of the hexadecimal ones in lower case. -/
def charValue (ch : UInt8) : Nat := if isDigit ch then ch.toNat - 48 else ch.toNat - 87

/-- The character is a digit of the base. -/
def isBaseDigit (base : Nat) (ch : UInt8) : Bool :=
  (isDigit ch || ('a'.toUInt8 ≤ ch && ch ≤ 'f'.toUInt8)) && decide (charValue ch < base)

/-- The number that one or more digits of a base stand for. -/
def readDigits (base : Nat) (chars : List UInt8) : Option Nat :=
  if chars ≠ [] ∧ chars.all (isBaseDigit base) then
    some (Nat.ofDigits base (chars.map charValue).reverse)
  else none

/-- The number that a numeral stands for, with a sign or without one. -/
def readNumeral (base : Nat) : List UInt8 → Option Int
  | [] => none
  | ch :: chars =>
    if ch = '-'.toUInt8 then (readDigits base chars).map fun number : Nat => -(number : Int)
    else (readDigits base (ch :: chars)).map fun number : Nat => (number : Int)

/-- The sign of a number. -/
def signChars (value : Int) : List UInt8 := if value < 0 then ['-'.toUInt8] else []

/-- The numeral of a number: it reads as the number, has a sign exactly for a negative number, and
no zero in front of other digits. -/
structure Canonical (base : Nat) (value : Int) (chars : List UInt8) : Prop where
  reads : readNumeral base chars = some value
  sign : chars.head? = some '-'.toUInt8 ↔ value < 0
  lead : ∀ digits, chars = signChars value ++ digits → digits.head? = some '0'.toUInt8 →
    digits = ['0'.toUInt8]

theorem charValue_digits : ∀ value < 16, charValue (digits value) = value ∧
    (isDigit (digits value) || ('a'.toUInt8 ≤ digits value && digits value ≤ 'f'.toUInt8)) = true ∧
    digits value ≠ '-'.toUInt8 ∧ digits value ≠ ' '.toUInt8 ∧ digits value ≠ 0 := by
  decide

theorem digits_charValue (ch : UInt8) :
    (isDigit ch || ('a'.toUInt8 ≤ ch && ch ≤ 'f'.toUInt8)) = true → digits (charValue ch) = ch := by
  obtain ⟨bits⟩ := ch
  revert bits
  decide +kernel

theorem isBaseDigit_digits {base value : Nat} (small : base ≤ 16) (proper : value < base) :
    isBaseDigit base (digits value) = true := by
  obtain ⟨same, digit, -⟩ := charValue_digits value (by omega)
  rw [isBaseDigit, digit, same, decide_eq_true proper]
  rfl

theorem Base.le_sixteen (base : Base) : base.value ≤ 16 := by
  cases base <;> decide

theorem numeral_ne_nil (base uval : Nat) : numeral base uval ≠ [] := by
  unfold numeral
  split
  · nofun
  · rename_i positive
    exact mt map_eq_nil_iff.mp (digits_ne_nil_iff_ne_zero.mpr positive)

/-- The digits of a numeral from the lowest on, as numbers. -/
theorem exists_digits (base : Base) (uval : Nat) : ∃ values, numeral base.value uval =
    values.map digits ∧ (∀ value ∈ values, value < base.value) ∧
      Nat.ofDigits base.value values = uval := by
  have proper : 1 < base.value := lt_of_lt_of_le (by decide) base.eight_le
  unfold numeral
  split
  · rename_i zero
    refine ⟨[0], rfl, fun value member => ?_, zero.symm⟩
    rw [mem_singleton.mp member]
    omega
  · exact ⟨_, rfl, fun value member => digits_lt_base proper member,
      ofDigits_digits base.value uval⟩

theorem readDigits_numeral (base : Base) (uval : Nat) :
    readDigits base.value (numeral base.value uval).reverse = some uval := by
  obtain ⟨values, same, proper, number⟩ := exists_digits base uval
  have digit : ∀ ch ∈ (numeral base.value uval).reverse, isBaseDigit base.value ch = true := by
    intro ch member
    rw [same, mem_reverse] at member
    obtain ⟨value, there, rfl⟩ := mem_map.mp member
    exact isBaseDigit_digits base.le_sixteen (proper value there)
  have back : (values.map digits).map charValue = values := by
    rw [map_map]
    refine (map_congr_left fun value member => ?_).trans (map_id values)
    exact (charValue_digits value (lt_of_lt_of_le (proper value member) base.le_sixteen)).1
  rw [readDigits, if_pos ⟨mt reverse_eq_nil_iff.mp (numeral_ne_nil _ _),
    all_eq_true.mpr digit⟩, map_reverse, reverse_reverse, same, back, number]

variable {chars : List UInt8} {uval width : Nat}

/-- Digits without a zero in front of others are those of the number they stand for. -/
theorem eq_numeral_of_read {base : Base} (reads : readDigits base.value chars = some uval)
    (lead : chars.head? = some '0'.toUInt8 → chars = ['0'.toUInt8]) :
    chars = (numeral base.value uval).reverse := by
  unfold readDigits at reads
  split at reads
  · rename_i legal
    obtain rfl := Option.some.inj reads
    have proper : ∀ ch ∈ chars, digits (charValue ch) = ch ∧ charValue ch < base.value := by
      intro ch member
      have digit := all_eq_true.mp legal.2 ch member
      rw [isBaseDigit, Bool.and_eq_true, decide_eq_true_iff] at digit
      exact ⟨digits_charValue ch digit.1, digit.2⟩
    have spelled : (chars.map charValue).map digits = chars := by
      rw [map_map]
      exact (map_congr_left fun ch member => (proper ch member).1).trans (map_id chars)
    by_cases zero : chars.head? = some '0'.toUInt8
    · rw [lead zero]
      rfl
    · obtain ⟨first, rest, rfl⟩ := exists_cons_of_ne_nil legal.1
      have nonzero : charValue first ≠ 0 := by
        intro none
        have same := (proper first mem_cons_self).1
        rw [none] at same
        exact zero (congrArg some same.symm)
      have whole := digits_ofDigits base.value (lt_of_lt_of_le (by decide) base.eight_le)
        ((first :: rest).map charValue).reverse (fun value member => by
          obtain ⟨ch, there, rfl⟩ := mem_map.mp (mem_reverse.mp member)
          exact (proper ch there).2) (fun _ => by simpa using nonzero)
      have positive : Nat.ofDigits base.value ((first :: rest).map charValue).reverse ≠ 0 := by
        intro none
        rw [none, digits_zero] at whole
        simp at whole
      rw [numeral, if_neg positive, whole, map_reverse, reverse_reverse, spelled]
  · cases reads

theorem numeral_ne_minus (base : Base) (uval : Nat) :
    ∀ ch ∈ (numeral base.value uval).reverse, ch ≠ '-'.toUInt8 := by
  obtain ⟨values, same, proper, -⟩ := exists_digits base uval
  intro ch member
  rw [same, mem_reverse] at member
  obtain ⟨digit, there, rfl⟩ := mem_map.mp member
  exact (charValue_digits digit (lt_of_lt_of_le (proper digit there) base.le_sixteen)).2.2.1

theorem numeral_lead (base : Base)
    (lead : (numeral base.value uval).reverse.head? = some '0'.toUInt8) :
    (numeral base.value uval).reverse = ['0'.toUInt8] := by
  unfold numeral at lead ⊢
  split
  · rfl
  · rename_i positive
    rw [if_neg positive, List.head?_reverse, List.getLast?_map] at lead
    obtain ⟨digit, last, zero⟩ := Option.map_eq_some_iff.mp lead
    have proper : 1 < base.value := lt_of_lt_of_le (by decide) base.eight_le
    have there := mem_of_getLast? last
    have value := (charValue_digits digit
      (lt_of_lt_of_le (digits_lt_base proper there) base.le_sixteen)).1
    rw [zero] at value
    rw [List.getLast?_eq_some_getLast (digits_ne_nil_iff_ne_zero.mpr positive)] at last
    exact absurd ((Option.some.inj last).trans value.symm)
      (getLast_digit_ne_zero base.value positive)

theorem canonical_numeral (base : Base) (value : Int) :
    Canonical base.value value (signChars value ++ (numeral base.value value.natAbs).reverse) := by
  have reads := readDigits_numeral base value.natAbs
  have minus := numeral_ne_minus base value.natAbs
  have lead : ∀ digits, signChars value ++ (numeral base.value value.natAbs).reverse =
      signChars value ++ digits → digits.head? = some '0'.toUInt8 → digits = ['0'.toUInt8] := by
    intro digits same
    obtain rfl := append_cancel_left same
    exact numeral_lead base
  by_cases negative : value < 0
  · refine ⟨?_, ?_, lead⟩
    · rw [signChars, if_pos negative, singleton_append, readNumeral, if_pos rfl, reads,
        Option.map_some, Int.ofNat_natAbs_of_nonpos negative.le, neg_neg]
    · rw [signChars, if_pos negative]
      exact iff_of_true rfl negative
  · rw [signChars, if_neg negative] at lead ⊢
    rw [nil_append] at lead ⊢
    cases chars : (numeral base.value value.natAbs).reverse with
    | nil => exact absurd (reverse_eq_nil_iff.mp chars) (numeral_ne_nil _ _)
    | cons ch rest =>
      rw [chars] at reads minus lead
      have first := minus ch mem_cons_self
      refine ⟨?_, iff_of_false (fun same => first (Option.some.inj same)) negative, ?_⟩
      · rw [readNumeral, if_neg first, reads, Option.map_some,
          Int.natAbs_of_nonneg (Int.not_lt.mp negative)]
      · rw [signChars, if_neg negative]
        exact lead

theorem Canonical.eq {base : Base} {value : Int} {digits : List UInt8}
    (canonical : Canonical base.value value (signChars value ++ digits)) :
    digits = (numeral base.value value.natAbs).reverse := by
  obtain ⟨reads, sign, lead⟩ := canonical
  refine eq_numeral_of_read ?_ (lead digits rfl)
  by_cases negative : value < 0
  · rw [signChars, if_pos negative, singleton_append, readNumeral, if_pos rfl] at reads
    obtain ⟨number, found, same⟩ := Option.map_eq_some_iff.mp reads
    rw [found]
    exact congrArg some (by omega)
  · rw [signChars, if_neg negative, nil_append] at reads sign
    cases digits with
    | nil => cases reads
    | cons ch rest =>
      have first : ch ≠ '-'.toUInt8 := fun same => negative (sign.mp (congrArg some same))
      rw [readNumeral, if_neg first] at reads
      obtain ⟨number, found, same⟩ := Option.map_eq_some_iff.mp reads
      rw [found]
      exact congrArg some (by omega)

/-! ### Directives for integers -/

/-- The conversions `%d`, `%o`, `%u` and `%x`. -/
inductive Conversion where
  | signed
  | unsigned (base : Base)
  deriving DecidableEq, Repr

namespace Conversion

def letter : Conversion → UInt8
  | signed => 'd'.toUInt8
  | unsigned .octal => 'o'.toUInt8
  | unsigned .decimal => 'u'.toUInt8
  | unsigned .hexadecimal => 'x'.toUInt8

def base : Conversion → Base
  | signed => .decimal
  | unsigned base => base

/-- The number that the conversion takes a word for. -/
def value (word : BitVec abi.bits) : Conversion → Int
  | signed => word.toInt
  | unsigned _ => word.toNat

def case : Conversion → Case
  | signed => .signed
  | unsigned base => .unsigned base

theorem switchCase_letter (conversion : Conversion) :
    switchCase conversion.letter = conversion.case := by
  rcases conversion with _ | _ | _ | _ <;> rfl

theorem natAbs_toInt (word : BitVec abi.bits) :
    (if word.toInt < 0 then (-word).toNat else word.toNat) = word.toInt.natAbs := by
  split
  · rename_i negative
    rw [BitVec.toInt_neg_iff] at negative
    rw [BitVec.toNat_neg, BitVec.toInt_eq_toNat_cond, if_neg (by omega)]
    rw [mod_eq_of_lt (by omega)]
    omega
  · rename_i positive
    rw [BitVec.toInt_neg_iff] at positive
    rw [BitVec.toInt_eq_toNat_cond, if_pos (by omega), Int.natAbs_natCast]

/-- What a conversion prints. -/
theorem print_eq (conversion : Conversion) (width : Int) (word : BitVec abi.bits)
    (args : List (Arg abi)) :
    conversion.case.print width (.word word :: args) conversion.letter =
      some (0, args, numberChars (conversion.value word < 0) width conversion.base
        (conversion.value word).natAbs) := by
  cases conversion with
  | signed =>
    show some (0, args, numberChars _ width .decimal
      (if word.toInt < 0 then (-word).toNat else word.toNat)) = _
    rw [natAbs_toInt]
    rfl
  | unsigned base =>
    rw [value, Int.natAbs_natCast, decide_eq_false (Int.not_lt.mpr (Int.natCast_nonneg _))]
    rfl

end Conversion

/-- A directive for an integer: the flag `0`, a width, with zero for none, and a conversion. -/
structure Directive where
  zero : Bool
  width : Nat
  conversion : Conversion
  deriving DecidableEq, Repr

namespace Directive

/-- The text of a width. -/
def widthBytes (width : Nat) : List UInt8 :=
  ((Nat.digits 10 width).map digits).reverse

def bytes (directive : Directive) : List UInt8 :=
  '%'.toUInt8 :: ((if directive.zero then ['0'.toUInt8] else []) ++
    (widthBytes directive.width ++ [directive.conversion.letter]))

theorem zero_not_mem (directive : Directive) : 0 ∉ directive.bytes := by
  intro member
  have letter : ∀ conversion : Conversion, conversion.letter ≠ 0 := by
    rintro (_ | _ | _ | _) <;> decide
  simp only [bytes, mem_cons, mem_append, not_mem_nil, or_false] at member
  rcases member with percent | flag | width | last
  · cases percent
  · split at flag
    · exact absurd (mem_singleton.mp flag) (by decide)
    · cases flag
  · rw [widthBytes, mem_reverse] at width
    obtain ⟨digit, there, same⟩ := mem_map.mp width
    exact (charValue_digits digit
      (lt_trans (digits_lt_base (by decide) there) (by decide))).2.2.2.2 same
  · exact letter _ last.symm

/-- The directive as a format. -/
def format (directive : Directive) : CString := ⟨directive.bytes, directive.zero_not_mem⟩

end Directive

theorem isDigit_digits : ∀ value < 10, isDigit (digits value) = true ∧
    digitValue (digits value) = value ∧ (value ≠ 0 → switchCase (digits value) = .digit) := by
  decide

theorem next_number {ch : UInt8} (digit : isDigit ch = true) (width : Int) (args : List (Arg abi)) :
    (⟨.number, width, args⟩ : Pending abi).next ch =
      some (⟨.number, widen abi width ch, args⟩, []) := by
  have stays : ¬ Place.number.switches ch = true := by simp [Place.switches, digit]
  have place : Place.number.next ch = .number := by
    unfold Place.next
    rw [if_neg stays]
  show (if Place.number.switches ch = true then _ else _) = _
  rw [if_neg stays]
  rw [place]

/-- The conversion at the end of a directive. -/
theorem next_letter (conversion : Conversion) {place : Place} (inside : place ≠ .text)
    (width : Int) (word : BitVec abi.bits) (args : List (Arg abi)) :
    (⟨place, width, .word word :: args⟩ : Pending abi).next conversion.letter =
      some (⟨.text, 0, args⟩, numberChars (conversion.value word < 0) width conversion.base
        (conversion.value word).natAbs) := by
  have switches : place.switches conversion.letter = true := by
    cases place with
    | text => exact absurd rfl inside
    | directive => rfl
    | number => rcases conversion with _ | _ | _ | _ <;> rfl
  have leads : place.next conversion.letter = .text := by
    unfold Place.next
    rw [if_pos switches, conversion.switchCase_letter]
    cases conversion <;> rfl
  show (if place.switches conversion.letter = true then _ else _) = _
  rw [if_pos switches, conversion.switchCase_letter]
  rw [conversion.print_eq, Option.map_some]
  rw [leads]

/-- Behind its first digit a width is read to its end. -/
theorem print_digits (values : List Nat) (proper : ∀ value ∈ values, value < 10)
    (before : List Nat) (args : List (Arg abi)) :
    (⟨.number, ssize abi (spelled before), args⟩ : Pending abi).print (values.map digits) =
      some (⟨.number, ssize abi (spelled (before ++ values)), args⟩, []) := by
  induction values generalizing before with
  | nil => rw [append_nil]; rfl
  | cons value values inductionHypothesis =>
    obtain ⟨digit, number, -⟩ := isDigit_digits value (proper value mem_cons_self)
    rw [map_cons, Pending.print, next_number digit, widen_spelled digit, number,
      Option.bind_some, inductionHypothesis fun other member =>
        proper other (mem_cons_of_mem _ member), append_assoc]
    rfl

theorem print_widthBytes (positive : width ≠ 0) (args : List (Arg abi)) :
    (⟨.directive, 0, args⟩ : Pending abi).print (Directive.widthBytes width) =
      some (⟨.number, ssize abi width, args⟩, []) := by
  have some : Nat.digits 10 width ≠ [] := digits_ne_nil_iff_ne_zero.mpr positive
  have proper : ∀ value ∈ (Nat.digits 10 width).reverse, value < 10 := fun value member =>
    digits_lt_base (by decide) (mem_reverse.mp member)
  have number : spelled (Nat.digits 10 width).reverse = width := by
    rw [spelled, reverse_reverse, ofDigits_digits]
  have last := getLast_digit_ne_zero 10 positive
  rw [Directive.widthBytes, ← map_reverse]
  cases values : (Nat.digits 10 width).reverse with
  | nil => exact absurd (reverse_eq_nil_iff.mp values) some
  | cons first rest =>
    rw [values] at proper number
    have nonzero : first ≠ 0 := by
      rw [← head_reverse (mt reverse_eq_nil_iff.mp some)] at last
      simpa only [values, head_cons] using last
    obtain ⟨digit, same, case⟩ := isDigit_digits first (proper first mem_cons_self)
    have widened := @widen_spelled abi [] _ digit
    have next : (⟨.directive, 0, args⟩ : Pending abi).next (digits first) =
        .some (⟨.number, ssize abi (spelled [first]), args⟩, []) := by
      show Option.map _ ((switchCase (digits first)).print 0 args (digits first)) = _
      rw [case nonzero]
      show Option.some ((⟨Place.directive.next (digits first), widen abi 0 (digits first), args⟩ :
        Pending abi), ([] : List UInt8)) = _
      rw [same] at widened
      have place : Place.directive.next (digits first) = .number := by
        show (switchCase (digits first)).place = .number
        rw [case nonzero]
        rfl
      have zero : (0 : Int) = ssize abi (spelled []) := Int.zero_bmod.symm
      rw [place, zero, widened]
      rfl
    rw [map_cons, Pending.print, next, Option.bind_some, print_digits rest (fun other member =>
      proper other (mem_cons_of_mem _ member)), singleton_append, number]
    rfl

/-- What a directive prints when no width is left from before. -/
theorem print_directive (directive : Directive) (word : BitVec abi.bits) (args : List (Arg abi)) :
    (⟨.text, 0, .word word :: args⟩ : Pending abi).print directive.bytes =
      some (⟨.text, 0, args⟩, numberChars (directive.conversion.value word < 0)
        (ssize abi directive.width) directive.conversion.base
        (directive.conversion.value word).natAbs) := by
  obtain ⟨zero, width, conversion⟩ := directive
  have last : ∀ (place : Place) (read : Int), place ≠ .text →
      (⟨place, read, .word word :: args⟩ : Pending abi).print [conversion.letter] =
        some (⟨.text, 0, args⟩, numberChars (conversion.value word < 0) read conversion.base
          (conversion.value word).natAbs) := by
    intro place read inside
    rw [Pending.print, next_letter conversion inside, Option.bind_some]
    show some (_, _ ++ []) = _
    rw [append_nil]
  have behind : (⟨.directive, 0, .word word :: args⟩ : Pending abi).print
      (Directive.widthBytes width ++ [conversion.letter]) =
        some (⟨.text, 0, args⟩, numberChars (conversion.value word < 0) (ssize abi width)
          conversion.base (conversion.value word).natAbs) := by
    by_cases none : width = 0
    · subst none
      rw [show ssize abi (0 : Nat) = 0 from Int.zero_bmod]
      exact last .directive 0 (by decide)
    · rw [print_append, print_widthBytes none, Option.bind_some, last .number _ (by decide)]
      rfl
  have flagged : (⟨.directive, 0, .word word :: args⟩ : Pending abi).print
      ((if zero then ['0'.toUInt8] else []) ++
        (Directive.widthBytes width ++ [conversion.letter])) =
        some (⟨.text, 0, args⟩, numberChars (conversion.value word < 0) (ssize abi width)
          conversion.base (conversion.value word).natAbs) := by
    cases zero with
    | false => exact behind
    | true =>
      rw [print_append, show (⟨.directive, 0, .word word :: args⟩ : Pending abi).print
        (if true then ['0'.toUInt8] else []) =
          some (⟨.directive, 0, .word word :: args⟩, []) from rfl, Option.bind_some, behind]
      rfl
  show (Option.bind (some ((⟨.directive, 0, .word word :: args⟩ : Pending abi), ([] : List UInt8)))
    fun step => _) = _
  rw [Option.bind_some, flagged]
  rfl

/-! ### The numerals in the output -/

/-- A directive between two formats: the first leaves no width behind, so the characters of the
directive stand between those of the two. -/
theorem print_between {fmt back : CString} {args more : List (Arg abi)}
    (matching : Matches fmt args)
    (cleared : spelled (strayDigits .text [] fmt.bytes) % abi.modulus = 0)
    (behind : Matches back more) (directive : Directive) (word : BitVec abi.bits) :
    ∃ front rest width, unbounded fmt args = .ok front ∧ unbounded back more = .ok rest ∧
      (resume (args ++ .word word :: more)).pending.print
          (fmt.append (directive.format.append back)).bytes =
        some (⟨.text, width, []⟩, front ++ (numberChars (directive.conversion.value word < 0)
          (ssize abi directive.width) directive.conversion.base
          (directive.conversion.value word).natAbs ++ rest)) := by
  obtain ⟨left, front, prints⟩ := print_of_matches matching
  obtain ⟨width, rest, printsBack⟩ := print_of_matches behind
  have start : (resume args).pending.width = ssize abi (spelled []) := Int.zero_bmod.symm
  obtain rfl : left = 0 := (print_width prints start).trans (ssize_eq_zero.mpr cleared)
  refine ⟨front, rest, width, unbounded_of_print prints, unbounded_of_print printsBack, ?_⟩
  show ((resume args).pending.extend (.word word :: more)).print
    (fmt.bytes ++ (directive.bytes ++ back.bytes)) = _
  rw [print_append, print_extend prints, Option.bind_some, print_append]
  show (((⟨.text, 0, .word word :: more⟩ : Pending abi).print directive.bytes).bind _).map _ = _
  rw [print_directive, Option.bind_some]
  rw [show (⟨.text, 0, more⟩ : Pending abi).print back.bytes = _ from printsBack]
  rfl

theorem numberChars_none {base : Base} {value : Int} :
    numberChars (value < 0) 0 base value.natAbs =
      signChars value ++ (numeral base.value value.natAbs).reverse := by
  simp only [numberChars, signChars, decide_eq_true_eq, lt_irrefl, if_false, if_true]

/-- Without a width an integer is printed as its canonical numeral, wherever its directive
stands. -/
theorem integers_round_trip {fmt back : CString} {args more : List (Arg abi)}
    (matching : Matches fmt args)
    (cleared : spelled (strayDigits .text [] fmt.bytes) % abi.modulus = 0)
    (behind : Matches back more) (zero : Bool) (conversion : Conversion)
    (word : BitVec abi.bits) (str : Nat → UInt8) {size : Nat} (nonempty : 0 < size) :
    ∃ front rest chars retval after, unbounded fmt args = .ok front ∧
      unbounded back more = .ok rest ∧
      Canonical conversion.base.value (conversion.value word) chars ∧
      vsnprintf str size (fmt.append ((Directive.format ⟨zero, 0, conversion⟩).append back))
        (args ++ .word word :: more) = .ok (retval, after) ∧
      Holds str after size (front ++ (chars ++ rest)) := by
  obtain ⟨front, rest, width, shown, shownBack, prints⟩ :=
    print_between matching cleared behind ⟨zero, 0, conversion⟩ word
  obtain ⟨after, done, holds⟩ := vsnprintf_of_print prints str nonempty
  have canonical := canonical_numeral conversion.base (conversion.value word)
  have none : ssize abi (0 : Nat) = 0 := Int.zero_bmod
  rw [none, numberChars_none] at holds
  exact ⟨front, rest, _, _, after, shown, shownBack, canonical, done, holds⟩

/-- The empty format. -/
def emptyFormat : CString := ⟨[], not_mem_nil⟩

theorem integers_round_trip_least :
    ∃ chars retval after, Canonical 10 (-2147483648) chars ∧
      vsnprintf (fun _ => 7) 32 (Directive.format ⟨false, 0, .signed⟩)
        ([.word 0x80000000] : List (Arg .ilp32)) = .ok (retval, after) ∧
      Holds (fun _ => 7) after 32 chars := by
  obtain ⟨front, rest, chars, retval, after, shown, shownBack, canonical, done, holds⟩ :=
    integers_round_trip (by decide : Matches emptyFormat ([] : List (Arg .ilp32))) (by decide)
      (by decide : Matches emptyFormat []) false .signed (0x80000000 : BitVec 32) (fun _ => 7)
      (by decide : 0 < 32)
  have nothing : unbounded emptyFormat ([] : List (Arg .ilp32)) = .ok [] := rfl
  obtain rfl := Except.ok.inj (nothing.symm.trans shown)
  obtain rfl := Except.ok.inj (nothing.symm.trans shownBack)
  rw [nil_append, append_nil] at holds
  exact ⟨chars, retval, after, canonical, done, holds⟩

/-! ### Fields -/

/-- A field for a number: the complete numeral with padding in front of its digits, which is zeros
behind the sign with the flag `0`, and spaces in front of the sign without. -/
def IsField (zero : Bool) (base : Nat) (value : Int) (chars : List UInt8) : Prop :=
  ∃ padding digits, Canonical base value (signChars value ++ digits) ∧
    chars = if zero then signChars value ++ (List.replicate padding '0'.toUInt8 ++ digits)
      else List.replicate padding ' '.toUInt8 ++ (signChars value ++ digits)

/-- The number of digits of a number. -/
def digitCount (base : Nat) (value : Int) : Nat := (numeral base value.natAbs).length

theorem numberChars_positive {base : Base} {value width : Int} (positive : 0 < width) :
    numberChars (value < 0) width base value.natAbs = signChars value ++
      ((List.range width.toNat).map fun index =>
        (numeral base.value value.natAbs).getD index '0'.toUInt8).reverse := by
  simp only [numberChars, signChars, decide_eq_true_eq, if_neg (not_lt.mpr positive.le),
    if_neg positive.ne']

theorem padded_digits (fits : chars.length ≤ width)
    (fill : UInt8) : (List.range width).map (fun index => chars.getD index fill) =
      chars ++ List.replicate (width - chars.length) fill := by
  refine ext_getElem (by simp; omega) fun index here there => ?_
  rw [getElem_map, getElem_range, getElem_append]
  split
  · rename_i inside
    exact getD_eq_getElem _ _ inside
  · rename_i behind
    rw [getElem_replicate, getD_eq_default _ _ (Nat.le_of_not_lt behind)]

/-- A number in a width that its digits fit in. -/
theorem numberChars_of_le {base : Base} {value width : Int}
    (fits : (digitCount base.value value : Int) ≤ width) :
    numberChars (value < 0) width base value.natAbs = signChars value ++
      (List.replicate (width.toNat - digitCount base.value value) '0'.toUInt8 ++
        (numeral base.value value.natAbs).reverse) := by
  have some : 0 < digitCount base.value value := length_pos_iff.mpr (numeral_ne_nil _ _)
  have bound : digitCount base.value value ≤ width.toNat := by omega
  rw [numberChars_positive (by omega), padded_digits bound, reverse_append, reverse_replicate]
  rfl

/-- What is printed begins with a sign or a digit. -/
theorem numberChars_ne_space {base : Base} {value width : Int} :
    ∀ ch ∈ numberChars (value < 0) width base value.natAbs, ch ≠ ' '.toUInt8 := by
  obtain ⟨values, same, proper, -⟩ := exists_digits base value.natAbs
  have digit : ∀ ch ∈ numeral base.value value.natAbs, ch ≠ ' '.toUInt8 := by
    intro ch member
    rw [same] at member
    obtain ⟨digit, there, rfl⟩ := mem_map.mp member
    exact (charValue_digits digit (lt_of_lt_of_le (proper digit there) base.le_sixteen)).2.2.2.1
  have sign : ∀ ch ∈ signChars value, ch ≠ ' '.toUInt8 := by
    intro ch member
    unfold signChars at member
    split at member
    · rw [mem_singleton.mp member]
      decide
    · cases member
  intro ch member
  rcases lt_trichotomy width 0 with negative | rfl | positive
  · rw [numberChars, if_pos negative] at member
    cases member
  · rw [numberChars_none] at member
    rcases mem_append.mp member with first | second
    · exact sign ch first
    · exact digit ch (mem_reverse.mp second)
  · rw [numberChars_positive positive] at member
    rcases mem_append.mp member with first | second
    · exact sign ch first
    · obtain ⟨index, -, rfl⟩ := mem_map.mp (mem_reverse.mp second)
      by_cases inside : index < (numeral base.value value.natAbs).length
      · rw [getD_eq_getElem _ _ inside]
        exact digit _ (getElem_mem inside)
      · rw [getD_eq_default _ _ (Nat.le_of_not_lt inside)]
        decide

/-- A number in a width is a field for the number exactly when the width is none, or the digits
fit in it and nothing has to be filled with spaces. -/
theorem isField_iff {base : Base} {value width : Int} {zero : Bool} :
    IsField zero base.value value (numberChars (value < 0) width base value.natAbs) ↔
      width = 0 ∨ (digitCount base.value value : Int) ≤ width ∧
        (zero = true ∨ (digitCount base.value value : Int) = width) := by
  have canonical := canonical_numeral base value
  constructor
  · rintro ⟨padding, digits, complete, same⟩
    obtain rfl := complete.eq
    have spaces := @numberChars_ne_space base value width
    rcases lt_trichotomy width 0 with negative | rfl | positive
    · have length := congrArg List.length same
      have some := length_pos_iff.mpr (numeral_ne_nil base.value value.natAbs)
      rw [numberChars, if_pos negative] at length
      cases zero <;> simp at length <;> omega
    · exact Or.inl rfl
    · right
      have length := congrArg List.length same
      rw [numberChars_positive positive] at length
      unfold digitCount
      cases zero with
      | true =>
        simp at length
        exact ⟨by omega, Or.inl rfl⟩
      | false =>
        have none : padding = 0 := by
          by_contra some
          obtain ⟨more, rfl⟩ := exists_eq_succ_of_ne_zero some
          refine spaces ' '.toUInt8 ?_ rfl
          rw [same]
          exact mem_cons_self
        simp [none] at length
        exact ⟨by omega, Or.inr (by omega)⟩
  · rintro (rfl | ⟨fits, padded⟩)
    · refine ⟨0, _, canonical, ?_⟩
      rw [numberChars_none]
      cases zero <;> rfl
    · rw [numberChars_of_le fits]
      rcases padded with rfl | whole
      · exact ⟨_, _, canonical, rfl⟩
      · refine ⟨0, _, canonical, ?_⟩
        rw [show width.toNat - digitCount base.value value = 0 by omega]
        cases zero <;> rfl

/-- With a width the field of a number is complete and padded as asked for, exactly when the width
that is read is none, or is not smaller than the number of digits, and equal to it if the flag `0`
is not given. -/
theorem field_complete_iff {fmt back : CString} {args more : List (Arg abi)}
    (matching : Matches fmt args)
    (cleared : spelled (strayDigits .text [] fmt.bytes) % abi.modulus = 0)
    (behind : Matches back more) (directive : Directive) (word : BitVec abi.bits)
    (str : Nat → UInt8) {size : Nat} (nonempty : 0 < size) :
    ∃ front rest chars retval after, unbounded fmt args = .ok front ∧
      unbounded back more = .ok rest ∧
      vsnprintf str size (fmt.append (directive.format.append back))
        (args ++ .word word :: more) = .ok (retval, after) ∧
      Holds str after size (front ++ (chars ++ rest)) ∧
      (IsField directive.zero directive.conversion.base.value (directive.conversion.value word)
          chars ↔
        ssize abi directive.width = 0 ∨
        (digitCount directive.conversion.base.value (directive.conversion.value word) : Int) ≤
          ssize abi directive.width ∧
        (directive.zero = true ∨
          (digitCount directive.conversion.base.value (directive.conversion.value word) : Int) =
            ssize abi directive.width)) := by
  obtain ⟨front, rest, width, shown, shownBack, prints⟩ :=
    print_between matching cleared behind directive word
  obtain ⟨after, done, holds⟩ := vsnprintf_of_print prints str nonempty
  exact ⟨front, rest, _, _, after, shown, shownBack, done, holds, isField_iff⟩

/-- The directive "%08x". -/
def hexField : Directive := ⟨true, 8, .unsigned .hexadecimal⟩

theorem field_complete_short :
    ∃ chars retval after, vsnprintf (fun _ => 7) 32 hexField.format
        ([.word 0xbeef] : List (Arg .ilp32)) = .ok (retval, after) ∧
      Holds (fun _ => 7) after 32 chars ∧ IsField true 16 0xbeef chars := by
  obtain ⟨front, rest, chars, retval, after, shown, shownBack, done, holds, iff⟩ :=
    field_complete_iff (by decide : Matches emptyFormat ([] : List (Arg .ilp32))) (by decide)
      (by decide : Matches emptyFormat []) hexField (0xbeef : BitVec 32) (fun _ => 7)
      (by decide : 0 < 32)
  have nothing : unbounded emptyFormat ([] : List (Arg .ilp32)) = .ok [] := rfl
  obtain rfl := Except.ok.inj (nothing.symm.trans shown)
  obtain rfl := Except.ok.inj (nothing.symm.trans shownBack)
  rw [nil_append, append_nil] at holds
  exact ⟨chars, retval, after, done, holds, iff.mpr (by decide +kernel)⟩

/-- With "%08x" the upper digits of a 64-bit number are lost. -/
theorem upper_digits_lost :
    unbounded hexField.format ([.word 0x123456789] : List (Arg .lp64)) =
        .ok [50, 51, 52, 53, 54, 55, 56, 57] ∧
      ¬ IsField true 16 0x123456789 [50, 51, 52, 53, 54, 55, 56, 57] := by
  refine ⟨by rfl, fun field => ?_⟩
  have printed : [50, 51, 52, 53, 54, 55, 56, 57] =
      numberChars ((0x123456789 : Int) < 0) 8 .hexadecimal (0x123456789 : Int).natAbs := by
    decide +kernel
  rw [printed] at field
  exact absurd ((@isField_iff .hexadecimal _ _ _).mp field) (by decide +kernel)

end Snprintf

end AIMv6
