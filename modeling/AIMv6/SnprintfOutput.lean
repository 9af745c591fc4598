/-
This file says what `vsnprintf` prints and proves that the function prints it.

The abstract formatter keeps a place in the format, a width and the arguments that are left,
and gives the characters of each byte of the format as a list. It has no flags: the sign of a
number is known where the number is, and the test of the flag for zero padding in the source
is always true. The function refines it for every way of putting out characters. With a buffer
of a size, the characters stored are the list of all of them cut off one byte in front of the
end of the buffer.
-/

import AIMv6.Snprintf

namespace AIMv6

open List Nat

namespace Snprintf

variable {abi : Abi} {Sink Full : Type}

/-! ### Formats and arguments -/

/-- The types of arguments. -/
inductive ArgType where
  | word
  | int
  | string
  deriving DecidableEq, Repr

/-- The type of an argument. -/
def Arg.type : Arg abi → ArgType
  | word _ => .word
  | int _ => .int
  | string _ => .string

/-- The argument a case of the `switch` takes. -/
def Case.takes : Case → List ArgType
  | signed => [.word]
  | unsigned _ => [.word]
  | pointer => [.word]
  | char => [.int]
  | string => [.string]
  | percent => []
  | zero => []
  | digit => []
  | default => []

/-- Where a case of the `switch` leads to. -/
def Case.place : Case → Place
  | zero => .directive
  | digit => .number
  | _ => .text

/-- The byte is handled by the `switch`. -/
def Place.switches (place : Place) (ch : UInt8) : Bool :=
  match place with
  | text => false
  | directive => true
  | number => !isDigit ch

/-- The place behind a byte of the format. -/
def Place.next (place : Place) (ch : UInt8) : Place :=
  if place.switches ch then (switchCase ch).place
  else match place with
    | text => if ch = '%'.toUInt8 then .directive else .text
    | _ => .number

/-- The argument a byte of the format takes. -/
def Place.takes (place : Place) (ch : UInt8) : List ArgType :=
  if place.switches ch then (switchCase ch).takes else []

/-- The arguments a format takes. -/
def types (place : Place) : List UInt8 → List ArgType
  | [] => []
  | ch :: fmt => place.takes ch ++ types (place.next ch) fmt

/-- Every `%` begins a directive that is complete. -/
def Complete (fmt : CString) : Prop := fmt.bytes.foldl Place.next .text = .text

instance (fmt : CString) : Decidable (Complete fmt) :=
  inferInstanceAs (Decidable (_ = Place.text))

/-- The format is complete, and the arguments are those it takes. -/
def Matches (fmt : CString) (args : List (Arg abi)) : Prop :=
  Complete fmt ∧ types .text fmt.bytes = args.map Arg.type

instance (fmt : CString) (args : List (Arg abi)) : Decidable (Matches fmt args) :=
  inferInstanceAs (Decidable (Complete fmt ∧ _))

/-! ### What is printed -/

/-- The digits of a number from the lowest on. -/
def numeral (base uval : Nat) : List UInt8 :=
  if uval = 0 then ['0'.toUInt8] else (Nat.digits base uval).map digits

/-- A number in a width; a width of zero is none, and a smaller one cuts off the upper digits. -/
def numberChars (negative : Bool) (width : Int) (base : Base) (uval : Nat) : List UInt8 :=
  if width < 0 then []
  else (if negative then ['-'.toUInt8] else []) ++
    if width = 0 then (numeral base.value uval).reverse
    else ((List.range width.toNat).map fun index =>
      (numeral base.value uval).getD index '0'.toUInt8).reverse

/-- A string in a width. -/
def stringChars (value : Option CString) (width : Int) : List UInt8 :=
  let bytes := (value.map CString.bytes).getD ("(null)".toList.map Char.toUInt8)
  bytes ++ List.replicate (width - (bytes.length : Int)).toNat ' '.toUInt8

/-- What the abstract formatter keeps between two bytes of the format. -/
structure Pending (abi : Abi) where
  place : Place
  width : Int
  args : List (Arg abi)
  deriving DecidableEq

/-- A case of the `switch`: the width and the arguments behind it, and the characters printed;
`none` when the argument is missing. -/
def Case.print (width : Int) (args : List (Arg abi)) (ch : UInt8) :
    Case → Option (Int × List (Arg abi) × List UInt8)
  | signed =>
    match args with
    | .word value :: args =>
      some (0, args, numberChars (value.toInt < 0) width .decimal
        (if value.toInt < 0 then (-value).toNat else value.toNat))
    | _ => none
  | unsigned base =>
    match args with
    | .word value :: args => some (0, args, numberChars false width base value.toNat)
    | _ => none
  | pointer =>
    match args with
    | .word value :: args =>
      some (0, args, numberChars false (pointerWidth abi) .hexadecimal value.toNat)
    | _ => none
  | char =>
    match args with
    | .int value :: args => some (0, args, [⟨value.setWidth 8⟩])
    | _ => none
  | string =>
    match args with
    | .string value :: args => some (0, args, stringChars value width)
    | _ => none
  | percent => some (0, args, ['%'.toUInt8])
  | zero => some (width, args, [])
  | digit => some (widen abi width ch, args, [])
  | default => some (width, args, ['%'.toUInt8, ch])

/-- One byte of the format. -/
def Pending.next (pending : Pending abi) (ch : UInt8) : Option (Pending abi × List UInt8) :=
  if pending.place.switches ch then
    ((switchCase ch).print pending.width pending.args ch).map fun result =>
      (⟨pending.place.next ch, result.1, result.2.1⟩, result.2.2)
  else match pending.place with
    | .text => some (⟨pending.place.next ch, pending.width, pending.args⟩,
        if ch = '%'.toUInt8 then [] else [ch])
    | _ => some (⟨pending.place.next ch, widen abi pending.width ch, pending.args⟩, [])

/-- A format. -/
def Pending.print (pending : Pending abi) : List UInt8 → Option (Pending abi × List UInt8)
  | [] => some (pending, [])
  | ch :: fmt =>
    (pending.next ch).bind fun step =>
      (Pending.print step.1 fmt).map fun rest => (rest.1, step.2 ++ rest.2)

/-! ### Numbers -/

theorem Base.eight_le (base : Base) : 8 ≤ base.value := by
  cases base <;> decide

variable {base uval : Nat} {chars : List UInt8} {fault : Fault} {fmt : CString}

/-- The digits fit into `buf` when the number has no more of them than bytes are left. -/
theorem storeDigits_eq (proper : 1 < base) (room uval : Nat) (buf : List UInt8)
    (fits : uval < base ^ room) :
    (storeDigits base room uval buf : Except (Stop Full) (List UInt8)) =
      .ok (buf ++ (Nat.digits base uval).map digits) := by
  induction room generalizing uval buf with
  | zero =>
    obtain rfl : uval = 0 := by simpa using fits
    simp [storeDigits]
  | succ room inductionHypothesis =>
    rcases uval with _ | uval
    · simp [storeDigits]
    · have smaller : (uval + 1) / base < base ^ room :=
        Nat.div_lt_of_lt_mul (by rwa [pow_succ, Nat.mul_comm] at fits)
      rw [storeDigits, inductionHypothesis _ _ smaller, digits_def' proper (succ_pos uval),
        map_cons, append_assoc, singleton_append]

theorem putDigits_eq (put : Put Sink Full) (buf : List UInt8)
    {count : Nat} (bound : count ≤ buf.length) (sink : Sink) :
    putDigits put buf count sink = (buf.take count).reverse.foldlM put sink := by
  induction count generalizing sink with
  | zero => rfl
  | succ count inductionHypothesis =>
    have there : buf[count]? = some buf[count] := List.getElem?_eq_getElem bound
    rw [putDigits, bufGet, there, take_succ_eq_append_getElem bound, reverse_concat, foldlM_cons]
    show (do let sink ← put sink buf[count]; putDigits put buf count sink) = _
    simp only [inductionHypothesis (le_of_succ_le bound)]

theorem putPadded_eq (put : Put Sink Full) (fill : UInt8)
    (buf : List UInt8) (width : Nat) (sink : Sink) :
    putPadded put fill buf width sink =
      ((List.range width).map fun index => buf.getD index fill).reverse.foldlM put sink := by
  induction width generalizing sink with
  | zero => rfl
  | succ width inductionHypothesis =>
    rw [putPadded, range_succ, map_append, map_singleton, reverse_concat, foldlM_cons]
    by_cases short : buf.length ≤ width
    · rw [if_pos short, getD_eq_default _ _ short, pure_bind]
      simp only [inductionHypothesis]
    · have inside : width < buf.length := Nat.lt_of_not_le short
      rw [if_neg short, bufGet, List.getElem?_eq_getElem inside, getD_eq_getElem _ _ inside]
      show (do let sink ← put sink buf[width]; putPadded put fill buf width sink) = _
      simp only [inductionHypothesis]

/-- The test for zero padding of the source is always true. -/
theorem zeropad_test (flag : Nat) : flag ||| flagZeropad ≠ 0 := by
  intro none
  exact absurd (Nat.or_eq_zero_iff.mp none).2 (by decide)

/-- The digits of a number always fit into `buf`. -/
theorem fillBuf_eq (proper : 8 ≤ base) (fits : uval < 2 ^ 64) :
    (fillBuf base uval : Except (Stop Full) (List UInt8)) = .ok (numeral base uval) := by
  have room : uval < base ^ bufSize :=
    lt_of_lt_of_le fits (le_trans (by decide) (Nat.pow_le_pow_left proper bufSize))
  rw [fillBuf, storeDigits_eq (by omega) bufSize uval [] room, numeral]
  show (if ((Nat.digits base uval).map digits).length = 0 then _ else _) = _
  by_cases zero : uval = 0
  · subst zero
    rw [digits_zero, if_pos rfl]
    rfl
  · have some : (Nat.digits base uval).length ≠ 0 :=
      mt length_eq_zero_iff.mp (digits_ne_nil_iff_ne_zero.mpr zero)
    rw [length_map, if_neg some, if_neg zero]
    rfl

theorem putSign_eq (put : Put Sink Full) (flag : Nat) (sink : Sink) :
    putSign put flag sink =
      (if flag &&& flagNeg ≠ 0 then ['-'.toUInt8] else []).foldlM put sink := by
  unfold putSign
  split
  · rw [foldlM_cons]
    exact (bind_pure _).symm
  · rfl

/-- A number is stored in `buf` and printed from there. -/
theorem printUint_eq (put : Put Sink Full) (base : Base)
    (fits : uval < 2 ^ 64) (flag : Nat) (width : Int) (sink : Sink) :
    printUint put flag width base.value uval sink =
      (numberChars (flag &&& flagNeg ≠ 0) width base uval).foldlM put sink := by
  rw [printUint, fillBuf_eq base.eight_le fits]
  show (if width = 0 then _ else _) = _
  unfold numberChars
  simp only [decide_eq_true_eq]
  by_cases none : width = 0
  · rw [if_pos none, if_neg (by omega), if_pos none, foldlM_append, putSign_eq]
    simp only [putDigits_eq put _ le_rfl, take_length]
  rw [if_neg none]
  by_cases positive : 0 < width
  · rw [if_pos ⟨positive, zeropad_test flag⟩, if_neg (by omega), if_neg none, foldlM_append,
      putSign_eq]
    simp only [putPadded_eq]
  · rw [if_neg (by tauto), if_neg positive, if_pos (by omega)]
    rfl

/-! ### The function refines the abstract formatter -/

/-- The abstract state. -/
def Control.pending (control : Control abi) : Pending abi :=
  ⟨control.place, control.width, control.args⟩

theorem word_lt (value : BitVec abi.bits) : value.toNat < 2 ^ 64 :=
  lt_of_lt_of_le value.isLt (Nat.pow_le_pow_right (by decide) (by cases abi <;> decide))

/-- A case of the `switch` does what the abstract formatter does. -/
structure Refines (control : Control abi) (ch : UInt8) (next : Control abi) (chars : List UInt8) :
    Prop where
  print : (switchCase ch).print control.width control.args ch = some (next.width, next.args, chars)
  place : next.place = (switchCase ch).place
  flag : next.flag &&& flagNeg = 0
  runs : ∀ {Sink Full : Type} (put : Put Sink Full) (sink : Sink),
    switch put control ch sink = do return (next, ← chars.foldlM put sink)

theorem foldlM_singleton (put : Put Sink Full) (sink : Sink) (ch : UInt8) :
    [ch].foldlM put sink = put sink ch := by
  rw [foldlM_cons]
  exact bind_pure _

variable {args : List (Arg abi)} {put : Put Sink Full}

section Cases

variable {control next : Control abi} {ch : UInt8} {case : Case} {chars : List UInt8}

theorem Refines.of_case (isCase : switchCase ch = case)
    (print : case.print control.width control.args ch = some (next.width, next.args, chars))
    (place : next.place = case.place) (flag : next.flag &&& flagNeg = 0)
    (runs : ∀ {Sink Full : Type} (put : Put Sink Full) (sink : Sink),
      switch put control ch sink = do return (next, ← chars.foldlM put sink)) :
    Refines control ch next chars := by
  subst isCase
  exact ⟨print, place, flag, runs⟩

variable {flag : Nat}

/-- The conversions of unsigned numbers. -/
theorem getUint_eq {value : BitVec abi.bits} (width : Int) (base : Base)
    (positive : flag &&& flagNeg = 0) (taken : control.args = .word value :: args)
    (put : Put Sink Full) (sink : Sink) :
    getUint put control flag width base sink = do
      return (resume args, ← (numberChars false width base value.toNat).foldlM put sink) := by
  rw [getUint, taken]
  dsimp only
  rw [printUint_eq put base (word_lt value), decide_eq_false (not_not.mpr positive)]

/-- What a byte of a directive comes to: the characters of the abstract formatter, or the fault of
an argument that is missing or of another type. -/
def Handled (control : Control abi) (ch : UInt8) : Prop :=
  (∃ next chars, Refines control ch next chars) ∨
    (switchCase ch).print control.width control.args ch = none ∧
      ∀ {Sink Full : Type} (put : Put Sink Full) (sink : Sink),
        switch put control ch sink = .error (.fault .mismatch)

theorem handled_signed (positive : control.flag &&& flagNeg = 0)
    (isCase : switchCase ch = .signed) : Handled control ch := by
  obtain ⟨place, flag, width, args⟩ := control
  have negative : (flag ||| flagNeg) &&& flagNeg ≠ 0 := by
    rw [and_or_distrib_right, positive]
    decide
  rcases args with _ | ⟨value | value | value, args⟩
  case cons.word =>
    refine Or.inl ⟨resume args, _, .of_case isCase rfl rfl (zero_and _) ?_⟩
    intro Sink Full put sink
    rw [switch, isCase]
    dsimp only
    by_cases below : value.toInt < 0
    · rw [if_pos below, if_pos below, printUint_eq put .decimal (word_lt (-value)),
        decide_eq_true negative, decide_eq_true below]
    · rw [if_neg below, if_neg below, printUint_eq put .decimal (word_lt value),
        decide_eq_false (not_not.mpr positive), decide_eq_false below]
  all_goals exact Or.inr ⟨by rw [isCase]; rfl, fun put sink => by rw [switch, isCase]⟩

/-- The cases that convert an unsigned number. -/
theorem handled_getUint (width : Int) (base : Base) (positive : flag &&& flagNeg = 0)
    (isCase : switchCase ch = case)
    (print : case.print control.width control.args ch = match control.args with
      | .word value :: args => some (0, args, numberChars false width base value.toNat)
      | _ => none)
    (place : case.place = .text)
    (runs : ∀ {Sink Full : Type} (put : Put Sink Full) (sink : Sink),
      switch put control ch sink = getUint put control flag width base sink) :
    Handled control ch := by
  rcases taken : control.args with _ | ⟨value | value | value, args⟩
  case cons.word =>
    rw [taken] at print
    refine Or.inl ⟨resume args, _, .of_case isCase (by rw [taken]; exact print) place.symm
      (zero_and _) fun put sink => ?_⟩
    rw [runs, getUint_eq width base positive taken]
  all_goals
    refine Or.inr ⟨by rw [isCase, print, taken], fun put sink => ?_⟩
    rw [runs, getUint, taken]

end Cases

theorem switch_refines (control : Control abi) (positive : control.flag &&& flagNeg = 0)
    (ch : UInt8) : Handled control ch := by
  obtain ⟨place, flag, width, args⟩ := control
  have padded : (flag ||| flagZeropad) &&& flagNeg = 0 := by
    rw [and_or_distrib_right, positive]
    rfl
  cases case : switchCase ch with
  | signed => exact handled_signed positive case
  | unsigned base =>
    exact handled_getUint width base positive case rfl rfl fun put sink => by rw [switch, case]
  | pointer =>
    exact handled_getUint (pointerWidth abi) .hexadecimal padded case rfl rfl fun put sink => by
      rw [switch, case]
  | char =>
    rcases args with _ | ⟨value | value | value, args⟩
    case cons.int =>
      refine Or.inl ⟨resume args, _, .of_case case rfl rfl (zero_and _) ?_⟩
      intro Sink Full put sink
      rw [switch, case]
      simp only [foldlM_singleton]
    all_goals exact Or.inr ⟨by rw [case]; rfl, fun put sink => by rw [switch, case]⟩
  | string =>
    rcases args with _ | ⟨value | value | value, args⟩
    case cons.string =>
      refine Or.inl ⟨resume args, _, .of_case case rfl rfl (zero_and _) ?_⟩
      intro Sink Full put sink
      rw [switch, case]
      simp only [putString, stringChars, foldlM_append]
    all_goals exact Or.inr ⟨by rw [case]; rfl, fun put sink => by rw [switch, case]⟩
  | percent =>
    refine Or.inl ⟨resume args, _, .of_case case rfl rfl (zero_and _) ?_⟩
    intro Sink Full put sink
    rw [switch, case]
    simp only [foldlM_singleton]
  | zero =>
    refine Or.inl ⟨⟨.directive, flag ||| flagZeropad, width, args⟩, _,
      .of_case case rfl rfl padded ?_⟩
    intro Sink Full put sink
    rw [switch, case]
    rfl
  | digit =>
    refine Or.inl ⟨⟨.number, flag, widen abi width ch, args⟩, _, .of_case case rfl rfl positive ?_⟩
    intro Sink Full put sink
    rw [switch, case]
    rfl
  | default =>
    refine Or.inl ⟨⟨.text, flag, width, args⟩, _, .of_case case rfl rfl positive ?_⟩
    intro Sink Full put sink
    rw [switch, case]
    simp only [foldlM_cons, foldlM_nil, bind_pure, bind_assoc]

/-- One byte of the format: the characters of the abstract step are put out, or the argument is
missing. The flag that marks negative numbers does not stay set. -/
theorem step_refines (control : Control abi) (positive : control.flag &&& flagNeg = 0)
    (ch : UInt8) : (∃ next chars, control.pending.next ch = some (next.pending, chars) ∧
      next.flag &&& flagNeg = 0 ∧
      ∀ {Sink Full : Type} (put : Put Sink Full) (sink : Sink),
        step put (control, sink) ch = do return (next, ← chars.foldlM put sink)) ∨
    control.pending.next ch = none ∧ ∀ {Sink Full : Type} (put : Put Sink Full) (sink : Sink),
        step put (control, sink) ch = .error (.fault .mismatch) := by
  have switched : control.place.switches ch = true →
      ∀ {Sink Full : Type} (put : Put Sink Full) (sink : Sink),
        step put (control, sink) ch = switch put control ch sink := by
    intro switches Sink Full put sink
    rw [step]
    cases place : control.place with
    | text => simp [Place.switches, place] at switches
    | directive => rfl
    | number =>
      have stops : isDigit ch = false := by simpa [Place.switches, place] using switches
      simp [stops]
  by_cases switches : control.place.switches ch = true
  · have place : control.pending.place.switches ch = true := switches
    unfold Pending.next Place.next
    rw [if_pos place, if_pos place]
    rcases switch_refines control positive ch with ⟨next, chars, refines⟩ | ⟨missing, faults⟩
    · refine Or.inl ⟨next, chars, ?_, refines.flag, fun put sink => ?_⟩
      · rw [show (switchCase ch).print control.pending.width control.pending.args ch = _ from
          refines.print, Option.map_some, Control.pending, refines.place]
      · rw [switched switches, refines.runs]
    · refine Or.inr ⟨?_, fun put sink => ?_⟩
      · rw [show (switchCase ch).print control.pending.width control.pending.args ch = _ from
          missing, Option.map_none]
      · rw [switched switches, faults]
  · have stays : ¬ control.pending.place.switches ch = true := switches
    unfold Pending.next Place.next
    rw [if_neg stays, if_neg stays]
    obtain ⟨place, flag, width, args⟩ := control
    refine Or.inl ?_
    cases place with
    | text =>
      by_cases percent : ch = '%'.toUInt8
      · refine ⟨⟨.directive, flag, width, args⟩, [], ?_, positive, fun put sink => ?_⟩
        · simp only [Control.pending, if_pos percent]
        · simp only [step, if_pos percent]
          rfl
      · refine ⟨⟨.text, flag, width, args⟩, [ch], ?_, positive, fun put sink => ?_⟩
        · simp only [Control.pending, if_neg percent]
        · simp only [step, if_neg percent, foldlM_singleton]
    | directive => exact absurd rfl switches
    | number =>
      have digit : isDigit ch = true := by simpa [Place.switches] using switches
      refine ⟨⟨.number, flag, widen abi width ch, args⟩, [], rfl, positive, fun put sink => ?_⟩
      simp only [step, if_pos digit]
      rfl

/-- A format: the characters of the abstract run are put out. -/
theorem format_refines (fmt : List UInt8) (control : Control abi)
    (positive : control.flag &&& flagNeg = 0) {pending : Pending abi}
    (prints : control.pending.print fmt = some (pending, chars)) :
    ∃ next : Control abi, next.pending = pending ∧ next.flag &&& flagNeg = 0 ∧
      ∀ {Sink Full : Type} (put : Put Sink Full) (sink : Sink),
        fmt.foldlM (step put) (control, sink) = do return (next, ← chars.foldlM put sink) := by
  induction fmt generalizing control pending chars with
  | nil =>
    cases prints
    exact ⟨control, rfl, positive, fun put sink => rfl⟩
  | cons ch fmt inductionHypothesis =>
    obtain ⟨⟨middle, first⟩, here, later⟩ := Option.bind_eq_some_iff.mp prints
    obtain ⟨⟨last, rest⟩, behind, same⟩ := Option.map_eq_some_iff.mp later
    obtain ⟨rfl, rfl⟩ := Prod.mk.inj same
    rcases step_refines control positive ch with ⟨next, chars, does, stays, runs⟩ | ⟨missing, -⟩
    · rw [does] at here
      obtain ⟨rfl, rfl⟩ := Prod.mk.inj (Option.some.inj here)
      obtain ⟨final, reached, finalPositive, finalRuns⟩ := inductionHypothesis next stays behind
      refine ⟨final, reached, finalPositive, fun put sink => ?_⟩
      rw [foldlM_cons, runs, foldlM_append]
      simp only [bind_assoc, pure_bind, finalRuns]
    · rw [missing] at here
      cases here

theorem foldlM_ne_fault (sound : ∀ sink ch, put sink ch ≠ .error (.fault fault))
    (chars : List UInt8) (sink : Sink) : chars.foldlM put sink ≠ .error (.fault fault) := by
  induction chars generalizing sink with
  | nil => nofun
  | cons ch chars inductionHypothesis =>
    rw [foldlM_cons]
    cases result : put sink ch with
    | error stop =>
      intro same
      have stops : stop = .fault fault := Except.error.inj same
      exact sound sink ch (result.trans (congrArg Except.error stops))
    | ok next => exact inductionHypothesis next

/-- Whatever the format and the arguments are, the only fault in the bytes of a format is an
argument that does not match; in particular `buf` is not accessed outside of its bytes. -/
theorem format_ne_fault (other : fault ≠ .mismatch)
    (sound : ∀ sink ch, put sink ch ≠ .error (.fault fault)) (fmt : List UInt8)
    (control : Control abi) (positive : control.flag &&& flagNeg = 0)
    (sink : Sink) : fmt.foldlM (step put) (control, sink) ≠ .error (.fault fault) := by
  induction fmt generalizing control sink with
  | nil => nofun
  | cons ch fmt inductionHypothesis =>
    rw [foldlM_cons]
    rcases step_refines control positive ch with ⟨next, chars, -, stays, runs⟩ | ⟨-, faults⟩
    · rw [runs]
      cases result : chars.foldlM put sink with
      | error stop =>
        intro same
        have stops : stop = .fault fault := Except.error.inj same
        exact foldlM_ne_fault sound chars sink (result.trans (congrArg Except.error stops))
      | ok after => exact inductionHypothesis next stays after
    · rw [faults]
      intro same
      exact other (Stop.fault.inj (Except.error.inj same)).symm

/-- Inside of a directive the terminating zero is printed behind a percent sign. -/
theorem step_zero (put : Put Sink Full) {state : Control abi × Sink}
    (inside : state.1.place ≠ .text) :
    step put state 0 =
      do return ({ state.1 with place := .text }, ← ['%'.toUInt8, 0].foldlM put state.2) := by
  have printed : switch put state.1 0 state.2 =
      do return ({ state.1 with place := .text }, ← ['%'.toUInt8, 0].foldlM put state.2) := by
    rw [foldlM_cons]
    simp only [foldlM_singleton, bind_assoc]
    rfl
  rw [step]
  cases place : state.1.place with
  | text => exact absurd place inside
  | directive => exact printed
  | number => exact printed

theorem run_inside (sound : ∀ sink ch, put sink ch ≠ .error (.fault .outside)) (fmt : CString)
    (args : List (Arg abi)) (sink : Sink) : run put fmt args sink ≠ .error (.fault .outside) := by
  unfold run
  cases result : format put fmt.bytes args sink with
  | error stop =>
    intro same
    have stops : stop = .fault .outside := Except.error.inj same
    exact format_ne_fault (by decide) sound fmt.bytes (resume args) (zero_and _) sink
      (result.trans (congrArg Except.error stops))
  | ok state =>
    show (if state.1.place = .text then put state.2 0
      else step put state 0 >>= fun _ => .error (.fault .overrun)) ≠ _
    split
    case isTrue => exact sound state.2 0
    case isFalse inside =>
      rw [step_zero put inside]
      cases done : ['%'.toUInt8, 0].foldlM put state.2 with
      | error stop =>
        intro same
        have stops : stop = .fault .outside := Except.error.inj same
        exact foldlM_ne_fault sound _ state.2 (done.trans (congrArg Except.error stops))
      | ok after => nofun

/-! ### Matching arguments -/

theorem Case.print_of_takes (case : Case) (width : Int) (ch : UInt8) {args later : List (Arg abi)}
    {more : List ArgType} (matching : case.takes ++ more = args.map Arg.type) :
    ∃ after rest chars, case.print width (args ++ later) ch = some (after, rest ++ later, chars) ∧
      more = rest.map Arg.type := by
  cases case with
  | percent | zero | digit | default => exact ⟨_, args, _, rfl, matching⟩
  | signed | unsigned | pointer =>
    rcases args with _ | ⟨value | value | value, rest⟩
    case cons.word => exact ⟨_, rest, _, rfl, (List.cons.inj matching).2⟩
    all_goals cases matching
  | char =>
    rcases args with _ | ⟨value | value | value, rest⟩
    case cons.int => exact ⟨_, rest, _, rfl, (List.cons.inj matching).2⟩
    all_goals cases matching
  | string =>
    rcases args with _ | ⟨value | value | value, rest⟩
    case cons.string => exact ⟨_, rest, _, rfl, (List.cons.inj matching).2⟩
    all_goals cases matching

theorem next_of_takes (pending : Pending abi) (ch : UInt8) {later : List (Arg abi)}
    (split : pending.args = args ++ later) {more : List ArgType}
    (matching : pending.place.takes ch ++ more = args.map Arg.type) :
    ∃ width rest chars,
      pending.next ch = some (⟨pending.place.next ch, width, rest ++ later⟩, chars) ∧
        more = rest.map Arg.type := by
  unfold Place.takes at matching
  unfold Pending.next
  by_cases switches : pending.place.switches ch = true
  · rw [if_pos switches] at matching ⊢
    obtain ⟨after, rest, chars, print, left⟩ :=
      Case.print_of_takes (switchCase ch) pending.width ch matching
    refine ⟨after, rest, chars, ?_, left⟩
    rw [split, print]
    rfl
  · rw [if_neg switches] at matching ⊢
    split
    · exact ⟨_, args, _, by rw [split], matching⟩
    · exact ⟨_, args, _, by rw [split], matching⟩

/-- With arguments of the types it takes a format is printed, and no argument is left. -/
theorem print_of_types (fmt : List UInt8) (pending : Pending abi) {args later : List (Arg abi)}
    (split : pending.args = args ++ later)
    (matching : types pending.place fmt = args.map Arg.type) :
    ∃ width chars, pending.print fmt =
      some (⟨fmt.foldl Place.next pending.place, width, later⟩, chars) := by
  induction fmt generalizing pending args with
  | nil =>
    obtain rfl : args = [] := map_eq_nil_iff.mp matching.symm
    exact ⟨pending.width, [], by rw [← nil_append later, ← split]; rfl⟩
  | cons ch fmt inductionHypothesis =>
    obtain ⟨width, rest, chars, here, left⟩ := next_of_takes pending ch split matching
    obtain ⟨final, finalChars, behind⟩ :=
      inductionHypothesis ⟨pending.place.next ch, width, rest ++ later⟩ rfl left
    refine ⟨final, chars ++ finalChars, ?_⟩
    rw [Pending.print, here, Option.bind_some, behind]
    rfl

theorem print_of_matches (matching : Matches fmt args) :
    ∃ width chars, (resume args).pending.print fmt.bytes = some (⟨.text, width, []⟩, chars) := by
  obtain ⟨width, chars, prints⟩ := print_of_types fmt.bytes (resume args).pending
    (append_nil args).symm matching.2
  rw [show fmt.bytes.foldl Place.next (resume args).pending.place = .text from matching.1] at prints
  exact ⟨width, chars, prints⟩

/-- The function puts out the characters and the byte that ends them. -/
theorem run_of_print {left : List (Arg abi)} {width : Int}
    (prints : (resume args).pending.print fmt.bytes = some (⟨.text, width, left⟩, chars))
    (put : Put Sink Full) (sink : Sink) :
    run put fmt args sink = (chars ++ [0]).foldlM put sink := by
  obtain ⟨next, same, -, runs⟩ := format_refines fmt.bytes (resume args) (zero_and _) prints
  have place : next.place = .text := congrArg Pending.place same
  rw [run, format, runs, foldlM_append]
  simp only [bind_assoc, pure_bind, if_pos place, foldlM_singleton]

end Snprintf

end AIMv6
