/-
This file follows the pointer `fmt` of `vsnprintf` through memory.

The loop tests for the terminating zero between directives only. A format that
ends inside of a directive has its zero taken by the `switch`: the default case
prints it, steps over it, and the next test reads behind the format. That is kept
from happening only by a buffer that is full by then, since `set_ch` returns.
The arguments are slots that `va_arg` reads as whatever type a directive takes, so
no argument is missing or of another type. What the list of bytes read is, and that
the run agrees with the one over the bytes of the format, is derived from a scan
that knows nothing of its end.
-/

import AIMv6.SnprintfConcat

namespace AIMv6

open List Nat

namespace Snprintf

variable {abi : Abi} {Sink Full : Type}

/-! ### Arguments -/

/-- The words behind the last named argument, and the strings that addresses lead to. -/
structure Slots (abi : Abi) where
  word : Nat → BitVec abi.bits
  string : BitVec abi.bits → CString

namespace Slots

/-- `va_arg`: the word of a slot, taken for an argument of a type. -/
def read (slots : Slots abi) (taken : Nat) : ArgType → Arg abi
  | .word => .word (slots.word taken)
  | .int => .int ((slots.word taken).setWidth 32)
  | .string =>
    .string (if slots.word taken = 0 then none else some (slots.string (slots.word taken)))

/-- The arguments of some types, from a slot on. -/
def args (slots : Slots abi) : Nat → List ArgType → List (Arg abi)
  | _, [] => []
  | taken, type :: types => slots.read taken type :: slots.args (taken + 1) types

variable {slots : Slots abi}

theorem args_type (taken : Nat) (types : List ArgType) :
    (slots.args taken types).map Arg.type = types := by
  induction types generalizing taken with
  | nil => rfl
  | cons type types inductionHypothesis =>
    rw [args, map_cons, inductionHypothesis]
    cases type <;> rfl

theorem args_append (taken : Nat) (first second : List ArgType) :
    slots.args taken (first ++ second) =
      slots.args taken first ++ slots.args (taken + first.length) second := by
  induction first generalizing taken with
  | nil => rfl
  | cons type first inductionHypothesis =>
    rw [cons_append, args, inductionHypothesis, args, length_cons, cons_append, add_assoc,
      add_comm 1]

end Slots

/-! ### The scan -/

/-- The loop over the memory at `fmt`, for at most the given number of bytes: the indices of the
bytes examined, and how the function is left. The second index is that of the next slot. -/
def scan (put : Put Sink Full) (memory : Nat → UInt8) (slots : Slots abi) :
    Nat → Nat → Nat → Control abi × Sink → List Nat × Option (Except (Stop Full) Sink)
  | 0, _, _, _ => ([], none)
  | rounds + 1, index, taken, state =>
    if state.1.place = .text ∧ memory index = 0 then ([index], some (put state.2 0))
    else
      let types := state.1.place.takes (memory index)
      match step put ({ state.1 with args := slots.args taken types }, state.2) (memory index) with
      | .error stop => ([index], some (.error stop))
      | .ok next =>
        let rest := scan put memory slots rounds (index + 1) (taken + types.length) next
        (index :: rest.1, rest.2)

variable {put : Put Sink Full} {memory : Nat → UInt8} {slots : Slots abi}

theorem mem_scan (rounds index taken : Nat) (state : Control abi × Sink) :
    index ∈ (scan put memory slots (rounds + 1) index taken state).1 := by
  rw [scan]
  split
  · exact mem_singleton_self _
  · dsimp only
    split
    · exact mem_singleton_self _
    · exact mem_cons_self

/-- A scan that has ended is the same with more rounds. -/
theorem scan_more {rounds index taken : Nat} {state : Control abi × Sink} {examined : List Nat}
    {outcome : Except (Stop Full) Sink} (more : Nat)
    (ends : scan put memory slots rounds index taken state = (examined, some outcome)) :
    scan put memory slots (rounds + more) index taken state = (examined, some outcome) := by
  induction rounds generalizing index taken state examined with
  | zero => cases (Prod.mk.inj ends).2
  | succ rounds inductionHypothesis =>
    rw [scan] at ends
    rw [succ_add, scan]
    split
    · rename_i stops
      rwa [if_pos stops] at ends
    · rename_i goes
      rw [if_neg goes] at ends
      dsimp only at ends ⊢
      split
      · rename_i stop left
        rwa [left] at ends
      · rename_i next left
        rw [left] at ends
        obtain ⟨rfl, done⟩ := Prod.mk.inj ends
        rw [inductionHypothesis (Prod.ext rfl done)]

/-- A byte of a format prints the characters that it prints with its arguments from the slots. -/
theorem step_slots (control : Control abi) (positive : control.flag &&& flagNeg = 0) (ch : UInt8)
    (taken : Nat) (later : List (Arg abi)) :
    ∃ next chars, Pending.next ⟨control.place, control.width,
        slots.args taken (control.place.takes ch) ++ later⟩ ch =
          some (⟨next.place, next.width, later⟩, chars) ∧
      next.place = control.place.next ch ∧ next.flag &&& flagNeg = 0 ∧
      ∀ {Sink Full : Type} (put : Put Sink Full) (sink : Sink),
        step put ({ control with args := slots.args taken (control.place.takes ch) }, sink) ch =
          do return (next, ← chars.foldlM put sink) := by
  obtain ⟨width, rest, shown, here, left⟩ := next_of_takes
    { control with args := slots.args taken (control.place.takes ch) }.pending ch
    (append_nil _).symm ((append_nil _).trans (Slots.args_type _ _).symm)
  obtain rfl : rest = [] := map_eq_nil_iff.mp left.symm
  rcases step_refines { control with args := slots.args taken (control.place.takes ch) } positive ch
    with ⟨next, chars, does, stays, runs⟩ | ⟨missing, -⟩
  · have same := (Prod.mk.inj (Option.some.inj (does.symm.trans here))).1
    have noArgs : next.args = [] := congrArg Pending.args same
    refine ⟨next, chars, (next_extend does later).trans ?_, congrArg Pending.place same, stays,
      runs⟩
    rw [Pending.extend, Control.pending, noArgs]
    rfl
  · rw [missing] at here
    cases here

/-! ### Bytes other than zero -/

/-- The format is at the start of the memory, with its terminating zero behind it. -/
def Stored (memory : Nat → UInt8) (fmt : CString) : Prop :=
  ∀ index ≤ fmt.bytes.length, memory index = fmt.bytes.getD index 0

/-- The bytes are in memory from an index on. -/
def StoredAt (memory : Nat → UInt8) (index : Nat) (bytes : List UInt8) : Prop :=
  ∀ offset < bytes.length, memory (index + offset) = bytes.getD offset 0

theorem StoredAt.tail {index : Nat} {ch : UInt8} {bytes : List UInt8}
    (stored : StoredAt memory index (ch :: bytes)) : StoredAt memory (index + 1) bytes := by
  intro offset inside
  have here := stored (offset + 1) (succ_lt_succ inside)
  rwa [getD_cons_succ, show index + (offset + 1) = index + 1 + offset by omega] at here

/-- Bytes other than zero print what they print with the arguments from the slots. A scan that this
stops has read no further, and one that it does not stop goes on behind them. -/
theorem scan_bytes {index : Nat} {bytes : List UInt8} (stored : StoredAt memory index bytes)
    (nonzero : 0 ∉ bytes) (control : Control abi) (positive : control.flag &&& flagNeg = 0)
    (taken : Nat) :
    ∃ next chars,
      Pending.print ⟨control.place, control.width, slots.args taken (types control.place bytes)⟩
        bytes = some (⟨next.place, next.width, []⟩, chars) ∧
      next.place = bytes.foldl Place.next control.place ∧
      ∀ {Sink Full : Type} (put : Put Sink Full) (sink : Sink)
        (rounds : Nat), ∃ examined count, (∀ position ∈ examined, position < index + bytes.length) ∧
          scan put memory slots (bytes.length + rounds) index taken (control, sink) =
            match chars.foldlM put sink with
            | .error stop => (examined, some (.error stop))
            | .ok after =>
              let rest := scan put memory slots rounds (index + bytes.length) count (next, after)
              (examined ++ rest.1, rest.2) := by
  induction bytes generalizing index control taken with
  | nil => exact ⟨control, [], rfl, rfl, fun put sink rounds => ⟨[], taken, nofun, by
      rw [length_nil, zero_add]
      rfl⟩⟩
  | cons ch bytes inductionHypothesis =>
    have first : ch ≠ 0 := fun zero => nonzero (mem_cons.mpr (Or.inl zero.symm))
    have here : memory index = ch := stored 0 (succ_pos _)
    obtain ⟨middle, early, does, place, stays, steps⟩ := step_slots control positive ch
      taken (slots.args (taken + (control.place.takes ch).length) (types (control.place.next ch)
        bytes))
    obtain ⟨next, late, prints, ends, runs⟩ := inductionHypothesis stored.tail
      (fun member => nonzero (mem_cons_of_mem _ member)) middle stays
      (taken + (control.place.takes ch).length)
    rw [place] at does prints ends
    refine ⟨next, early ++ late, ?_, ends, fun put sink rounds => ?_⟩
    · rw [types, Slots.args_append, Pending.print, does, Option.bind_some, prints]
      rfl
    rw [length_cons, show bytes.length + 1 + rounds = bytes.length + rounds + 1 by omega, scan,
      here, if_neg fun zero => first zero.2, foldlM_append]
    dsimp only
    rw [steps]
    cases done : early.foldlM put sink with
    | error stop => exact ⟨[index], 0, fun position member => by
        rw [mem_singleton.mp member]
        omega, rfl⟩
    | ok after =>
      obtain ⟨examined, count, bound, scanned⟩ := runs put after rounds
      refine ⟨index :: examined, count, fun position member => ?_, ?_⟩
      · rcases mem_cons.mp member with rfl | later
        · omega
        · have := bound position later
          omega
      · show (index :: (scan put memory slots _ _ _ (middle, after)).1, _) = _
        rw [scanned, show index + (bytes.length + 1) = index + 1 + bytes.length by omega]
        show _ = match late.foldlM put after with
          | .error stop => (index :: examined, some (Except.error stop))
          | .ok last => _
        cases late.foldlM put after <;> rfl

/-! ### A whole format -/

theorem Stored.storedAt {fmt : CString} (stored : Stored memory fmt) :
    StoredAt memory 0 fmt.bytes :=
  fun offset inside => by rw [zero_add, stored offset inside.le]

theorem Stored.zero {fmt : CString} (stored : Stored memory fmt) : memory fmt.bytes.length = 0 := by
  rw [stored _ le_rfl, getD_eq_default _ _ le_rfl]

/-- The run ends, and no byte behind the terminating zero of the format is examined. -/
def KeepsToFormat (put : Put Sink Full) (memory : Nat → UInt8)
    (slots : Slots abi) (fmt : CString) (sink : Sink) : Prop :=
  ∃ rounds examined outcome,
    scan put memory slots rounds 0 0 (resume [], sink) = (examined, some outcome) ∧
      ∀ index ∈ examined, index ≤ fmt.bytes.length

/-- The arguments of a format. -/
def Slots.ofFormat (slots : Slots abi) (fmt : CString) : List (Arg abi) :=
  slots.args 0 (types .text fmt.bytes)

/-- The scan comes to the terminating zero, unless the characters in front of it stop the run. -/
theorem scan_format {fmt : CString} (stored : Stored memory fmt) :
    ∃ next : Control abi, ∃ chars, (resume (slots.ofFormat fmt)).pending.print fmt.bytes =
        some (⟨next.place, next.width, []⟩, chars) ∧ (next.place = .text ↔ Complete fmt) ∧
      ∀ {Sink Full : Type} (put : Put Sink Full) (sink : Sink)
        (rounds : Nat), ∃ examined count, (∀ index ∈ examined, index < fmt.bytes.length) ∧
          scan put memory slots (fmt.bytes.length + rounds) 0 0 (resume [], sink) =
            match chars.foldlM put sink with
            | .error stop => (examined, some (.error stop))
            | .ok after =>
              let rest := scan put memory slots rounds fmt.bytes.length count (next, after)
              (examined ++ rest.1, rest.2) := by
  obtain ⟨next, chars, prints, place, runs⟩ := scan_bytes
    stored.storedAt fmt.nonzero (resume []) (zero_and _) 0
  simp only [zero_add] at runs
  exact ⟨next, chars, prints, by rw [place]; rfl, runs⟩

/-- With a complete format the scan is left as the run over the bytes of the format is. -/
theorem scan_run {fmt : CString} (stored : Stored memory fmt) (complete : Complete fmt)
    (put : Put Sink Full) (sink : Sink) :
    ∃ examined, scan put memory slots (fmt.bytes.length + 1) 0 0 (resume [], sink) =
      (examined, some (run put fmt (slots.ofFormat fmt) sink)) ∧
        ∀ index ∈ examined, index ≤ fmt.bytes.length := by
  obtain ⟨next, chars, prints, place, runs⟩ := scan_format stored
  obtain ⟨examined, count, bound, scanned⟩ := runs put sink 1
  have text := place.mpr complete
  rw [text] at prints
  rw [run_of_print prints, foldlM_append, scanned]
  cases done : chars.foldlM put sink with
  | error stop => exact ⟨examined, rfl, fun index member => (bound index member).le⟩
  | ok after =>
    refine ⟨examined ++ [fmt.bytes.length], ?_, fun index member => ?_⟩
    · dsimp only
      rw [scan, if_pos ⟨text, stored.zero⟩]
      exact congrArg (fun outcome => (_, some outcome)) (foldlM_singleton put after 0).symm
    · rcases mem_append.mp member with early | last
      · exact (bound index early).le
      · exact (mem_singleton.mp last).le

/-- The terminating zero goes to the `switch` in a directive. -/
theorem scan_zero {index : Nat} (zero : memory index = 0) {control : Control abi}
    (inside : control.place ≠ .text) (rounds taken : Nat) (sink : Sink) :
    scan put memory slots (rounds + 1) index taken (control, sink) =
      match ['%'.toUInt8, 0].foldlM put sink with
      | .error stop => ([index], some (.error stop))
      | .ok after =>
        let rest := scan put memory slots rounds (index + 1) taken
          (⟨.text, control.flag, control.width, []⟩, after)
        (index :: rest.1, rest.2) := by
  have nothing : control.place.takes 0 = [] := by
    cases place : control.place with
    | text => exact absurd place inside
    | directive | number => rfl
  rw [scan, zero, if_neg fun text => inside text.1]
  dsimp only
  rw [nothing, step_zero put inside]
  cases ['%'.toUInt8, 0].foldlM put sink <;> rfl

/-- A scan keeps to a format exactly when the format is complete, or what it prints with a percent
sign and the terminating zero behind it stops the run. -/
theorem keepsToFormat_iff {fmt : CString} (stored : Stored memory fmt) :
    ∃ last chars, (resume (slots.ofFormat fmt)).pending.print fmt.bytes = some (last, chars) ∧
      ∀ {Sink Full : Type} (put : Put Sink Full) (sink : Sink),
        KeepsToFormat put memory slots fmt sink ↔
          Complete fmt ∨ ∀ after, (chars ++ ['%'.toUInt8, 0]).foldlM put sink ≠ .ok after := by
  obtain ⟨next, chars, prints, place, runs⟩ := scan_format stored
  refine ⟨_, chars, prints, fun put sink => ?_⟩
  by_cases complete : Complete fmt
  · obtain ⟨examined, done, bound⟩ := scan_run stored complete put sink
    exact ⟨fun _ => Or.inl complete, fun _ => ⟨_, examined, _, done, bound⟩⟩
  have inside : next.place ≠ .text := mt place.mp complete
  rw [or_iff_right complete, foldlM_append]
  constructor
  · rintro ⟨rounds, examined, outcome, ends, bound⟩ after printed
    obtain ⟨front, count, -, scanned⟩ := runs put sink (rounds + 1 + 1)
    rw [show fmt.bytes.length + (rounds + 1 + 1) = rounds + (fmt.bytes.length + 2) by omega,
      scan_more _ ends] at scanned
    cases done : chars.foldlM put sink with
    | error stop =>
      rw [done] at printed
      cases printed
    | ok middle =>
      rw [done] at printed scanned
      have shown : ['%'.toUInt8, 0].foldlM put middle = .ok after := printed
      dsimp only at scanned
      rw [scan_zero stored.zero inside, shown] at scanned
      have member : fmt.bytes.length + 1 ∈ examined := by
        rw [(Prod.mk.inj scanned).1]
        exact mem_append_right _ (mem_cons_of_mem _ (mem_scan rounds _ _ _))
      have := bound _ member
      omega
  · intro stops
    obtain ⟨examined, count, bound, scanned⟩ := runs put sink 1
    cases done : chars.foldlM put sink with
    | error stop =>
      rw [done] at scanned
      exact ⟨_, examined, _, scanned, fun index member => (bound index member).le⟩
    | ok middle =>
      rw [done] at scanned stops
      cases shown : ['%'.toUInt8, 0].foldlM put middle with
      | error stop =>
        dsimp only at scanned
        rw [scan_zero stored.zero inside, shown] at scanned
        refine ⟨_, examined ++ [fmt.bytes.length], _, scanned, fun index member => ?_⟩
        rcases mem_append.mp member with early | last
        · exact (bound index early).le
        · exact (mem_singleton.mp last).le
      | ok after => exact absurd shown (stops after)

/-! ### The buffer -/

theorem foldlM_setCh_zero (chars : List UInt8) (output : Output) :
    ∃ after, chars.foldlM (setCh 0) output = .ok after := by
  induction chars generalizing output with
  | nil => exact ⟨output, rfl⟩
  | cons ch chars inductionHypothesis =>
    rw [foldlM_cons, setCh, if_neg (succ_ne_zero _)]
    exact inductionHypothesis _

/-- Characters fit if the buffer is larger than they are, or has the size zero, which `set_ch` does
not take for full. -/
theorem foldlM_setCh_ok_iff (size : Nat) (chars : List UInt8) (str : Nat → UInt8) :
    (∃ after, chars.foldlM (setCh size) ⟨str, 0⟩ = .ok after) ↔ size = 0 ∨ chars.length < size := by
  rcases Nat.eq_zero_or_pos size with rfl | positive
  · exact ⟨fun _ => Or.inl rfl, fun _ => foldlM_setCh_zero chars _⟩
  · rcases foldlM_setCh chars ⟨str, 0⟩ positive with ⟨fits, after, done, -⟩ | ⟨full, after, done, -⟩
    · exact ⟨fun _ => Or.inr (by simpa using fits), fun _ => ⟨_, done⟩⟩
    · refine ⟨fun ⟨_, other⟩ => ?_, fun fits => ?_⟩
      · rw [done] at other
        cases other
      · simp only [zero_add] at full
        omega

/-- `vsnprintf` ends without a look behind the terminating zero of its format exactly when every
directive of the format is complete, or the buffer is full at the latest with the two characters
printed for the directive that is cut off. -/
theorem vsnprintf_keeps_to_format_iff (memory : Nat → UInt8) (fmt : CString)
    (stored : Stored memory fmt) (str : Nat → UInt8) (size : Nat) (slots : Slots abi) :
    KeepsToFormat (setCh size) memory slots fmt ⟨str, 0⟩ ↔ Complete fmt ∨ ∃ last chars,
        (resume (slots.ofFormat fmt)).pending.print fmt.bytes = some (last, chars) ∧
          0 < size ∧ size ≤ chars.length + 2 := by
  obtain ⟨last, chars, prints, keeps⟩ := keepsToFormat_iff stored
  have room : (∀ after, (chars ++ ['%'.toUInt8, 0]).foldlM (setCh size) ⟨str, 0⟩ ≠ .ok after) ↔
      0 < size ∧ size ≤ chars.length + 2 := by
    rw [← not_exists, foldlM_setCh_ok_iff, length_append]
    show ¬ (size = 0 ∨ chars.length + 2 < size) ↔ _
    omega
  rw [keeps, room]
  refine or_congr_right ⟨fun full => ⟨last, chars, prints, full⟩, ?_⟩
  rintro ⟨_, _, again, full⟩
  cases prints.symm.trans again
  exact full

/-- Slots that all hold the number 42. -/
def sampleSlots : Slots .ilp32 := ⟨fun _ => 42, fun _ => sampleFormat⟩

/-- The format "%5u%%" is complete, so nothing behind it is read. -/
theorem vsnprintf_keeps_to_format_sample :
    KeepsToFormat (setCh 8) (fun index => sampleFormat.bytes.getD index 0) sampleSlots sampleFormat
      ⟨fun _ => 7, 0⟩ :=
  (vsnprintf_keeps_to_format_iff _ sampleFormat (fun _ _ => rfl) (fun _ => 7) 8 sampleSlots).mpr
    (Or.inl (by decide))

/-- The format "%". -/
def percentFormat : CString := ⟨[37], by decide⟩

/-- The format "%" with the letter x behind its terminating zero: bytes 2 and 3 are read, and the
letter is printed. -/
theorem vsnprintf_reads_behind_percent : let memory := fun index => [37, 0, 120].getD index 0
    Stored memory percentFormat ∧
    (scan (setCh 64) memory sampleSlots 10 0 0 (resume [], ⟨fun _ => 7, 0⟩)).1 = [0, 1, 2, 3] ∧
    ¬ KeepsToFormat (setCh 64) memory sampleSlots percentFormat ⟨fun _ => 7, 0⟩ := by
  have stored : Stored (fun index => [37, 0, 120].getD index 0) percentFormat := by
    unfold Stored
    decide
  refine ⟨stored, by decide, fun keeps => ?_⟩
  obtain ⟨last, chars, prints, exactly⟩ := keepsToFormat_iff stored
  obtain rfl : chars = [] := (Prod.mk.inj (Option.some.inj prints.symm)).2
  obtain ⟨after, fits⟩ := (foldlM_setCh_ok_iff 64 ['%'.toUInt8, 0] fun _ => 7).mpr (by decide)
  exact ((exactly _ _).mp keeps).elim (by decide) fun stops => stops after fits

end Snprintf

end AIMv6
