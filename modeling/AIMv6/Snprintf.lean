/-
This file models `vsnprintf` of `lib/libc/snprintf.c`.

Every path through the body of the loop takes one byte of the format, so the function is a
step that is repeated over the format. Between two bytes it keeps where it is: in the text, at
the label `fmt_loop`, or in the loop that reads a width; together with `flag`, `width` and the
arguments that are left. Characters go out one at a time through `set_ch`, which is a
parameter: with a buffer of a size it stores the character and returns from the function when
the buffer is full, and without a bound it lists what it is given.

The digits are collected in `buf`, which has 25 bytes; the model keeps the bytes that have been
stored, and an access to another one is a fault. So is an argument of another type than the
directive takes. A format that ends inside of a directive has its terminating zero printed like
a letter that is no directive, after which the function goes on behind the end of the format;
unless the buffer is full by then that is a fault too. Overflow of `width` wraps around.
-/

import AIMv6.Align
import AIMv6.CString

namespace AIMv6

namespace Snprintf

/-- An argument: a `long` or an `unsigned long`, an `int`, or a `char *`. -/
inductive Arg (abi : Abi) where
  | word (value : BitVec abi.bits)
  | int (value : BitVec 32)
  | string (value : Option CString)
  deriving DecidableEq

/-- What goes beyond the rules of the language. -/
inductive Fault where
  | outside
  | mismatch
  | overrun
  deriving DecidableEq, Repr

/-- How the function is left early: `set_ch` returns, or a fault. -/
inductive Stop (Full : Type) where
  | full (result : Full)
  | fault (fault : Fault)

/-- `set_ch`, for an output of any kind. -/
abbrev Put (Sink Full : Type) := Sink → UInt8 → Except (Stop Full) Sink

/-- `FLAG_ZEROPAD`. -/
def flagZeropad : Nat := 0x002

/-- `FLAG_NEG`. -/
def flagNeg : Nat := 0x100

/-- `sizeof(buf)`. -/
def bufSize : Nat := 25

/-- `is_digit`. -/
def isDigit (ch : UInt8) : Bool := '0'.toUInt8 ≤ ch && ch ≤ '9'.toUInt8

/-- `digits`. -/
def digits (value : Nat) : UInt8 :=
  if value ≤ 9 then '0'.toUInt8 + UInt8.ofNat value else 'a'.toUInt8 + UInt8.ofNat value - 10

/-- The bases numbers are printed in. -/
inductive Base where
  | octal
  | decimal
  | hexadecimal
  deriving DecidableEq, Repr

/-- `base`. -/
def Base.value : Base → Nat
  | octal => 8
  | decimal => 10
  | hexadecimal => 16

/-- The cases of the `switch`. -/
inductive Case where
  | signed
  | unsigned (base : Base)
  | pointer
  | char
  | string
  | percent
  | zero
  | digit
  | default
  deriving DecidableEq, Repr

/-- The case of a byte. -/
def switchCase (ch : UInt8) : Case :=
  if ch = 'd'.toUInt8 then .signed
  else if ch = 'o'.toUInt8 then .unsigned .octal
  else if ch = 'x'.toUInt8 then .unsigned .hexadecimal
  else if ch = 'p'.toUInt8 then .pointer
  else if ch = 'u'.toUInt8 then .unsigned .decimal
  else if ch = 'c'.toUInt8 then .char
  else if ch = 's'.toUInt8 then .string
  else if ch = '%'.toUInt8 then .percent
  else if ch = '0'.toUInt8 then .zero
  else if isDigit ch then .digit
  else .default

/-- Where the function is between two bytes of the format. -/
inductive Place where
  | text
  | directive
  | number
  deriving DecidableEq, Repr

/-- What the function keeps between two bytes of the format. -/
structure Control (abi : Abi) where
  place : Place
  flag : Nat
  width : Int
  args : List (Arg abi)
  deriving DecidableEq

/-- The value a `ssize_t` takes. -/
def ssize (abi : Abi) (value : Int) : Int := value.bmod abi.modulus

/-- One round of the loop that reads a width. -/
def widen (abi : Abi) (width : Int) (ch : UInt8) : Int :=
  ssize abi (ssize abi (width * 10) + ((ch.toNat : Int) - ('0'.toUInt8.toNat : Int)))

/-- The width of `%p`. -/
def pointerWidth : Abi → Int
  | .ilp32 => 8
  | .lp64 => 16

section Sinks

variable {Sink Full : Type}

/-- `buf[buf_pos++] = ch`. -/
def bufPush (buf : List UInt8) (ch : UInt8) : Except (Stop Full) (List UInt8) :=
  if buf.length < bufSize then .ok (buf ++ [ch]) else .error (.fault .outside)

/-- `buf[index]`. -/
def bufGet (buf : List UInt8) (index : Nat) : Except (Stop Full) UInt8 :=
  match buf[index]? with
  | some ch => .ok ch
  | none => .error (.fault .outside)

/-- The loop that stores the digits of a number, with the number of bytes that are left in `buf`. -/
def storeDigits (base : Nat) : Nat → Nat → List UInt8 → Except (Stop Full) (List UInt8)
  | _, 0, buf => .ok buf
  | 0, _ + 1, _ => .error (.fault .outside)
  | room + 1, uval + 1, buf =>
    storeDigits base room ((uval + 1) / base) (buf ++ [digits ((uval + 1) % base)])

/-- The digits of a number in `buf`; zero has one. -/
def fillBuf (base uval : Nat) : Except (Stop Full) (List UInt8) := do
  let buf ← storeDigits base bufSize uval []
  if buf.length = 0 then bufPush buf '0'.toUInt8 else pure buf

variable (put : Put Sink Full)

/-- The loop that prints the digits. -/
def putDigits (buf : List UInt8) : Nat → Sink → Except (Stop Full) Sink
  | 0, sink => .ok sink
  | bufPos + 1, sink => do
    let ch ← bufGet buf bufPos
    putDigits buf bufPos (← put sink ch)

/-- The loops that print the digits to a width. -/
def putPadded (fill : UInt8) (buf : List UInt8) : Nat → Sink → Except (Stop Full) Sink
  | 0, sink => .ok sink
  | width + 1, sink => do
    let ch ← if buf.length ≤ width then pure fill else bufGet buf width
    putPadded fill buf width (← put sink ch)

/-- The loop that prints a string, and the one that fills up to the width behind it. -/
def putString (bytes : List UInt8) (width : Int) (sink : Sink) : Except (Stop Full) Sink := do
  let sink ← bytes.foldlM put sink
  (List.replicate (width - (bytes.length : Int)).toNat ' '.toUInt8).foldlM put sink

/-- The sign in front of the digits. -/
def putSign (flag : Nat) (sink : Sink) : Except (Stop Full) Sink :=
  if flag &&& flagNeg ≠ 0 then put sink '-'.toUInt8 else pure sink

/-- The label `print_uint`. -/
def printUint (flag : Nat) (width : Int) (base uval : Nat) (sink : Sink) :
    Except (Stop Full) Sink := do
  let buf ← fillBuf base uval
  if width = 0 then
    putDigits put buf buf.length (← putSign put flag sink)
  else if 0 < width ∧ flag ||| flagZeropad ≠ 0 then
    putPadded put '0'.toUInt8 buf width.toNat (← putSign put flag sink)
  else if 0 < width then
    let buf ← if flag &&& flagNeg ≠ 0 then bufPush buf '-'.toUInt8 else pure buf
    putPadded put ' '.toUInt8 buf width.toNat sink
  else pure sink

variable {abi : Abi}

/-- Behind the `switch`. -/
def resume (args : List (Arg abi)) : Control abi := ⟨.text, 0, 0, args⟩

/-- The label `get_uint`. -/
def getUint (control : Control abi) (flag : Nat) (width : Int) (base : Base) (sink : Sink) :
    Except (Stop Full) (Control abi × Sink) :=
  match control.args with
  | .word value :: args => do
    return (resume args, ← printUint put flag width base.value value.toNat sink)
  | _ => .error (.fault .mismatch)

/-- The `switch` at the label `fmt_loop`. -/
def switch (control : Control abi) (ch : UInt8) (sink : Sink) :
    Except (Stop Full) (Control abi × Sink) :=
  match switchCase ch with
  | .signed =>
    match control.args with
    | .word value :: args =>
      if value.toInt < 0 then do
        return (resume args,
          ← printUint put (control.flag ||| flagNeg) control.width Base.decimal.value
            (-value).toNat sink)
      else do
        return (resume args, ← printUint put control.flag control.width Base.decimal.value
          value.toNat sink)
    | _ => .error (.fault .mismatch)
  | .unsigned base => getUint put control control.flag control.width base sink
  | .pointer => getUint put control (control.flag ||| flagZeropad) (pointerWidth abi) .hexadecimal
    sink
  | .char =>
    match control.args with
    | .int value :: args => do return (resume args, ← put sink ⟨value.setWidth 8⟩)
    | _ => .error (.fault .mismatch)
  | .string =>
    match control.args with
    | .string value :: args => do
      let bytes := (value.map CString.bytes).getD ("(null)".toList.map Char.toUInt8)
      return (resume args, ← putString put bytes control.width sink)
    | _ => .error (.fault .mismatch)
  | .percent => do return (resume control.args, ← put sink '%'.toUInt8)
  | .zero => .ok ({ control with place := .directive, flag := control.flag ||| flagZeropad }, sink)
  | .digit => .ok ({ control with place := .number, width := widen abi control.width ch }, sink)
  | .default => do
    let sink ← put sink '%'.toUInt8
    return ({ control with place := .text }, ← put sink ch)

/-- One byte of the format. -/
def step (state : Control abi × Sink) (ch : UInt8) : Except (Stop Full) (Control abi × Sink) :=
  match state.1.place with
  | .text =>
    if ch = '%'.toUInt8 then .ok ({ state.1 with place := .directive }, state.2)
    else do return (state.1, ← put state.2 ch)
  | .directive => switch put state.1 ch state.2
  | .number =>
    if isDigit ch then .ok ({ state.1 with width := widen abi state.1.width ch }, state.2)
    else switch put state.1 ch state.2

/-- The whole format from the start. -/
def format (fmt : List UInt8) (args : List (Arg abi)) (sink : Sink) :
    Except (Stop Full) (Control abi × Sink) :=
  fmt.foldlM (step put) (resume args, sink)

/-- The whole function up to the last `set_ch`. -/
def run (fmt : CString) (args : List (Arg abi)) (sink : Sink) : Except (Stop Full) Sink := do
  let state ← format put fmt.bytes args sink
  if state.1.place = .text then put state.2 0
  else do
    -- The terminating zero goes to the `switch`, and the next byte is behind the format.
    let _ ← step put state 0
    .error (.fault .overrun)

end Sinks

/-! ### The buffer -/

/-- The memory from `str` on, and `pos`. -/
structure Output where
  str : Nat → UInt8
  pos : Nat

/-- `set_ch`, for a buffer of a size. -/
def setCh (size : Nat) (output : Output) (ch : UInt8) :
    Except (Stop (Nat × (Nat → UInt8))) Output :=
  let str := Function.update output.str output.pos ch
  if output.pos + 1 = size then .error (.full (size, Function.update str (size - 1) 0))
  else .ok ⟨str, output.pos + 1⟩

/-- `vsnprintf`: the value returned and the memory from `str` on. -/
def vsnprintf {abi : Abi} (str : Nat → UInt8) (size : Nat) (fmt : CString) (args : List (Arg abi)) :
    Except Fault (Nat × (Nat → UInt8)) :=
  match run (setCh size) fmt args ⟨str, 0⟩ with
  | .ok output => .ok (output.pos - 1, output.str)
  | .error (.full result) => .ok result
  | .error (.fault fault) => .error fault

/-- `set_ch` without a bound: it lists what it is given. -/
def listCh (listed : List UInt8) (ch : UInt8) : Except (Stop Empty) (List UInt8) :=
  .ok (listed ++ [ch])

/-- The unbounded output, without the byte that ends it. -/
def unbounded {abi : Abi} (fmt : CString) (args : List (Arg abi)) : Except Fault (List UInt8) :=
  match run listCh fmt args [] with
  | .ok listed => .ok listed.dropLast
  | .error (.fault fault) => .error fault

end Snprintf

end AIMv6
