/-
This file models the bit searches of `include/bitops.h` that the rest of the
kernel calls: `__generic_ffs`, which halves the word until the lowest set bit is
found, and `ffz`, which is `ffs` of the complement. A caller that passes a byte
passes a word whose upper bits are zero, so the complement's upper bits are all
set and `ffz` of a full byte is not zero but nine.
-/

import AIMv6.Align

namespace AIMv6

/-- One stage of `__generic_ffs`: when the low `count` bits are clear, skip them. -/
def ffsStage (count : Nat) (state : Nat × Nat) : Nat × Nat :=
  if state.2 &&& (2 ^ count - 1) = 0 then (state.1 + count, state.2 >>> count) else state

/-- `__generic_ffs`. -/
def genericFfs (abi : Abi) (word : Nat) : Nat :=
  if word = 0 then 0
  else
    let start := match abi with
      | .ilp32 => (1, word)
      | .lp64 => ffsStage 32 (1, word)
    (ffsStage 1 (ffsStage 2 (ffsStage 4 (ffsStage 8 (ffsStage 16 start))))).1

/-- `ffz`. -/
def ffz (abi : Abi) (word : Nat) : Nat := genericFfs abi (2 ^ abi.bits - 1 - word)

/-- `(uint32_t)word`. -/
def lowHalf (word : BitVec 64) : BitVec 32 := word.setWidth 32

/-- `(uint32_t)(word >> 32)`. -/
def highHalf (word : BitVec 64) : BitVec 32 := (word >>> 32).setWidth 32

/-! ### `ffz` of a byte -/

/-- In a byte that is not full, `ffz` names a clear bit of that byte. -/
theorem ffz_byte (abi : Abi) (byte : Nat) (small : byte < 255) :
    0 < ffz abi byte ∧ ffz abi byte ≤ 8 ∧ byte.testBit (ffz abi byte - 1) = false := by
  have all : ∀ byte : Fin 255, 0 < ffz abi byte.val ∧ ffz abi byte.val ≤ 8 ∧
      byte.val.testBit (ffz abi byte.val - 1) = false := by
    cases abi <;> decide +kernel
  exact all ⟨byte, small⟩

/-- In a full byte, `ffz` names the first bit past it. -/
theorem ffz_fullByte (abi : Abi) : ffz abi 255 = 9 := by
  cases abi <;> decide +kernel

end AIMv6
