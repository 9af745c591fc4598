/-
This file models the bit searches of `include/bitops.h` with the versions the
i386 and the MIPS port put in their place: `ffs` and `fls` for the least and the
most significant set bit, `ffz` and `flz` for the zero bits, all counted from one
with zero for "none". The generic search halves the word by masks, i386 uses the
scan instructions and MIPS counts leading zeros and ones after isolating a bit;
on a word they all give the same answer.

The 64-bit searches are built from these. Where a long has 64 bits they are the
word searches, but where it has 32 they look only at whether the low half is
zero, which is the question `ffs64` has to ask, and only for a nonzero word.
The test in `ffz64` is spelled `bits_per_long`, which is no macro, so that one
never looks at the high half at all. The last theorem says for which words each
of them is right.
-/

import AIMv6.Bitops
import AIMv6.IndexSearch

namespace AIMv6

open Nat

/-! ### The generic search for the last bit -/

/-- One stage of `__generic_fls`: when the high `count` bits are clear, shift them out. -/
def flsStage {bits : Nat} (count : Nat) (state : Int × BitVec bits) : Int × BitVec bits :=
  if state.2 &&& (BitVec.allOnes bits <<< (bits - count)) = 0 then
    (state.1 - count, state.2 <<< count)
  else state

/-- `__generic_fls`. -/
def genericFls (abi : Abi) (word : BitVec abi.bits) : Int :=
  if word = 0 then 0
  else
    let start := ((abi.bits : Int), word)
    let start := if abi.bits = 64 then flsStage 32 start else start
    (flsStage 1 (flsStage 2 (flsStage 4 (flsStage 8 (flsStage 16 start))))).1

/-! ### The searches of the MIPS port -/

namespace Mips

/-- What `BITS_PER_LONG - x` is as an `int`, the count `x` being an `unsigned long`. -/
def bitsLess (abi : Abi) (count : BitVec abi.bits) : Int :=
  ((BitVec.ofNat abi.bits abi.bits - count).setWidth 32).toInt

/-- `__fls`, by `clz` or `dclz`. -/
def fls (abi : Abi) (word : BitVec abi.bits) : Int := bitsLess abi word.clz

/-- `__ffs`. -/
def ffs (abi : Abi) (word : BitVec abi.bits) : Int := fls abi (word &&& -word)

/-- `__flz`, by `clo` or `dclo`, which count the leading ones. -/
def flz (abi : Abi) (word : BitVec abi.bits) : Int := bitsLess abi (~~~word).clz

/-- `__ffz`. -/
def ffz (abi : Abi) (word : BitVec abi.bits) : Int := flz abi (~~~(~~~word &&& -(~~~word)))

end Mips

/-! ### The searches of the i386 port -/

namespace I386

/-- The instruction `bsfl`: the index it stores, or nothing when it sets the zero flag. -/
def bsf (word : BitVec 32) : Option Nat := if word = 0 then none else some word.ctz.toNat

/-- The instruction `bsrl`. -/
def bsr (word : BitVec 32) : Option Nat :=
  if word = 0 then none else some (31 - word.clz.toNat)

/-- The register after the scan, the conditional jump and the move of -1. -/
def scanned (found : Option Nat) : Int :=
  match found with
  | some index => index
  | none => -1

/-- `__ffs`. -/
def ffs (word : BitVec 32) : Int := scanned (bsf word) + 1

/-- `__fls`. -/
def fls (word : BitVec 32) : Int := scanned (bsr word) + 1

/-- `__ffz`. -/
def ffz (word : BitVec 32) : Int := ffs (~~~word)

/-- `__flz`. -/
def flz (word : BitVec 32) : Int := fls (~~~word)

end I386

/-! ### The builds -/

/-- The header a kernel of the given word size takes its bit searches from. -/
inductive Build : Abi → Type where
  | generic (abi : Abi) : Build abi
  | mips (abi : Abi) : Build abi
  | i386 : Build .ilp32

namespace Build

variable {abi : Abi}

/-- `ffs`. -/
def ffs : {abi : Abi} → Build abi → BitVec abi.bits → Int
  | _, .generic abi, word => genericFfs abi word.toNat
  | _, .mips abi, word => Mips.ffs abi word
  | _, .i386, word => I386.ffs word

/-- `fls`. -/
def fls : {abi : Abi} → Build abi → BitVec abi.bits → Int
  | _, .generic abi, word => genericFls abi word
  | _, .mips abi, word => Mips.fls abi word
  | _, .i386, word => I386.fls word

/-- `ffz`. -/
def ffz : {abi : Abi} → Build abi → BitVec abi.bits → Int
  | _, .generic abi, word => AIMv6.ffz abi word.toNat
  | _, .mips abi, word => Mips.ffz abi word
  | _, .i386, word => I386.ffz word

/-- `flz`. -/
def flz : {abi : Abi} → Build abi → BitVec abi.bits → Int
  | _, .generic abi, word => genericFls abi (~~~word)
  | _, .mips abi, word => Mips.flz abi word
  | _, .i386, word => I386.flz word

end Build

/-! ### Extreme bits of a word -/

section Extremes

variable {bits : Nat} {word : BitVec bits}

theorem clz_le_bits (word : BitVec bits) : word.clz.toNat ≤ bits := by
  have bound : word.clz.toNat ≤ (bits : BitVec bits).toNat := BitVec.clz_le
  rwa [BitVec.natCast_eq_ofNat, BitVec.toNat_ofNat, mod_eq_of_lt Nat.lt_two_pow_self] at bound

/-- The last set bit of a nonzero word is the one below its leading zeros. -/
theorem isGreatest_clz (nonzero : word ≠ 0) : word.clz.toNat < bits ∧
    IsGreatest {position | word.getLsbD position = true} (bits - 1 - word.clz.toNat) := by
  have positive : 0 < bits := by
    rcases Nat.eq_zero_or_pos bits with rfl | positive
    · exact absurd (BitVec.of_length_zero) nonzero
    · exact positive
  have fewer : word.clz.toNat < bits := by
    have bound : word.clz.toNat < (bits : BitVec bits).toNat :=
      BitVec.clz_lt_iff_ne_zero.mpr nonzero
    rwa [BitVec.natCast_eq_ofNat, BitVec.toNat_ofNat, mod_eq_of_lt Nat.lt_two_pow_self] at bound
  refine ⟨fewer, BitVec.getLsbD_true_clz_of_ne_zero positive nonzero, fun position member => ?_⟩
  have large : 2 ^ position ≤ word.toNat := ge_two_pow_of_testBit member
  have small : word.toNat < 2 ^ (bits - word.clz.toNat) := BitVec.toNat_lt_two_pow_sub_clz
  have below := (Nat.pow_lt_pow_iff_right (by decide)).mp (large.trans_lt small)
  omega

theorem isLeast_ctz (nonzero : word ≠ 0) :
    IsLeast {position | word.getLsbD position = true} word.ctz.toNat := by
  refine ⟨BitVec.getLsbD_true_ctz_of_ne_zero nonzero, fun position member => ?_⟩
  by_contra below
  have clear : word.getLsbD position = false :=
    BitVec.getLsbD_false_of_lt_ctz (Nat.not_le.mp below)
  exact absurd (member.symm.trans clear) (by decide)

theorem getLsbD_of_eq_zero (zero : word = 0) (position : Nat) : word.getLsbD position = false := by
  rw [zero, BitVec.ofNat_eq_ofNat, BitVec.getLsbD_zero]

theorem exists_getLsbD (nonzero : word ≠ 0) : ∃ position, word.getLsbD position = true :=
  ⟨_, (isLeast_ctz nonzero).1⟩

theorem getLsbD_isolated (word : BitVec bits) (position : Nat) :
    (word &&& -word).getLsbD position = true ↔
      IsLeast {position | word.getLsbD position = true} position := by
  rw [BitVec.getLsbD_and, BitVec.getLsbD_neg, Bool.and_eq_true]
  constructor
  · rintro ⟨here, negated⟩
    refine ⟨here, fun other member => ?_⟩
    by_contra below
    have inside := BitVec.lt_of_getLsbD here
    have earlier : ∃ j < position, word.getLsbD j = true := ⟨other, not_le.mp below, member⟩
    rw [here, decide_eq_true inside, decide_eq_true earlier] at negated
    exact absurd negated (by decide)
  · rintro ⟨here, least⟩
    have earlier : ¬ ∃ j < position, word.getLsbD j = true :=
      fun ⟨j, before, set⟩ => absurd (least set) (not_le.mpr before)
    have here : word.getLsbD position = true := here
    simp [here, earlier]

theorem firstIndex_of_isolated {answer : Int}
    (last : LastIndex (word &&& -word).getLsbD answer) : FirstIndex word.getLsbD answer := by
  rcases last with ⟨index, found, rfl⟩ | ⟨none, rfl⟩
  · exact IndexAnswer.of_extreme ((getLsbD_isolated word index).mp found.1)
  · refine IndexAnswer.of_none fun position => ?_
    by_contra here
    obtain ⟨index, least⟩ := exists_isLeast ⟨position, Bool.not_eq_false _ ▸ here⟩
    have := (getLsbD_isolated word index).mpr least
    simp [none] at this

end Extremes

/-! ### Each version answers the search -/

theorem Abi.bits_cases (abi : Abi) : abi.bits = 32 ∨ abi.bits = 64 := by
  cases abi
  · exact Or.inl rfl
  · exact Or.inr rfl

theorem Mips.bitsLess_eq {abi : Abi} {count : BitVec abi.bits} (bounded : count.toNat ≤ abi.bits) :
    Mips.bitsLess abi count = abi.bits - count.toNat := by
  have width : (BitVec.ofNat abi.bits abi.bits).toNat = abi.bits := by
    rw [BitVec.toNat_ofNat, mod_eq_of_lt Nat.lt_two_pow_self]
  have less : (BitVec.ofNat abi.bits abi.bits - count).toNat = abi.bits - count.toNat := by
    rw [BitVec.toNat_sub_of_le (by rw [BitVec.le_def, width]; exact bounded), width]
  have small := abi.bits_cases
  have kept : ((BitVec.ofNat abi.bits abi.bits - count).setWidth 32).toNat =
      abi.bits - count.toNat := by
    rw [BitVec.toNat_setWidth, less, mod_eq_of_lt (by omega)]
  rw [Mips.bitsLess, BitVec.toInt_eq_toNat_of_lt (by omega), kept]
  omega

theorem Mips.fls_lastIndex (abi : Abi) (word : BitVec abi.bits) :
    LastIndex word.getLsbD (Mips.fls abi word) := by
  rw [Mips.fls, Mips.bitsLess_eq (clz_le_bits word)]
  by_cases zero : word = 0
  · have whole : word.clz.toNat = abi.bits := by
      rw [BitVec.clz_eq_iff_eq_zero.mpr zero, BitVec.natCast_eq_ofNat, BitVec.toNat_ofNat,
        mod_eq_of_lt Nat.lt_two_pow_self]
    rw [whole, sub_self]
    exact IndexAnswer.of_none (getLsbD_of_eq_zero zero)
  · obtain ⟨fewer, greatest⟩ := isGreatest_clz zero
    have answer := IndexAnswer.of_extreme greatest
    rwa [show ((abi.bits - 1 - word.clz.toNat : Nat) : Int) + 1 = abi.bits - word.clz.toNat by
      omega] at answer

theorem I386.ffs_firstIndex (word : BitVec 32) : FirstIndex word.getLsbD (I386.ffs word) := by
  rw [I386.ffs, I386.bsf]
  split
  case isTrue zero => exact IndexAnswer.of_none (getLsbD_of_eq_zero zero)
  case isFalse nonzero => exact IndexAnswer.of_extreme (isLeast_ctz nonzero)

theorem I386.fls_lastIndex (word : BitVec 32) : LastIndex word.getLsbD (I386.fls word) := by
  rw [I386.fls, I386.bsr]
  split
  case isTrue zero => exact IndexAnswer.of_none (getLsbD_of_eq_zero zero)
  case isFalse nonzero => exact IndexAnswer.of_extreme (isGreatest_clz nonzero).2

/-! ### The generic searches halve the word -/

/-- The first set bit is among the low `width` bits of what is left of the word. -/
def FfsLeft (first width : Nat) (state : Nat × Nat) : Prop :=
  ∃ index < width, IsLeast {position | state.2.testBit position = true} index ∧
    first + 1 = state.1 + index

theorem ffsStage_left {first count : Nat} {state : Nat × Nat}
    (left : FfsLeft first (2 * count) state) : FfsLeft first count (ffsStage count state) := by
  obtain ⟨index, inside, least, sum⟩ := left
  rw [ffsStage, and_two_pow_sub_one_eq_mod]
  split
  case isTrue clear =>
    -- No bit below `count` is set, so the first one moves down by `count`.
    have low : count ≤ index := by
      by_contra below
      have here : (state.2 % 2 ^ count).testBit index = true := by
        rw [testBit_mod_two_pow, least.1, decide_eq_true (not_le.mp below)]
        rfl
      rw [clear, zero_testBit] at here
      exact absurd here (by decide)
    refine ⟨index - count, by omega, ⟨?_, fun position member => ?_⟩, by simp only; omega⟩
    · exact (testBit_shiftRight _).trans (by rw [Nat.add_sub_cancel' low]; exact least.1)
    · have here : state.2.testBit (count + position) = true :=
        (testBit_shiftRight _).symm.trans member
      have := least.2 here
      omega
  case isFalse set =>
    refine ⟨index, ?_, least, sum⟩
    by_contra above
    refine set (eq_of_testBit_eq fun position => ?_)
    rw [testBit_mod_two_pow, zero_testBit]
    by_contra here
    simp only [Bool.not_eq_false, Bool.and_eq_true, decide_eq_true_eq] at here
    have := least.2 here.2
    omega

/-- The stages from 16 bits down leave the last bit alone, so they have counted the others. -/
theorem ffsStages_left {first : Nat} {state : Nat × Nat} (left : FfsLeft first 32 state) :
    (ffsStage 1 (ffsStage 2 (ffsStage 4 (ffsStage 8 (ffsStage 16 state))))).1 = first + 1 := by
  have left : FfsLeft first 16 (ffsStage 16 state) := ffsStage_left left
  have left : FfsLeft first 8 (ffsStage 8 (ffsStage 16 state)) := ffsStage_left left
  have left : FfsLeft first 4 (ffsStage 4 (ffsStage 8 (ffsStage 16 state))) := ffsStage_left left
  have left : FfsLeft first 2 (ffsStage 2 (ffsStage 4 (ffsStage 8 (ffsStage 16 state)))) :=
    ffsStage_left left
  have left : FfsLeft first 1
      (ffsStage 1 (ffsStage 2 (ffsStage 4 (ffsStage 8 (ffsStage 16 state))))) := ffsStage_left left
  obtain ⟨index, inside, -, sum⟩ := left
  omega

theorem genericFfs_firstIndex (abi : Abi) (word : BitVec abi.bits) :
    FirstIndex word.getLsbD (genericFfs abi word.toNat) := by
  by_cases zero : word = 0
  · have none : genericFfs abi word.toNat = 0 := by
      rw [zero]
      cases abi <;> rfl
    rw [none]
    exact IndexAnswer.of_none (getLsbD_of_eq_zero zero)
  · have least := isLeast_ctz zero
    have start : FfsLeft word.ctz.toNat abi.bits (1, word.toNat) :=
      ⟨word.ctz.toNat, BitVec.lt_of_getLsbD least.1, least, Nat.add_comm _ _⟩
    have nonzero : word.toNat ≠ 0 := fun none => zero (BitVec.eq_of_toNat_eq none)
    have answer : genericFfs abi word.toNat = word.ctz.toNat + 1 := by
      cases abi
      · simp only [genericFfs, if_neg nonzero]
        exact ffsStages_left start
      · simp only [genericFfs, if_neg nonzero]
        exact ffsStages_left (ffsStage_left start)
    rw [answer]
    exact IndexAnswer.of_extreme least

/-- The last set bit is among the high `width` bits of what is left of the word. -/
def FlsLeft {bits : Nat} (last width : Nat) (state : Int × BitVec bits) : Prop :=
  ∃ index, bits ≤ index + width ∧
    IsGreatest {position | state.2.getLsbD position = true} index ∧ state.1 + index = last + bits

theorem getLsbD_highMask {count bits : Nat} (word : BitVec bits) (position : Nat) :
    (word &&& BitVec.allOnes bits <<< (bits - count)).getLsbD position = true ↔
      word.getLsbD position = true ∧ bits ≤ position + count := by
  rw [BitVec.getLsbD_and, BitVec.getLsbD_shiftLeft, BitVec.getLsbD_allOnes]
  simp only [Bool.and_eq_true, decide_eq_true_eq, Bool.not_eq_true', decide_eq_false_iff_not]
  constructor
  · rintro ⟨here, ⟨_, high⟩, _⟩
    exact ⟨here, by omega⟩
  · rintro ⟨here, high⟩
    have := BitVec.lt_of_getLsbD here
    exact ⟨here, ⟨this, by omega⟩, by omega⟩

theorem flsStage_left {count bits last : Nat} {state : Int × BitVec bits}
    (left : FlsLeft last (2 * count) state) : FlsLeft last count (flsStage count state) := by
  obtain ⟨index, inside, greatest, sum⟩ := left
  rw [flsStage]
  split
  case isTrue clear =>
    -- None of the high `count` bits is set, so the last one moves up by `count`.
    have low : index + count < bits := by
      by_contra above
      have here := (getLsbD_highMask state.2 index).mpr ⟨greatest.1, not_lt.mp above⟩
      rw [getLsbD_of_eq_zero clear] at here
      exact absurd here (by decide)
    refine ⟨index + count, by omega, ⟨?_, fun position member => ?_⟩, by simp only; omega⟩
    · have here : state.2.getLsbD index = true := greatest.1
      simp [BitVec.getLsbD_shiftLeft, low, here]
    · have here : (state.2 <<< count).getLsbD position = true := member
      rw [BitVec.getLsbD_shiftLeft, Bool.and_eq_true] at here
      have := greatest.2 here.2
      omega
  case isFalse set =>
    refine ⟨index, ?_, greatest, sum⟩
    obtain ⟨position, here⟩ := exists_getLsbD set
    obtain ⟨here, high⟩ := (getLsbD_highMask state.2 position).mp here
    have := greatest.2 here
    omega

theorem flsStages_left {bits last : Nat} {state : Int × BitVec bits}
    (left : FlsLeft last 32 state) :
    (flsStage 1 (flsStage 2 (flsStage 4 (flsStage 8 (flsStage 16 state))))).1 = last + 1 := by
  have left : FlsLeft last 16 (flsStage 16 state) := flsStage_left left
  have left : FlsLeft last 8 (flsStage 8 (flsStage 16 state)) := flsStage_left left
  have left : FlsLeft last 4 (flsStage 4 (flsStage 8 (flsStage 16 state))) := flsStage_left left
  have left : FlsLeft last 2 (flsStage 2 (flsStage 4 (flsStage 8 (flsStage 16 state)))) :=
    flsStage_left left
  have left : FlsLeft last 1
      (flsStage 1 (flsStage 2 (flsStage 4 (flsStage 8 (flsStage 16 state))))) := flsStage_left left
  obtain ⟨index, inside, greatest, sum⟩ := left
  have := BitVec.lt_of_getLsbD greatest.1
  omega

theorem genericFls_lastIndex (abi : Abi) (word : BitVec abi.bits) :
    LastIndex word.getLsbD (genericFls abi word) := by
  by_cases zero : word = 0
  · rw [genericFls, if_pos zero]
    exact IndexAnswer.of_none (getLsbD_of_eq_zero zero)
  · obtain ⟨-, greatest⟩ := isGreatest_clz zero
    have start : FlsLeft (abi.bits - 1 - word.clz.toNat) abi.bits ((abi.bits : Int), word) :=
      ⟨_, le_add_left _ _, greatest, add_comm _ _⟩
    have answer : genericFls abi word = (abi.bits - 1 - word.clz.toNat : Nat) + 1 := by
      cases abi
      · simp only [genericFls, if_neg zero]
        exact flsStages_left start
      · simp only [genericFls, if_neg zero]
        exact flsStages_left (flsStage_left start)
    rw [answer]
    exact IndexAnswer.of_extreme greatest

/-! ### The word searches agree -/

namespace Build

variable {abi : Abi} (build : Build abi)

theorem ffs_firstIndex (word : BitVec abi.bits) : FirstIndex word.getLsbD (build.ffs word) := by
  cases build with
  | generic => exact genericFfs_firstIndex abi word
  | mips => exact firstIndex_of_isolated (Mips.fls_lastIndex abi (word &&& -word))
  | i386 => exact I386.ffs_firstIndex word

theorem fls_lastIndex (word : BitVec abi.bits) : LastIndex word.getLsbD (build.fls word) := by
  cases build with
  | generic => exact genericFls_lastIndex abi word
  | mips => exact Mips.fls_lastIndex abi word
  | i386 => exact I386.fls_lastIndex word

theorem ffz_eq (word : BitVec abi.bits) : build.ffz word = build.ffs (~~~word) := by
  cases build with
  | generic => rw [ffz, ffs, AIMv6.ffz, BitVec.toNat_not]
  | mips => rw [ffz, ffs, Mips.ffz, Mips.flz, Mips.ffs, Mips.fls, BitVec.not_not]
  | i386 => rfl

theorem flz_eq (word : BitVec abi.bits) : build.flz word = build.fls (~~~word) := by
  cases build <;> rfl

end Build

/-- Every version of a search returns the index its name says, so they return the same one. -/
theorem word_searches_agree {abi : Abi} (build other : Build abi) (word : BitVec abi.bits) :
    FirstIndex word.getLsbD (build.ffs word) ∧ LastIndex word.getLsbD (build.fls word) ∧
    FirstIndex (~~~word).getLsbD (build.ffz word) ∧ LastIndex (~~~word).getLsbD (build.flz word) ∧
    build.ffz word = build.ffs (~~~word) ∧ build.flz word = build.fls (~~~word) ∧
    build.ffs word = other.ffs word ∧ build.fls word = other.fls word ∧
    build.ffz word = other.ffz word ∧ build.flz word = other.flz word := by
  have ffs := fun (build : Build abi) => build.ffs_firstIndex
  have fls := fun (build : Build abi) => build.fls_lastIndex
  simp only [Build.ffz_eq, Build.flz_eq, true_and]
  exact ⟨ffs build word, fls build word, ffs build _, fls build _,
    (ffs build word).unique (ffs other word), (fls build word).unique (fls other word),
    (ffs build _).unique (ffs other _), (fls build _).unique (fls other _)⟩

/-! ### The 64-bit searches -/

/-- The body the generic 64-bit searches share, with the word search they call. -/
def genericSearch64 {abi : Abi} (search : BitVec abi.bits → Int) (word : BitVec 64) : Int :=
  if abi.bits = 32 ∧ lowHalf word = 0 then search ((highHalf word).setWidth abi.bits) + 32
  else search (word.setWidth abi.bits)

namespace Build

variable {abi : Abi}

/-- `ffs64`. The MIPS port has its own name for the same call where a long has 64 bits. -/
def ffs64 (build : Build abi) (word : BitVec 64) : Int := genericSearch64 build.ffs word

/-- `fls64`. -/
def fls64 (build : Build abi) (word : BitVec 64) : Int := genericSearch64 build.fls word

/-- `ffz64`. The test of its low half is under `#if bits_per_long == 32`, which never holds. -/
def ffz64 (build : Build abi) (word : BitVec 64) : Int := build.ffz (word.setWidth abi.bits)

/-- `flz64`. -/
def flz64 (build : Build abi) (word : BitVec 64) : Int := genericSearch64 build.flz word

end Build

theorem genericSearch64_low {search : BitVec (Abi.bits .ilp32) → Int} {word : BitVec 64}
    (nonzero : lowHalf word ≠ 0) : genericSearch64 search word = search (lowHalf word) := by
  rw [genericSearch64, if_neg fun both => nonzero both.2]
  rfl

theorem genericSearch64_high {search : BitVec (Abi.bits .ilp32) → Int} {word : BitVec 64}
    (zero : lowHalf word = 0) : genericSearch64 search word = search (highHalf word) + 32 := by
  rw [genericSearch64, if_pos ⟨rfl, zero⟩]
  exact congrArg (search · + 32) (BitVec.setWidth_eq _)

theorem genericSearch64_lp64 (search : BitVec (Abi.bits .lp64) → Int) (word : BitVec 64) :
    genericSearch64 search word = search word := by
  rw [genericSearch64, if_neg fun both => absurd both.1 (by decide)]
  exact congrArg search (BitVec.setWidth_eq _)

theorem joined_halves (word : BitVec 64) :
    Joined 32 word.getLsbD (lowHalf word).getLsbD (highHalf word).getLsbD := by
  refine ⟨fun position below => ?_, fun position => ?_, fun position => BitVec.lt_of_getLsbD⟩
  · rw [lowHalf, BitVec.getLsbD_setWidth, decide_eq_true below, Bool.true_and]
  · rw [highHalf, BitVec.getLsbD_setWidth, BitVec.getLsbD_ushiftRight, Nat.add_comm]
    rcases lt_or_ge position 32 with below | above
    · rw [decide_eq_true below, Bool.true_and]
    · rw [BitVec.getLsbD_of_ge _ _ (by omega), Bool.and_false]

theorem lowHalf_not (word : BitVec 64) : lowHalf (~~~word) = ~~~(lowHalf word) :=
  BitVec.setWidth_not (by decide)

theorem highHalf_not (word : BitVec 64) : highHalf (~~~word) = ~~~(highHalf word) := by
  refine BitVec.eq_of_getLsbD_eq fun position inside => ?_
  rw [← (joined_halves (~~~word)).above, BitVec.getLsbD_not, BitVec.getLsbD_not,
    ← (joined_halves word).above, decide_eq_true inside, decide_eq_true (by omega)]

theorem not_eq_zero_iff {bits : Nat} (word : BitVec bits) :
    ~~~word = 0 ↔ word = BitVec.allOnes bits := by
  rw [BitVec.ofNat_eq_ofNat, ← BitVec.not_allOnes, BitVec.not_inj]

theorem eq_zero_iff_halves (word : BitVec 64) :
    word = 0 ↔ lowHalf word = 0 ∧ highHalf word = 0 := by
  refine ⟨fun zero => by rw [zero]; exact ⟨rfl, rfl⟩, fun ⟨low, high⟩ => ?_⟩
  by_contra nonzero
  obtain ⟨position, here⟩ := exists_getLsbD nonzero
  rw [(joined_halves word).none (getLsbD_of_eq_zero low) (getLsbD_of_eq_zero high)] at here
  exact absurd here (by decide)

/-! ### The 64-bit searches of a 32-bit build -/

section Narrow

variable (build : Build .ilp32) (word : BitVec 64)

/-- `ffs64` asks the right question, but for a word of zeros it answers 32. -/
theorem ffs64_ilp32_iff : FirstIndex word.getLsbD (build.ffs64 word) ↔ word ≠ 0 := by
  have joined := joined_halves word
  rw [Build.ffs64]
  by_cases low : lowHalf word = 0
  · rw [genericSearch64_high low, Ne, eq_zero_iff_halves, not_and]
    have search := build.ffs_firstIndex (highHalf word)
    refine ⟨fun right _ high => ?_, fun high => ?_⟩
    · have none := joined.none (getLsbD_of_eq_zero low) (getLsbD_of_eq_zero high)
      have zero := search.unique (IndexAnswer.of_none (getLsbD_of_eq_zero high))
      have := right.unique (IndexAnswer.of_none none)
      omega
    · exact joined.firstIndex_upper (getLsbD_of_eq_zero low) (exists_getLsbD (high low)) search
  · rw [genericSearch64_low low]
    refine ⟨fun _ zero => low ((eq_zero_iff_halves word).mp zero).1, fun _ => ?_⟩
    exact joined.firstIndex_lower (exists_getLsbD low) (build.ffs_firstIndex (lowHalf word))

/-- A search for the last bit of a word with a bit in its high half answers more than 32. -/
theorem lastIndex_high_gt {answer : Int} (high : highHalf word ≠ 0)
    (last : LastIndex word.getLsbD answer) : 32 < answer := by
  obtain ⟨rest, greatest⟩ := exists_isGreatest (exists_getLsbD high) fun _ => BitVec.lt_of_getLsbD
  have := last.unique
    ((joined_halves word).lastIndex_upper (exists_getLsbD high) (.of_extreme greatest))
  omega

theorem lastIndex_lowHalf_iff :
    LastIndex word.getLsbD (build.fls (lowHalf word)) ↔ highHalf word = 0 := by
  have joined := joined_halves word
  have search := build.fls_lastIndex (lowHalf word)
  refine ⟨fun right => ?_, fun high => joined.lastIndex_lower (getLsbD_of_eq_zero high) search⟩
  by_contra high
  have above := lastIndex_high_gt word high right
  have below := joined.lastIndex_lower_le search
  omega

/-- `fls64` asks the question of `ffs64`, so it is right only when one half is zero. -/
theorem fls64_ilp32_iff :
    LastIndex word.getLsbD (build.fls64 word) ↔ (lowHalf word = 0 ↔ highHalf word ≠ 0) := by
  have joined := joined_halves word
  rw [Build.fls64]
  by_cases low : lowHalf word = 0
  · rw [genericSearch64_high low]
    simp only [low, true_iff]
    have search := build.fls_lastIndex (highHalf word)
    refine ⟨fun right high => ?_, fun high => joined.lastIndex_upper (exists_getLsbD high) search⟩
    have none := joined.none (getLsbD_of_eq_zero low) (getLsbD_of_eq_zero high)
    have zero := search.unique (IndexAnswer.of_none (getLsbD_of_eq_zero high))
    have := right.unique (IndexAnswer.of_none none)
    omega
  · rw [genericSearch64_low low, lastIndex_lowHalf_iff]
    simp only [low, false_iff, not_not]

/-- `ffz64` looks at the low half only. -/
theorem ffz64_ilp32_iff : FirstIndex (~~~word).getLsbD (build.ffz64 word) ↔
    lowHalf word ≠ BitVec.allOnes 32 ∨ word = BitVec.allOnes 64 := by
  have joined := joined_halves (~~~word)
  have search := build.ffs_firstIndex (lowHalf (~~~word))
  have answer : build.ffz64 word = build.ffs (lowHalf (~~~word)) :=
    (build.ffz_eq _).trans (congrArg build.ffs (lowHalf_not word).symm)
  rw [answer, Ne, ← not_eq_zero_iff, ← not_eq_zero_iff word, ← lowHalf_not]
  by_cases low : lowHalf (~~~word) = 0
  · have zero := search.unique (IndexAnswer.of_none (getLsbD_of_eq_zero low))
    rw [zero, firstIndex_zero_iff]
    simp only [low, not_true_eq_false, false_or]
    refine ⟨fun none => ?_, getLsbD_of_eq_zero⟩
    by_contra nonzero
    obtain ⟨position, here⟩ := exists_getLsbD nonzero
    exact absurd (here.symm.trans (none position)) (by decide)
  · simp only [low, not_false_eq_true, true_or, iff_true]
    exact joined.firstIndex_lower (exists_getLsbD low) search

/-- `flz64` asks whether the low half is zero where it would have to ask about the high one. -/
theorem flz64_ilp32_iff : LastIndex (~~~word).getLsbD (build.flz64 word) ↔
    lowHalf word = 0 ∨ highHalf word = BitVec.allOnes 32 := by
  have joined := joined_halves (~~~word)
  rw [Build.flz64]
  by_cases low : lowHalf word = 0
  · have complement : build.flz (highHalf word) = build.fls (highHalf (~~~word)) :=
      (build.flz_eq _).trans (congrArg build.fls (highHalf_not word).symm)
    rw [genericSearch64_high low, complement]
    simp only [low, true_or, iff_true]
    have search := build.fls_lastIndex (highHalf (~~~word))
    by_cases high : highHalf (~~~word) = 0
    · -- All zero bits are in the low half, and there the last one is the highest bit.
      rw [search.unique (IndexAnswer.of_none (getLsbD_of_eq_zero high))]
      have ones : IsGreatest {position | (lowHalf (~~~word)).getLsbD position = true} 31 := by
        rw [lowHalf_not, low]
        exact ⟨rfl, fun position member => Nat.lt_succ_iff.mp (BitVec.lt_of_getLsbD member)⟩
      exact joined.lastIndex_lower (getLsbD_of_eq_zero high) (IndexAnswer.of_extreme ones)
    · exact joined.lastIndex_upper (exists_getLsbD high) search
  · have complement : build.flz (lowHalf word) = build.fls (lowHalf (~~~word)) :=
      (build.flz_eq _).trans (congrArg build.fls (lowHalf_not word).symm)
    rw [genericSearch64_low low, complement, lastIndex_lowHalf_iff, highHalf_not, not_eq_zero_iff]
    simp only [low, false_or]

end Narrow

/-! ### When the 64-bit searches are right -/

/-- Where a long has 64 bits the 64-bit searches are right for every word; where it has 32, each
of them is right for the words named here and wrong for all others. -/
theorem search64_right_iff {abi : Abi} (build : Build abi) (word : BitVec 64) :
    (FirstIndex word.getLsbD (build.ffs64 word) ↔ abi = .lp64 ∨ word ≠ 0) ∧
    (LastIndex word.getLsbD (build.fls64 word) ↔
      abi = .lp64 ∨ (lowHalf word = 0 ↔ highHalf word ≠ 0)) ∧
    (FirstIndex (~~~word).getLsbD (build.ffz64 word) ↔
      abi = .lp64 ∨ lowHalf word ≠ BitVec.allOnes 32 ∨ word = BitVec.allOnes 64) ∧
    (LastIndex (~~~word).getLsbD (build.flz64 word) ↔
      abi = .lp64 ∨ lowHalf word = 0 ∨ highHalf word = BitVec.allOnes 32) := by
  cases abi with
  | ilp32 =>
    simp only [reduceCtorEq, false_or]
    exact ⟨ffs64_ilp32_iff build word, fls64_ilp32_iff build word, ffz64_ilp32_iff build word,
      flz64_ilp32_iff build word⟩
  | lp64 =>
    simp only [true_or, iff_true]
    have ffz : build.ffz64 word = build.ffs (~~~word) :=
      (congrArg build.ffz (BitVec.setWidth_eq word)).trans (build.ffz_eq word)
    have flz : build.flz64 word = build.fls (~~~word) :=
      (genericSearch64_lp64 build.flz word).trans (build.flz_eq word)
    rw [Build.ffs64, Build.fls64, ffz, flz, genericSearch64_lp64, genericSearch64_lp64]
    exact ⟨build.ffs_firstIndex word, build.fls_lastIndex word, build.ffs_firstIndex (~~~word),
      build.fls_lastIndex (~~~word)⟩

/-- A word of zeros, bits in both halves, zero bits in the high half only, and in both halves. -/
theorem search64_wrong :
    ((Build.generic .ilp32).ffs64 0 = 32 ∧
      ¬ FirstIndex (0 : BitVec 64).getLsbD ((Build.generic .ilp32).ffs64 0)) ∧
    ((Build.mips .ilp32).fls64 0x100000001 = 1 ∧
      ¬ LastIndex (0x100000001 : BitVec 64).getLsbD ((Build.mips .ilp32).fls64 0x100000001)) ∧
    ((Build.i386).ffz64 0xffffffff = 0 ∧
      ¬ FirstIndex (~~~(0xffffffff : BitVec 64)).getLsbD (Build.i386.ffz64 0xffffffff)) ∧
    ((Build.generic .ilp32).flz64 1 = 32 ∧
      ¬ LastIndex (~~~(1 : BitVec 64)).getLsbD ((Build.generic .ilp32).flz64 1)) := by
  refine ⟨⟨by decide +kernel, ?_⟩, ⟨by decide +kernel, ?_⟩, ⟨by decide +kernel, ?_⟩,
    ⟨by decide +kernel, ?_⟩⟩
  · rw [ffs64_ilp32_iff]
    decide
  · rw [fls64_ilp32_iff]
    decide
  · rw [ffz64_ilp32_iff]
    decide
  · rw [flz64_ilp32_iff]
    decide

end AIMv6
