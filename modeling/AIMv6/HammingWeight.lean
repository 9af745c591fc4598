/-
This file models the population counts of `include/bitops.h` as they are written
for a compiler without the builtin. The words between the lines of `hweight32`
and `hweight64` are rows of counts: of pairs, of nibbles, of bytes, and then of
ever more bytes added up in the lowest one. The later lines leave out the masks
because no count can reach the bound of its field, which is what makes the
additions and the one subtraction act on each count separately.
-/

import AIMv6.BitSearch
import AIMv6.FieldSums

namespace AIMv6

open Nat Finset BitVec

section Lines

variable {bits : Nat}

/-- The first line: a pair of bits less its high bit is the number of its bits. -/
def pairCounts (mask word : BitVec bits) : BitVec bits := word - ((word >>> 1) &&& mask)

/-- The second line. -/
def nibbleCounts (mask res : BitVec bits) : BitVec bits :=
  (res &&& mask) + ((res >>> 2) &&& mask)

/-- The third line, which masks after the addition. -/
def byteCounts (mask res : BitVec bits) : BitVec bits := (res + (res >>> 4)) &&& mask

/-- The lines after the third: the counts of the upper bytes are added to the lower ones. -/
def folded (shift : Nat) (res : BitVec bits) : BitVec bits := res + (res >>> shift)

end Lines

/-- `hweight32`. -/
def hweight32 (word : BitVec 32) : Nat :=
  let res := pairCounts 0x55555555 word
  let res := nibbleCounts 0x33333333 res
  let res := byteCounts 0x0F0F0F0F res
  let res := folded 8 res
  (folded 16 res &&& 0x000000FF).toNat

/-- `hweight64`. -/
def hweight64 (abi : Abi) (word : BitVec 64) : Nat :=
  match abi with
  | .ilp32 => hweight32 (highHalf word) + hweight32 (lowHalf word)
  | .lp64 =>
    let res := pairCounts 0x5555555555555555 word
    let res := nibbleCounts 0x3333333333333333 res
    let res := byteCounts 0x0F0F0F0F0F0F0F0F res
    let res := folded 8 res
    let res := folded 16 res
    (folded 32 res &&& 0x00000000000000FF).toNat

/-- `hweight` of a 64-bit argument, which a 32-bit build passes on as 32 bits. -/
def hweight (abi : Abi) (word : BitVec 64) : Nat :=
  match abi with
  | .ilp32 => hweight32 (lowHalf word)
  | .lp64 => hweight64 .lp64 word

/-- `count_zero_bits32`. -/
def countZeroBits32 (word : BitVec 32) : Nat := hweight32 (~~~word)

/-- `count_zero_bits64`. -/
def countZeroBits64 (abi : Abi) (word : BitVec 64) : Nat := hweight64 abi (~~~word)

/-- `count_zero_bits` of a 64-bit argument. -/
def countZeroBits (abi : Abi) (word : BitVec 64) : Nat := hweight abi (~~~word)

/-- The number of set bits of a word. -/
def setBits {bits : Nat} (word : BitVec bits) : Nat :=
  ((Finset.range bits).filter (word.getLsbD ·)).card

/-! ### Fields of machine words -/

section Words

variable {bits width count : Nat} {first second : BitVec bits}

theorem toNat_add_of_noCarry (whole : bits = width * count)
    (fits : NoCarry width first.toNat second.toNat) :
    (first + second).toNat = first.toNat + second.toNat := by
  subst whole
  rw [toNat_add, mod_eq_of_lt (fits.add_lt first.isLt second.isLt)]

theorem toNat_sub_of_noBorrow (whole : bits = width * count)
    (fits : NoBorrow width first.toNat second.toNat) :
    second.toNat ≤ first.toNat ∧ (first - second).toNat = first.toNat - second.toNat := by
  subst whole
  have order := fits.le first.isLt second.isLt
  exact ⟨order, toNat_sub_of_le order⟩

end Words

/-! ### The first three lines -/

variable {bound bits : Nat}

section Counts

variable {bits count width : Nat} {mask res : BitVec bits}

theorem field_masked (every : EveryOther width bits mask.toNat) (word : BitVec bits) (index : Nat) :
    field (2 * width) index (word &&& mask).toNat = field width (2 * index) word.toNat := by
  rw [toNat_and, every.field_and word.isLt]

theorem field_shifted (width shift : Nat) (word : BitVec bits) (index : Nat) :
    field width index (word >>> (width * shift)).toNat =
      field width (index + shift) word.toNat := by
  rw [toNat_ushiftRight, field_shiftRight]

theorem field_shifted_one (width : Nat) (word : BitVec bits) (index : Nat) :
    field width index (word >>> width).toNat = field width (index + 1) word.toNat := by
  have shifted := field_shifted width 1 word index
  rwa [mul_one] at shifted

/-- Shifted by one field before the mask, the other half of the fields is left. -/
theorem field_oddMasked (every : EveryOther width bits mask.toNat) (word : BitVec bits)
    (index : Nat) :
    field (2 * width) index ((word >>> width) &&& mask).toNat =
      field width (2 * index + 1) word.toNat := by
  rw [field_masked every, field_shifted_one]

theorem pairCounts_noBorrow (every : EveryOther 1 bits mask.toNat) (word : BitVec bits) :
    NoBorrow 2 word.toNat ((word >>> 1) &&& mask).toNat := by
  intro index
  have whole := field_double 1 index word.toNat
  rw [field_oddMasked every word index]
  rw [mul_one] at whole
  omega

theorem field_pairCounts (whole : bits = 2 * count) (every : EveryOther 1 bits mask.toNat)
    (word : BitVec bits) (index : Nat) :
    field 2 index (pairCounts mask word).toNat =
      field 1 (2 * index) word.toNat + field 1 (2 * index + 1) word.toNat := by
  have fits := pairCounts_noBorrow every word
  obtain ⟨order, difference⟩ := toNat_sub_of_noBorrow whole fits
  have double := field_double 1 index word.toNat
  rw [mul_one] at double
  rw [pairCounts, difference, fits.field_sub order, field_oddMasked every word index]
  omega

theorem nibbleCounts_noCarry (every : EveryOther 2 bits mask.toNat)
    (small : ∀ index, field 2 index res.toNat ≤ 2) :
    NoCarry 4 (res &&& mask).toNat ((res >>> 2) &&& mask).toNat := by
  intro index
  have low := small (2 * index)
  have high := small (2 * index + 1)
  rw [field_masked every res index, field_oddMasked every res index]
  omega

theorem field_nibbleCounts (whole : bits = 4 * count) (every : EveryOther 2 bits mask.toNat)
    (small : ∀ index, field 2 index res.toNat ≤ 2) (index : Nat) :
    field 4 index (nibbleCounts mask res).toNat =
      field 2 (2 * index) res.toNat + field 2 (2 * index + 1) res.toNat := by
  have fits := nibbleCounts_noCarry every small
  rw [nibbleCounts, toNat_add_of_noCarry whole fits, fits.field_add]
  exact congrArg₂ (· + ·) (field_masked every res index) (field_oddMasked every res index)

theorem noCarry_shifted (shift : Nat) (small : ∀ index, field width index res.toNat ≤ bound)
    (room : 2 * bound < 2 ^ width) : NoCarry width res.toNat (res >>> (width * shift)).toNat := by
  intro index
  have low := small index
  have high := small (index + shift)
  rw [field_shifted]
  omega

theorem field_folded (shift : Nat) (whole : bits = width * count)
    (small : ∀ index, field width index res.toNat ≤ bound) (room : 2 * bound < 2 ^ width)
    (index : Nat) :
    field width index (folded (width * shift) res).toNat =
      field width index res.toNat + field width (index + shift) res.toNat := by
  have fits := noCarry_shifted shift small room
  rw [folded, toNat_add_of_noCarry whole fits, fits.field_add, field_shifted]

theorem field_byteCounts (whole : bits = 4 * count) (every : EveryOther 4 bits mask.toNat)
    (small : ∀ index, field 4 index res.toNat ≤ 4) (index : Nat) :
    field 8 index (byteCounts mask res).toNat =
      field 4 (2 * index) res.toNat + field 4 (2 * index + 1) res.toNat := by
  rw [byteCounts]
  exact (field_masked every _ index).trans (field_folded 1 whole small (by decide) (2 * index))

end Counts

/-! ### The counts of the first three lines -/

/-- The masks of the first three lines. -/
structure CountMasks {bits : Nat} (pairMask nibbleMask byteMask : BitVec bits) : Prop where
  pair : EveryOther 1 bits pairMask.toNat
  nibble : EveryOther 2 bits nibbleMask.toNat
  byte : EveryOther 4 bits byteMask.toNat

/-- In none of the first three lines does a count leave its field. -/
def CountsFit {bits : Nat} (pairMask nibbleMask word : BitVec bits) : Prop :=
  let pairs := pairCounts pairMask word
  let nibbles := nibbleCounts nibbleMask pairs
  NoBorrow 2 word.toNat ((word >>> 1) &&& pairMask).toNat ∧
    NoCarry 4 (pairs &&& nibbleMask).toNat ((pairs >>> 2) &&& nibbleMask).toNat ∧
    NoCarry 4 nibbles.toNat (nibbles >>> 4).toNat

theorem setBits_eq_sum (word : BitVec bits) :
    setBits word = ∑ index ∈ Finset.range bits, field 1 index word.toNat := by
  rw [setBits, card_filter]
  refine sum_congr rfl fun index _ => ?_
  rw [field, one_mul, pow_one, ← toNat_testBit]
  change (if word.toNat.testBit index = true then 1 else 0) = _
  cases word.toNat.testBit index <;> rfl

theorem counts_of_lines (count : Nat) {pairMask nibbleMask byteMask : BitVec (8 * count)}
    (masks : CountMasks pairMask nibbleMask byteMask)
    (word : BitVec (8 * count)) :
    let bytes := byteCounts byteMask (nibbleCounts nibbleMask (pairCounts pairMask word))
    CountsFit pairMask nibbleMask word ∧ (∀ index, field 8 index bytes.toNat ≤ 8) ∧
      ∑ index ∈ Finset.range count, field 8 index bytes.toNat = setBits word := by
  have wholePairs : 8 * count = 2 * (2 * (2 * count)) := by omega
  have wholeNibbles : 8 * count = 4 * (2 * count) := by omega
  have pairs := field_pairCounts wholePairs masks.pair word
  have pairsSmall : ∀ index, field 2 index (pairCounts pairMask word).toNat ≤ 2 := by
    intro index
    have low := field_lt 1 (2 * index) word.toNat
    have high := field_lt 1 (2 * index + 1) word.toNat
    rw [pairs]
    omega
  have nibbles := field_nibbleCounts wholeNibbles masks.nibble pairsSmall
  have nibblesSmall : ∀ index,
      field 4 index (nibbleCounts nibbleMask (pairCounts pairMask word)).toNat ≤ 4 := by
    intro index
    rw [nibbles]
    exact Nat.add_le_add (pairsSmall _) (pairsSmall _)
  have bytes := field_byteCounts wholeNibbles masks.byte nibblesSmall
  refine ⟨⟨pairCounts_noBorrow masks.pair word, nibbleCounts_noCarry masks.nibble pairsSmall,
    noCarry_shifted 1 nibblesSmall (by decide)⟩, fun index => ?_, ?_⟩
  · rw [bytes]
    exact Nat.add_le_add (nibblesSmall _) (nibblesSmall _)
  · calc _ = ∑ index ∈ Finset.range (2 * count),
          field 4 index (nibbleCounts nibbleMask (pairCounts pairMask word)).toNat := by
            rw [sum_range_two_mul]
            exact sum_congr rfl fun index _ => bytes index
      _ = ∑ index ∈ Finset.range (2 * (2 * count)),
          field 2 index (pairCounts pairMask word).toNat := by
            rw [sum_range_two_mul _ (2 * count)]
            exact sum_congr rfl fun index _ => nibbles index
      _ = ∑ index ∈ Finset.range (2 * (2 * (2 * count))), field 1 index word.toNat := by
            rw [sum_range_two_mul _ (2 * (2 * count))]
            exact sum_congr rfl fun index _ => pairs index
      _ = ∑ index ∈ Finset.range (8 * count), field 1 index word.toNat :=
            congrArg (fun size => ∑ index ∈ Finset.range size, field 1 index word.toNat)
              wholePairs.symm
      _ = setBits word := (setBits_eq_sum word).symm

/-! ### The counts are exact -/

/-- In no line of `hweight32` does a count leave its field. -/
def Hweight32Fits (word : BitVec 32) : Prop :=
  let bytes := byteCounts 0x0F0F0F0F (nibbleCounts 0x33333333 (pairCounts 0x55555555 word))
  CountsFit 0x55555555 0x33333333 word ∧
    NoCarry 8 bytes.toNat (bytes >>> 8).toNat ∧
    NoCarry 8 (folded 8 bytes).toNat (folded 8 bytes >>> 16).toNat

/-- In no line of `hweight64` does a count leave its field. -/
def Hweight64Fits (word : BitVec 64) : Prop :=
  let bytes := byteCounts 0x0F0F0F0F0F0F0F0F
    (nibbleCounts 0x3333333333333333 (pairCounts 0x5555555555555555 word))
  CountsFit 0x5555555555555555 0x3333333333333333 word ∧
    NoCarry 8 bytes.toNat (bytes >>> 8).toNat ∧
    NoCarry 8 (folded 8 bytes).toNat (folded 8 bytes >>> 16).toNat ∧
    NoCarry 8 (folded 16 (folded 8 bytes)).toNat (folded 16 (folded 8 bytes) >>> 32).toNat

theorem countMasks32 : CountMasks (0x55555555 : BitVec 32) 0x33333333 0x0F0F0F0F := by
  constructor <;> (unfold EveryOther; decide)

theorem countMasks64 :
    CountMasks (0x5555555555555555 : BitVec 64) 0x3333333333333333 0x0F0F0F0F0F0F0F0F := by
  constructor <;> (unfold EveryOther; decide)

theorem field_folded_le {count : Nat} (shift : Nat) (whole : bits = 8 * count) {res : BitVec bits}
    (small : ∀ index, field 8 index res.toNat ≤ bound) (room : 2 * bound < 2 ^ 8) (index : Nat) :
    field 8 index (folded (8 * shift) res).toNat ≤ 2 * bound := by
  have low := small index
  have high := small (index + shift)
  rw [field_folded shift whole small room]
  omega

theorem toNat_and_byte (wide : 8 ≤ bits) (word : BitVec bits) :
    (word &&& BitVec.ofNat bits 0xFF).toNat = field 8 0 word.toNat := by
  have fits : 0xFF < 2 ^ bits :=
    lt_of_lt_of_le (by decide) (Nat.pow_le_pow_right (n := 2) (by decide) wide)
  rw [toNat_and, toNat_ofNat, mod_eq_of_lt fits, field]
  simpa using and_two_pow_sub_one_eq_mod word.toNat 8

theorem hweight32_exact (word : BitVec 32) :
    Hweight32Fits word ∧ hweight32 word = setBits word := by
  obtain ⟨fit, small, total⟩ := counts_of_lines 4 countMasks32 word
  have small8 := field_folded_le 1 rfl small (by decide)
  refine ⟨⟨fit, noCarry_shifted 1 small (by decide), noCarry_shifted 2 small8 (by decide)⟩, ?_⟩
  refine (toNat_and_byte (by decide) _).trans ?_
  rw [← total, sum_range_succ, sum_range_succ, sum_range_succ, sum_range_one, add_assoc]
  refine (field_folded 2 rfl small8 (by decide) 0).trans (congrArg₂ (· + ·) ?_ ?_)
  · exact field_folded 1 rfl small (by decide) 0
  · exact field_folded 1 rfl small (by decide) 2

theorem hweight64_exact (word : BitVec 64) :
    Hweight64Fits word ∧ hweight64 .lp64 word = setBits word := by
  obtain ⟨fit, small, total⟩ := counts_of_lines 8 countMasks64 word
  have small8 := field_folded_le 1 rfl small (by decide)
  have small16 := field_folded_le 2 rfl small8 (by decide)
  refine ⟨⟨fit, noCarry_shifted 1 small (by decide), noCarry_shifted 2 small8 (by decide),
    noCarry_shifted 4 small16 (by decide)⟩, ?_⟩
  refine (toNat_and_byte (by decide) _).trans ?_
  have pair := field_folded 1 rfl small (by decide)
  have quad := field_folded 2 rfl small8 (by decide)
  have whole := field_folded 4 rfl small16 (by decide) 0
  rw [quad, quad, pair, pair, pair, pair] at whole
  refine whole.trans ?_
  rw [← total]
  simp only [sum_range_succ, sum_range_zero, Nat.reduceAdd]
  omega

theorem setBits_halves (word : BitVec 64) :
    setBits word = setBits (highHalf word) + setBits (lowHalf word) := by
  have joined := joined_halves word
  rw [setBits, setBits, setBits, card_filter, card_filter, card_filter]
  refine (sum_range_add _ 32 32).trans ?_
  rw [add_comm]
  refine congrArg₂ (· + ·) (sum_congr rfl fun index _ => ?_) (sum_congr rfl fun index member => ?_)
  · rw [add_comm, joined.above]
  · rw [joined.below _ (mem_range.mp member)]

/-- The complement has the bits the word has not. -/
theorem setBits_not (word : BitVec bits) : setBits (~~~word) = bits - setBits word := by
  have same : (Finset.range bits).filter ((~~~word).getLsbD ·) =
      (Finset.range bits).filter fun index => ¬ word.getLsbD index = true := by
    refine filter_congr fun index member => ?_
    rw [getLsbD_not, decide_eq_true (mem_range.mp member)]
    simp
  have total := card_filter_add_card_filter_not (s := Finset.range bits) (word.getLsbD · = true)
  rw [card_range] at total
  rw [setBits, setBits, same]
  omega

theorem hweight64_eq (abi : Abi) (word : BitVec 64) : hweight64 abi word = setBits word := by
  cases abi with
  | ilp32 =>
    rw [hweight64, (hweight32_exact _).2, (hweight32_exact _).2, setBits_halves]
  | lp64 => exact (hweight64_exact word).2

/-- `count_zero_bits` of a 64-bit word is that of the low half in a 32-bit build. -/
theorem countZeroBits_eq (abi : Abi) (word : BitVec 64) :
    countZeroBits abi word = match abi with
      | .ilp32 => 32 - setBits (lowHalf word)
      | .lp64 => 64 - setBits word := by
  cases abi with
  | ilp32 => rw [countZeroBits, hweight, lowHalf_not, (hweight32_exact _).2, setBits_not]
  | lp64 => rw [countZeroBits, hweight, hweight64_eq, setBits_not]

/-- The population counts are exact, in no line does a count leave its field, and the zero bits
are the rest of the word. -/
theorem hweight_counts (word : BitVec 32) (wide : BitVec 64) (abi : Abi) :
    (hweight32 word = setBits word ∧ Hweight32Fits word ∧
      hweight32 (~~~word) = 32 - setBits word ∧ countZeroBits32 word = 32 - setBits word) ∧
    (hweight64 abi wide = setBits wide ∧ Hweight64Fits wide ∧
      hweight64 abi (~~~wide) = 64 - setBits wide ∧
      countZeroBits64 abi wide = 64 - setBits wide) := by
  have narrowNot : hweight32 (~~~word) = 32 - setBits word := by
    rw [(hweight32_exact _).2, setBits_not]
  have wideNot : hweight64 abi (~~~wide) = 64 - setBits wide := by
    rw [hweight64_eq, setBits_not]
  exact ⟨⟨(hweight32_exact word).2, (hweight32_exact word).1, narrowNot, narrowNot⟩,
    hweight64_eq abi wide, (hweight64_exact wide).1, wideNot, wideNot⟩

end AIMv6
