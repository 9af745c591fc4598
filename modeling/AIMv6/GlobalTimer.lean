/-
This file models `gt_read` of `drivers/timer/timer-a9.c`, which reads the 64-bit
global timer through two 32-bit registers. The counter runs on while it is read,
so the high word is read before and after the low one and the three reads are
repeated until the two high words agree.

Time is any preorder and the register accesses of a call fall on any moments in
their order. A high word that is the same at two moments is the same at every
moment between them, because the counter does not run backwards; so a value that
is returned is the counter's at the moment the low word was read. Each further
round needs a carry into the high word, and there are not more than 2 ^ 32 - 1 of
these, so the loop ends.
-/

import AIMv6.Bitops

namespace AIMv6

open Nat

/-- `GT_BASE`, at 0x200 from `MPCORE_PHYSBASE`. -/
def gtBase : Nat := 0xF8F00000 + 0x200

/-- `GT_COUNTER_LO_OFFSET`. -/
def gtCounterLoOffset : Nat := 0x00

/-- `GT_COUNTER_HI_OFFSET`. -/
def gtCounterHiOffset : Nat := 0x04

/-- A 64-bit counter that does not run backwards and does not wrap. -/
structure Counter (Time : Type*) [Preorder Time] where
  value : Time → BitVec 64
  monotone : ∀ {earlier later : Time}, earlier ≤ later → value earlier ≤ value later

section Reading

variable {Time : Type*} [Preorder Time]

/-- `read32` of one of the counter's two registers, which are its little-endian words. -/
def Counter.read32 (counter : Counter Time) (moment : Time) (address : Nat) : BitVec 32 :=
  (counter.value moment >>> (8 * (address - gtBase))).setWidth 32

/-- The loop of `gt_read` for at most the given number of rounds, `reads` accesses having been
made; it returns the time and the number of accesses. -/
def gtReadLoop (counter : Counter Time) (access : Nat → Time) :
    Nat → Nat → Option (BitVec 64 × Nat)
  | 0, _ => none
  | rounds + 1, reads =>
    let hi := (counter.read32 (access reads) (gtBase + gtCounterHiOffset)).setWidth 64
    let lo := (counter.read32 (access (reads + 1)) (gtBase + gtCounterLoOffset)).setWidth 64
    let tmp := (counter.read32 (access (reads + 2)) (gtBase + gtCounterHiOffset)).setWidth 64
    if hi ≠ tmp then gtReadLoop counter access rounds (reads + 3)
    else some ((hi <<< 32) ||| lo, reads + 3)

/-- A call of `gt_read` that returned. -/
structure GtRead (counter : Counter Time) where
  start : Time
  finish : Time
  access : Nat → Time
  ordered : Monotone access
  begins : start ≤ access 0
  rounds : Nat
  time : BitVec 64
  reads : Nat
  returned : gtReadLoop counter access rounds 0 = some (time, reads)
  ends : access (reads - 1) ≤ finish

/-- The moment of the last access to the low word, the last but one of all. -/
def GtRead.lastLo {counter : Counter Time} (call : GtRead counter) : Time :=
  call.access (call.reads - 2)

/-! ### One round -/

theorem Counter.read32_hi (counter : Counter Time) (moment : Time) :
    counter.read32 moment (gtBase + gtCounterHiOffset) = highHalf (counter.value moment) := rfl

theorem Counter.read32_lo (counter : Counter Time) (moment : Time) :
    counter.read32 moment (gtBase + gtCounterLoOffset) = lowHalf (counter.value moment) := by
  rw [Counter.read32, lowHalf, gtCounterLoOffset, Nat.add_zero, Nat.sub_self]
  exact congrArg (BitVec.setWidth 32) (BitVec.ushiftRight_zero _)

variable (word : BitVec 64)

theorem highHalf_toNat : (highHalf word).toNat = word.toNat / 2 ^ 32 := by
  rw [highHalf, BitVec.toNat_setWidth, BitVec.toNat_ushiftRight, shiftRight_eq_div_pow]
  have := word.isLt
  omega

theorem lowHalf_toNat : (lowHalf word).toNat = word.toNat % 2 ^ 32 :=
  BitVec.toNat_setWidth _ _

theorem halves_or :
    (((highHalf word).setWidth 64) <<< 32) ||| ((lowHalf word).setWidth 64) = word := by
  have small : word.toNat % 2 ^ 32 < 2 ^ 32 := mod_lt _ (by decide)
  refine BitVec.eq_of_toNat_eq ?_
  rw [BitVec.toNat_or, BitVec.toNat_shiftLeft, BitVec.toNat_setWidth, BitVec.toNat_setWidth,
    highHalf_toNat, lowHalf_toNat, shiftLeft_eq,
    mod_eq_of_lt (show word.toNat / 2 ^ 32 < 2 ^ 64 by omega),
    mod_eq_of_lt (show word.toNat / 2 ^ 32 * 2 ^ 32 < 2 ^ 64 by omega),
    mod_eq_of_lt (show word.toNat % 2 ^ 32 < 2 ^ 64 by omega),
    or_eq_add 32 (mul_mod_left _ _) small, div_add_mod']

theorem highHalf_mono {first second : BitVec 64} (order : first ≤ second) :
    (highHalf first).toNat ≤ (highHalf second).toNat := by
  rw [highHalf_toNat, highHalf_toNat]
  exact Nat.div_le_div_right order

theorem setWidth_eq_iff (first second : BitVec 32) :
    first.setWidth 64 = second.setWidth 64 ↔ first = second := by
  refine ⟨fun same => BitVec.eq_of_toNat_eq ?_, fun same => by rw [same]⟩
  have numbers := congrArg BitVec.toNat same
  rwa [BitVec.toNat_setWidth_of_le (by decide), BitVec.toNat_setWidth_of_le (by decide)] at numbers

variable {access : Nat → Time} {counter : Counter Time}

/-- One round: it ends the loop with the counter's value at the low read if the high word has not
changed. -/
theorem gtReadLoop_succ (counter : Counter Time) (ordered : Monotone access) (rounds reads : Nat) :
    gtReadLoop counter access (rounds + 1) reads =
      if highHalf (counter.value (access reads)) ≠ highHalf (counter.value (access (reads + 2)))
      then gtReadLoop counter access rounds (reads + 3)
      else some (counter.value (access (reads + 1)), reads + 3) := by
  rw [gtReadLoop, counter.read32_hi, counter.read32_hi, counter.read32_lo]
  simp only [ne_eq, setWidth_eq_iff]
  split
  case isTrue => rfl
  case isFalse same =>
    -- The high word at the low read lies between two equal ones.
    have same := not_not.mp same
    have before := highHalf_mono (counter.monotone (ordered (le_add_right reads 1)))
    have after := highHalf_mono (counter.monotone (ordered (le_add_right (reads + 1) 1)))
    have middle : highHalf (counter.value (access reads)) =
        highHalf (counter.value (access (reads + 1))) := by
      refine BitVec.eq_of_toNat_eq (le_antisymm before ?_)
      rw [same]
      exact after
    rw [middle, halves_or]

/-! ### Whole calls -/

theorem gtReadLoop_returned (ordered : Monotone access) {rounds reads total : Nat}
    {time : BitVec 64} (returned : gtReadLoop counter access rounds reads = some (time, total)) :
    reads + 3 ≤ total ∧ time = counter.value (access (total - 2)) := by
  induction rounds generalizing reads with
  | zero => exact absurd returned (by simp [gtReadLoop])
  | succ rounds rest =>
    rw [gtReadLoop_succ counter ordered] at returned
    split at returned
    · obtain ⟨later, value⟩ := rest returned
      exact ⟨by omega, value⟩
    · simp only [Option.some.injEq, Prod.mk.injEq] at returned
      obtain ⟨rfl, rfl⟩ := returned
      exact ⟨le_rfl, rfl⟩

/-- A loop that has not returned has seen a carry into the high word in every round. -/
theorem gtReadLoop_none (ordered : Monotone access) {rounds reads : Nat}
    (unfinished : gtReadLoop counter access rounds reads = none) :
    (highHalf (counter.value (access reads))).toNat + rounds ≤
      (highHalf (counter.value (access (reads + 3 * rounds)))).toNat := by
  induction rounds generalizing reads with
  | zero => exact le_rfl
  | succ rounds rest =>
    rw [gtReadLoop_succ counter ordered] at unfinished
    split at unfinished
    case isTrue changed =>
      have carried := highHalf_mono (counter.monotone (ordered (le_add_right reads 2)))
      have different : (highHalf (counter.value (access reads))).toNat ≠
          (highHalf (counter.value (access (reads + 2)))).toNat :=
        fun same => changed (BitVec.eq_of_toNat_eq same)
      have onward : (highHalf (counter.value (access (reads + 2)))).toNat ≤
          (highHalf (counter.value (access (reads + 3)))).toNat :=
        highHalf_mono (counter.monotone (ordered (Nat.le_add_right (reads + 2) 1)))
      have later := rest unfinished
      rw [show reads + 3 * (rounds + 1) = reads + 3 + 3 * rounds by omega]
      omega
    case isFalse => exact absurd unfinished (by simp)

/-- The loop ends: the high word cannot change in 2 ^ 32 rounds. -/
theorem gtReadLoop_ends (counter : Counter Time)
    (ordered : Monotone access) : (gtReadLoop counter access (2 ^ 32) 0).isSome := by
  by_contra unfinished
  have carries := gtReadLoop_none ordered (Option.not_isSome_iff_eq_none.mp unfinished)
  omega

/-- A returned time is the counter's at the last low read, between those of start and end. -/
theorem GtRead.exact (call : GtRead counter) :
    call.time = counter.value call.lastLo ∧ counter.value call.start ≤ call.time ∧
      call.time ≤ counter.value call.finish := by
  obtain ⟨three, value⟩ := gtReadLoop_returned call.ordered call.returned
  have first : call.start ≤ call.lastLo := call.begins.trans (call.ordered (Nat.zero_le _))
  have last : call.lastLo ≤ call.finish := (call.ordered (by omega)).trans call.ends
  rw [value]
  exact ⟨rfl, counter.monotone first, counter.monotone last⟩

/-- In a sequence of calls, each begun after the one before it ended, no result is torn and none
is less than an earlier one. -/
theorem gt_read_untorn (counter : Counter Time) (calls : List (GtRead counter))
    (successive : calls.IsChain fun first second => first.finish ≤ second.start) :
    (∀ call ∈ calls, call.time = counter.value call.lastLo ∧
      counter.value call.start ≤ call.time ∧ call.time ≤ counter.value call.finish) ∧
    (calls.map GtRead.time).Pairwise (· ≤ ·) := by
  refine ⟨fun call _ => call.exact, ?_⟩
  rw [List.pairwise_map]
  -- Two neighbours are ordered through the counter's values between them.
  refine List.isChain_iff_pairwise.mp (successive.imp fun first second order => ?_)
  exact BitVec.le_trans first.exact.2.2 (BitVec.le_trans (counter.monotone order) second.exact.2.1)

end Reading

/-- A counter whose low word runs over after the first moment. -/
def carryCounter : Counter Nat where
  value moment := if moment = 0 then 0xFFFFFFFF else 0x100000000
  monotone := by
    intro earlier later order
    split
    case isTrue => split <;> decide
    case isFalse after =>
      rw [if_neg (by omega)]
      exact BitVec.le_refl _

/-- A call that reads the high word before the carry and the low word after it, and so twice. -/
def carryRead : GtRead carryCounter where
  start := 0
  finish := 5
  access := id
  ordered := monotone_id
  begins := le_rfl
  rounds := 2
  time := 0x100000000
  reads := 6
  returned := by decide +kernel
  ends := le_rfl

/-- The call after it. -/
def laterRead : GtRead carryCounter where
  start := 6
  finish := 8
  access index := 6 + index
  ordered := monotone_const.add monotone_id
  begins := le_rfl
  rounds := 1
  time := 0x100000000
  reads := 3
  returned := by decide +kernel
  ends := le_rfl

theorem gt_read_untorn_carry :
    carryRead.time = carryCounter.value carryRead.lastLo ∧
      ([carryRead, laterRead].map GtRead.time).Pairwise (· ≤ ·) := by
  have untorn := gt_read_untorn carryCounter [carryRead, laterRead]
    (List.isChain_pair.mpr (by decide))
  exact ⟨(untorn.1 carryRead List.mem_cons_self).1, untorn.2⟩

end AIMv6
