/-
This file models how the ARM firmware reads its SD card: the negotiation of `sd_init_card`, which
finds out whether the card is an SD(SC) or an SDHC card, the single block transfer of `sd_read`,
and the `readdisk` loop on top of it.

A card of the first kind is addressed in bytes and a card of the second in blocks of 512 bytes. The
loop hands the number of a sector to `sd_read` whatever the card is. On an SDHC card every read is
therefore exact, and on an SD(SC) card a read is exact when the card happens to hold at the byte
position the loop asks for what it holds in the sector the loop means.
-/

import AIMv6.BootDisk

namespace AIMv6

namespace Zynq

open ByteMemory

/-! ### Cards and their initialisation -/

/-- The commands of `sd_init_card`. -/
inductive SdCommand
  | cmd0
  | cmd8
  | cmd55
  | acmd41
  | cmd2
  | cmd3
  | cmd9
  | cmd7
deriving DecidableEq

/-- `SD_CMD8_VOL_PATTERN`. -/
def cmd8VolPattern : BitVec 32 := 0x01aa

/-- `SD_RESP_READY`. -/
def respReady : BitVec 32 := 0x80000000

/-- `SD_ACMD41_HCS`. -/
def acmd41Hcs : BitVec 32 := 0x40000000

/-- A card and what the controller says of it: whether it is in the slot, which sendings of a
command fail, what the response register holds after them, and what is stored on it. A card that is
ready says in the same response whether it is addressed in blocks. -/
structure SdCard where
  inserted : Bool
  fails : SdCommand → Nat → Bool
  response : SdCommand → Nat → BitVec 32
  highCapacity : Bool
  capacity : Nat
  contents : Nat → UInt8
  addressable : capacity ≤ sectorSize * 2 ^ 32
  typed : ∀ attempt, response .acmd41 attempt &&& respReady ≠ 0 →
    (response .acmd41 attempt &&& acmd41Hcs ≠ 0 ↔ highCapacity = true)

/-- How a repeated sending ends: with an error of the controller or with a response. -/
inductive Negotiation
  | failed
  | answered (resp : BitVec 32)

/-- The loop that sends `CMD55` and `ACMD41` until the card is ready; `none` while it is not. -/
def acmd41Loop (card : SdCard) : Nat → Nat → Option Negotiation
  | 0, _ => none
  | patience + 1, attempt =>
    if card.fails .cmd55 attempt then some .failed
    else if card.fails .acmd41 attempt then some .failed
    else if card.response .acmd41 attempt &&& respReady ≠ 0 then
      some (.answered (card.response .acmd41 attempt))
    else acmd41Loop card patience (attempt + 1)

/-- The loop that sends `CMD3` until the card has an address. -/
def cmd3Loop (card : SdCard) : Nat → Nat → Option Negotiation
  | 0, _ => none
  | patience + 1, attempt =>
    if card.fails .cmd3 attempt then some .failed
    else
      let resp := card.response .cmd3 attempt &&& 0xffff0000
      if resp ≠ 0 then some (.answered resp) else cmd3Loop card patience (attempt + 1)

/-- `CMD2` to `CMD7` of `sd_init_card`, which returns the type found before. -/
def identifyCard (card : SdCard) (patience : Nat) (cardtype : Int) : Option Int :=
  if card.fails .cmd2 0 then some (-6)
  else match cmd3Loop card patience 0 with
    | none => none
    | some .failed => some (-7)
    | some (.answered _) =>
      if card.fails .cmd9 0 then some (-8)
      else if card.fails .cmd7 0 then some (-9)
      else some cardtype

/-- `sd_init_card`; `none` while one of its loops still waits. -/
def sdInitCard (card : SdCard) (patience : Nat) : Option Int :=
  if ¬ card.inserted then some (-1)
  else if card.fails .cmd0 0 then some (-2)
  else if card.fails .cmd8 0 then some (-3)
  else if card.response .cmd8 0 ≠ cmd8VolPattern then some (-4)
  else match acmd41Loop card patience 0 with
    | none => none
    | some .failed => some (-5)
    | some (.answered resp) => identifyCard card patience (if resp &&& acmd41Hcs ≠ 0 then 1 else 0)

/-- The negotiation ends with a response in which the card is ready. -/
theorem acmd41Loop_answered {card : SdCard} {patience attempt : Nat} {resp : BitVec 32}
    (answered : acmd41Loop card patience attempt = some (.answered resp)) :
    resp &&& acmd41Hcs ≠ 0 ↔ card.highCapacity = true := by
  induction patience generalizing attempt with
  | zero => cases answered
  | succ patience inductionHypothesis =>
    rw [acmd41Loop] at answered
    split at answered
    · cases answered
    · split at answered
      · cases answered
      · split at answered
        · rename_i ready
          cases answered
          exact card.typed attempt ready
        · exact inductionHypothesis answered

variable (card : SdCard)

theorem identifyCard_cases (patience : Nat) (cardtype : Int) :
    ∀ ret ∈ identifyCard card patience cardtype, ret < 0 ∨ ret = cardtype := by
  intro ret returned
  unfold identifyCard at returned
  split at returned
  · exact Or.inl (Option.some.inj returned ▸ by decide)
  split at returned
  · cases returned
  · exact Or.inl (Option.some.inj returned ▸ by decide)
  split at returned
  · exact Or.inl (Option.some.inj returned ▸ by decide)
  split at returned
  · exact Or.inl (Option.some.inj returned ▸ by decide)
  · exact Or.inr (Option.some.inj returned).symm

theorem sdInitCard_cases (patience : Nat) :
    ∀ ret ∈ sdInitCard card patience, ret < 0 ∨ ret = if card.highCapacity then 1 else 0 := by
  intro ret returned
  unfold sdInitCard at returned
  split at returned
  · exact Or.inl (Option.some.inj returned ▸ by decide)
  split at returned
  · exact Or.inl (Option.some.inj returned ▸ by decide)
  split at returned
  · exact Or.inl (Option.some.inj returned ▸ by decide)
  split at returned
  · exact Or.inl (Option.some.inj returned ▸ by decide)
  split at returned
  · cases returned
  · exact Or.inl (Option.some.inj returned ▸ by decide)
  · rename_i resp answered
    rw [if_congr (acmd41Loop_answered answered) rfl rfl] at returned
    exact identifyCard_cases card patience _ ret returned

theorem sdInitCard_type {card : SdCard} {patience : Nat} {cardtype : Int}
    (reported : sdInitCard card patience = some cardtype) (accepted : 0 ≤ cardtype) :
    cardtype = 1 ↔ card.highCapacity = true := by
  rcases sdInitCard_cases card patience cardtype reported with refused | type
  · omega
  · cases kind : card.highCapacity <;> rw [kind] at type <;> simp [type]

/-! ### Reading the card -/

/-- The bytes the card sends for `CMD18`, which takes a byte position or a block number. -/
def SdCard.served (card : SdCard) (argument offset : Nat) : UInt8 :=
  card.contents ((if card.highCapacity then sectorSize * argument else argument) + offset)

/-- `sd_read(pa, count, offset)` on a card that answers: the controller writes the blocks to
memory. -/
def sdRead (card : SdCard) (pa : Address) (count offset : Nat) (mem : ByteMemory) : ByteMemory :=
  mem.copy pa (count * sectorSize) (card.served offset)

/-- `readdisk(sector, offset, buf, len)`. -/
def readdisk (card : SdCard) (sectorBuf : Address) (sector offset : Nat) (buf : Address) (len : Nat)
    (mem : ByteMemory) : Option ByteMemory :=
  AIMv6.readdisk (sdRead card sectorBuf 1) sectorBuf sector offset buf len mem

theorem sdRead_delivers (sectorBuf : Address) :
    Delivers (sdRead card sectorBuf 1) sectorBuf (range sectorBuf sectorSize) card.served where
  stored _ _ _ bound := copy_inside bound (bound.trans (by decide))
  kept _ _ _ outside := copy_outside outside
  held := Set.Subset.rfl

/-- What a read leaves in its destination. -/
theorem readdisk_bytes {card : SdCard} {sectorBuf buf : Address} {sector offset len : Nat}
    {mem : ByteMemory} (size : len < 2 ^ 32)
    (onCard : sector * sectorSize + offset + len ≤ card.capacity)
    (apart : Disjoint (range buf len) (range sectorBuf sectorSize)) :
    ∃ after, readdisk card sectorBuf sector offset buf len mem = some after ∧
      ∀ index < len, after (buf + BitVec.ofNat 32 index) =
        card.served (sector + (offset + index) / sectorSize) ((offset + index) % sectorSize) := by
  obtain ⟨after, done, same⟩ := readdisk_spec (sdRead_delivers card sectorBuf) size.le apart
  refine ⟨after, done, fun index bound => ?_⟩
  have small := bound.trans size
  have number : sector + (offset + index) / sectorSize < 2 ^ 32 := by
    have limit := card.addressable
    unfold sectorSize at *
    omega
  rw [same (Set.disjoint_left.mp apart (mem_range bound small)),
    copy_inside bound small, sectorBytes, Nat.mod_eq_of_lt number]

/-- The bytes that are sent are the bytes that are meant on an SDHC card. -/
theorem served_of_highCapacity {card : SdCard} {sector offset : Nat}
    (high : card.highCapacity = true) (index : Nat) :
    card.served (sector + (offset + index) / sectorSize) ((offset + index) % sectorSize) =
      card.contents (sector * sectorSize + offset + index) := by
  have position : sectorSize * (sector + (offset + index) / sectorSize) +
      (offset + index) % sectorSize = sector * sectorSize + offset + index := by
    unfold sectorSize
    omega
  rw [SdCard.served, if_pos high, position]

theorem served_of_not_highCapacity {card : SdCard} (low : card.highCapacity = false)
    (argument place : Nat) :
    card.served argument place = card.contents (argument + place) := by
  rw [SdCard.served, low, if_neg Bool.false_ne_true]

/-- On a card that the firmware accepts, a read brings the bytes it is asked for when the card is an
SDHC card, and otherwise when the card holds the same bytes where it is read instead. -/
theorem readdisk_exact_iff {card : SdCard} {patience : Nat} {cardtype : Int}
    (reported : sdInitCard card patience = some cardtype) (accepted : 0 ≤ cardtype)
    (sectorBuf buf : Address) (sector offset len : Nat) (mem : ByteMemory) (size : len < 2 ^ 32)
    (onCard : sector * sectorSize + offset + len ≤ card.capacity)
    (apart : Disjoint (range buf len) (range sectorBuf sectorSize)) :
    (∃ after, readdisk card sectorBuf sector offset buf len mem = some after ∧
      ∀ index < len, after (buf + BitVec.ofNat 32 index) =
        card.contents (sector * sectorSize + offset + index)) ↔
      cardtype = 1 ∨ ∀ index < len,
        card.contents (sector + (offset + index) / sectorSize + (offset + index) % sectorSize) =
          card.contents (sector * sectorSize + offset + index) := by
  obtain ⟨after, done, bytes⟩ :=
    readdisk_bytes size onCard apart
  rw [done, sdInitCard_type reported accepted]
  cases kind : card.highCapacity with
  | true =>
    refine iff_of_true ⟨after, rfl, fun index bound => ?_⟩ (Or.inl rfl)
    rw [bytes index bound, served_of_highCapacity kind]
  | false =>
    have read : ∀ index < len, after (buf + BitVec.ofNat 32 index) = card.contents
        (sector + (offset + index) / sectorSize + (offset + index) % sectorSize) :=
          fun index bound =>
      (bytes index bound).trans (served_of_not_highCapacity kind _ _)
    constructor
    · rintro ⟨other, also, right⟩
      rw [← Option.some.inj also] at right
      exact Or.inr fun index bound => (read index bound).symm.trans (right index bound)
    · rintro (high | same)
      · exact absurd high Bool.false_ne_true
      · exact ⟨after, rfl, fun index bound => (read index bound).trans (same index bound)⟩

/-- A card of two sectors of one kind or the other; the second sector starts with a byte of its
own. -/
def smallCard (highCapacity : Bool) : SdCard where
  inserted := true
  fails _ _ := false
  response
    | .cmd8, _ => cmd8VolPattern
    | .acmd41, _ => if highCapacity then respReady ||| acmd41Hcs else respReady
    | .cmd3, _ => 0x00010000
    | _, _ => 0
  highCapacity := highCapacity
  capacity := 1024
  contents position := if position = 512 then 7 else 0
  addressable := by decide
  typed _ _ := by
    dsimp only
    cases highCapacity <;> decide

/-- Four bytes of an SDHC card on both sides of the border of its sectors. -/
theorem readdisk_exact_sdhc :
    ∃ after, readdisk (smallCard true) 0x1000 0 510 0x2000 4 (fun _ => 0) = some after ∧
      ∀ index < 4, after (0x2000 + BitVec.ofNat 32 index) =
        (smallCard true).contents (0 * sectorSize + 510 + index) :=
  (readdisk_exact_iff (show sdInitCard (smallCard true) 1 = some 1 by decide) (by decide)
    0x1000 0x2000 0 510 4 (fun _ => 0) (by decide) (by decide)
    (range_disjoint (by decide) (by decide)).symm).mpr (Or.inl rfl)

/-- The first byte of sector 1 of an SD(SC) card is read at byte position 1. -/
theorem readdisk_sdsc_sector_one :
    sdInitCard (smallCard false) 1 = some 0 ∧
      1 * sectorSize + 0 + 1 ≤ (smallCard false).capacity ∧
      ¬ ∃ after, readdisk (smallCard false) 0x1000 1 0 0x2000 1 (fun _ => 0) = some after ∧
        ∀ index < 1, after (0x2000 + BitVec.ofNat 32 index) =
          (smallCard false).contents (1 * sectorSize + 0 + index) := by
  refine ⟨by decide, by decide, ?_⟩
  obtain ⟨after, done, bytes⟩ := @readdisk_bytes (smallCard false) 0x1000 0x2000 1 0 1 _
    (by decide) (by decide) (range_disjoint (by decide) (by decide)).symm
  rintro ⟨other, also, right⟩
  obtain rfl : after = other := Option.some.inj (done.symm.trans also)
  have clash := (bytes 0 (by decide)).symm.trans (right 0 (by decide))
  revert clash
  decide

end Zynq

end AIMv6
