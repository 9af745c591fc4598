/-
This file models `page_index_early_map` of the ARM and the i386 port, which fills the page index the
kernel starts with, and settles when they keep the contract of `page_index_init`.

Both functions store one entry for each megabyte, or for each four megabytes, up to an end that is
computed in 32 bits. What they share is stated once, for a port that stores an entry for each unit
of memory. A range that ends at the top of the address space ends at zero in 32 bits, and nothing
is stored for it. On ARM the test for aligned arguments only rejects a length that is not aligned,
and only if the two addresses are.
-/

import AIMv6.ArmWalk
import AIMv6.I386Map

namespace AIMv6

open Nat Option

/-! ### A port -/

/-- A page index with one entry for each unit of memory: how an entry is stored for a physical and
a virtual address, the entries, what else belongs to the index, and the walk of the processor. -/
structure EarlyPort (Index Rest : Type) where
  unit : Nat
  store : Nat → Nat → Index → Index
  entry : Index → Nat → Nat
  rest : Index → Rest
  walk : Index → Nat → Option Nat

variable {rounds vaddr paddr length : Nat}

namespace EarlyPort

variable {Index Rest : Type}

/-- The loop of `page_index_early_map`. It may go on for ever when the address wraps around; `none`
when the rounds run out. -/
def loop (port : EarlyPort Index Rest) (vend : Nat) : Nat → Nat → Nat → Index → Option Index
  | 0, _, _, _ => none
  | rounds + 1, vaddr, paddr, index =>
    if vaddr < vend then
      loop port vend rounds ((vaddr + port.unit) % 2 ^ 32) ((paddr + port.unit) % 2 ^ 64)
        (port.store paddr vaddr index)
    else some index

/-- The part of `page_index_early_map` behind the test of the arguments. -/
def mapRange (port : EarlyPort Index Rest) (rounds paddr vaddr length : Nat) (index : Index) :
    Option (Int × Index) :=
  (port.loop ((vaddr + length) % 2 ^ 32) rounds vaddr paddr index).map fun index => (0, index)

/-- The arguments are multiples of the unit. -/
def Aligned (port : EarlyPort Index Rest) (paddr vaddr length : Nat) : Prop :=
  paddr % port.unit = 0 ∧ vaddr % port.unit = 0 ∧ length % port.unit = 0

instance (port : EarlyPort Index Rest) (paddr vaddr length : Nat) :
    Decidable (port.Aligned paddr vaddr length) :=
  inferInstanceAs (Decidable (_ ∧ _ ∧ _))

/-- The addresses of a range are translated one after the other. -/
def Translates (port : EarlyPort Index Rest) (paddr vaddr length : Nat) (index : Index) : Prop :=
  ∀ va, vaddr ≤ va → va < vaddr + length → port.walk index va = some (paddr + (va - vaddr))

/-- What is expected of `page_index_early_map`: arguments that are not aligned are rejected, and
otherwise a range of 32-bit addresses is mapped and everything else is left as it was. -/
structure Contract (port : EarlyPort Index Rest) (paddr vaddr length : Nat) (before : Index)
    (outcome : Option (Int × Index)) : Prop where
  rejects : ¬ port.Aligned paddr vaddr length → outcome = some (eof, before)
  maps : port.Aligned paddr vaddr length → vaddr + length ≤ 2 ^ 32 → paddr + length ≤ 2 ^ 32 →
    ∃ after, outcome = some (0, after) ∧ port.Translates paddr vaddr length after ∧
      port.rest after = port.rest before ∧
      ∀ slot, slot < vaddr / port.unit ∨ (vaddr + length) / port.unit ≤ slot →
        port.entry after slot = port.entry before slot

/-- How the entries of a port work: a store changes one entry, and the walk reads an entry back and
depends on no other. The property `early` of an index is what has to hold for the stores to leave
the rest alone. -/
structure Lawful (port : EarlyPort Index Rest) (early : Index → Prop) (make : Nat → Nat) : Prop
    where
  positive : 0 < port.unit
  stored : ∀ paddr vaddr index slot, port.entry (port.store paddr vaddr index) slot =
    if slot = vaddr / port.unit then make paddr else port.entry index slot
  kept : ∀ paddr vaddr index, early index → early (port.store paddr vaddr index) ∧
    port.rest (port.store paddr vaddr index) = port.rest index
  walked : ∀ paddr index va, paddr % port.unit = 0 → paddr < 2 ^ 32 →
    port.entry index (va / port.unit) = make paddr →
    port.walk index va = some (paddr + va % port.unit)
  same : ∀ before after va, port.rest after = port.rest before →
    port.entry after (va / port.unit) = port.entry before (va / port.unit) →
    port.walk after va = port.walk before va

variable {port : EarlyPort Index Rest} {early : Index → Prop} {make : Nat → Nat} {index : Index}

/-- The rounds for a range store the entries of its units. -/
theorem Lawful.loop_eq (lawful : port.Lawful early make) {vend : Nat} (below : vend < 2 ^ 32)
    (count : Nat) (enough : count < rounds) (reaches : vaddr + count * port.unit = vend)
    (fits : paddr + count * port.unit ≤ 2 ^ 32) (start : early index) :
    ∃ after, port.loop vend rounds vaddr paddr index = some after ∧ early after ∧
      port.rest after = port.rest index ∧
      ∀ slot, port.entry after slot =
        if vaddr / port.unit ≤ slot ∧ slot < vaddr / port.unit + count then
          make (paddr + (slot - vaddr / port.unit) * port.unit)
        else port.entry index slot := by
  have positive := lawful.positive
  induction count generalizing rounds vaddr paddr index with
  | zero =>
    obtain ⟨more, rfl⟩ := exists_eq_succ_of_ne_zero (ne_of_gt enough)
    refine ⟨index, if_neg (by omega), start, rfl, fun slot => ?_⟩
    rw [if_neg (by omega)]
  | succ count inductionHypothesis =>
    obtain ⟨more, rfl⟩ := exists_eq_succ_of_ne_zero (ne_of_gt (zero_lt_of_lt enough))
    rw [succ_mul] at reaches fits
    have next : (vaddr + port.unit) % 2 ^ 32 = vaddr + port.unit := mod_eq_of_lt (by omega)
    have nextPhysical : (paddr + port.unit) % 2 ^ 64 = paddr + port.unit :=
      mod_eq_of_lt (by omega)
    obtain ⟨after, done, stays, rest, entries⟩ := inductionHypothesis (lt_of_succ_lt_succ enough)
      (show vaddr + port.unit + count * port.unit = vend by omega)
      (show paddr + port.unit + count * port.unit ≤ 2 ^ 32 by omega)
      (lawful.kept paddr vaddr index start).1
    refine ⟨after, ?_, stays, rest.trans (lawful.kept paddr vaddr index start).2, fun slot => ?_⟩
    · rw [loop, if_pos (by omega), next, nextPhysical]
      exact done
    · rw [entries, lawful.stored, add_div_right _ positive]
      rcases lt_trichotomy slot (vaddr / port.unit) with before | rfl | behind
      · rw [if_neg (by omega), if_neg (by omega), if_neg (by omega)]
      · rw [if_neg (by omega), if_pos rfl, if_pos (by omega), Nat.sub_self, Nat.zero_mul, add_zero]
      · rw [if_neg (show ¬ slot = vaddr / port.unit by omega)]
        refine if_congr (by omega) ?_ rfl
        rw [show slot - vaddr / port.unit = slot - (vaddr / port.unit + 1) + 1 by omega,
          succ_mul, add_assoc, add_comm port.unit]

theorem Lawful.mapRange_below (lawful : port.Lawful early make)
    (aligned : port.Aligned paddr vaddr length) (start : early index)
    (enough : 2 ^ 32 / port.unit < rounds) (below : vaddr + length < 2 ^ 32)
    (fits : paddr + length ≤ 2 ^ 32) :
    ∃ after, port.mapRange rounds paddr vaddr length index = some (0, after) ∧ early after ∧
      port.Translates paddr vaddr length after ∧ port.rest after = port.rest index ∧
      ∀ slot, slot < vaddr / port.unit ∨ (vaddr + length) / port.unit ≤ slot →
        port.entry after slot = port.entry index slot := by
  have positive := lawful.positive
  obtain ⟨physical, virtual, whole⟩ := aligned
  have count : length / port.unit * port.unit = length := Nat.div_mul_cancel
    (dvd_of_mod_eq_zero whole)
  have few : length / port.unit < rounds :=
    lt_of_le_of_lt (Nat.div_le_div_right (by omega)) enough
  have ends : (vaddr + length) / port.unit = vaddr / port.unit + length / port.unit :=
    Nat.add_div_of_dvd_right (dvd_of_mod_eq_zero virtual)
  have first : port.unit * (vaddr / port.unit) = vaddr :=
    Nat.mul_div_cancel' (dvd_of_mod_eq_zero virtual)
  obtain ⟨after, done, stays, rest, entries⟩ := lawful.loop_eq below (length / port.unit) few
    (by rw [count]) (by rwa [count]) start
  refine ⟨after, ?_, stays, fun va least inside => ?_, rest, fun slot outside => ?_⟩
  · rw [mapRange, mod_eq_of_lt below, done, map_some]
  · have low : vaddr / port.unit ≤ va / port.unit := Nat.div_le_div_right least
    have high : va / port.unit < vaddr / port.unit + length / port.unit := by
      rw [← ends]
      refine (div_lt_iff_lt_mul positive).mpr ?_
      rwa [ends, add_mul, count, mul_comm, first]
    have place := div_add_mod va port.unit
    have step : port.unit * (va / port.unit) = vaddr + (va / port.unit - vaddr / port.unit) *
        port.unit := by
      conv_lhs => rw [← Nat.sub_add_cancel low, Nat.mul_add, first]
      rw [mul_comm, add_comm]
    have walked := lawful.walked (paddr + (va / port.unit - vaddr / port.unit) * port.unit) after va
      (by rw [add_mul_mod_self_right, physical]) (by omega)
      (by rw [entries, if_pos ⟨low, high⟩])
    rw [walked]
    exact congrArg some (by omega)
  · rw [entries, if_neg (by omega)]

/-- With aligned arguments the contract is kept exactly when the range does not end at the top of
the address space, or has been mapped before. -/
theorem Lawful.mapRange_iff (lawful : port.Lawful early make) {rounds paddr vaddr length : Nat}
    {index : Index} (aligned : port.Aligned paddr vaddr length) (start : early index)
    (enough : 2 ^ 32 / port.unit < rounds) :
    port.Contract paddr vaddr length index (port.mapRange rounds paddr vaddr length index) ↔
      (vaddr + length = 2 ^ 32 → paddr + length ≤ 2 ^ 32 →
        port.Translates paddr vaddr length index) := by
  rcases lt_trichotomy (vaddr + length) (2 ^ 32) with below | top | above
  · refine iff_of_true ⟨fun other => absurd aligned other, fun _ _ fits => ?_⟩ fun top => ?_
    · obtain ⟨after, done, -, mapped⟩ := lawful.mapRange_below aligned start enough below fits
      exact ⟨after, done, mapped⟩
    · omega
  · have nothing : port.mapRange rounds paddr vaddr length index = some (0, index) := by
      obtain ⟨more, rfl⟩ := exists_eq_succ_of_ne_zero (ne_of_gt (zero_lt_of_lt enough))
      rw [mapRange, top, mod_self, loop, if_neg (not_lt_zero _), map_some]
    rw [nothing]
    constructor
    · intro contract _ fits
      obtain ⟨after, same, translates, -⟩ := contract.maps aligned (by omega) fits
      obtain rfl := (Prod.mk.inj (Option.some.inj same)).2
      exact translates
    · intro already
      exact ⟨fun other => absurd aligned other, fun _ _ fits =>
        ⟨index, rfl, already top fits, rfl, fun _ _ => rfl⟩⟩
  · exact iff_of_true ⟨fun other => absurd aligned other, fun _ inside => by omega⟩
      fun top => by omega

theorem mapRange_ne_eof (port : EarlyPort Index Rest) (rounds paddr vaddr length : Nat)
    (before index : Index) :
    port.mapRange rounds paddr vaddr length before ≠ some (eof, index) := by
  unfold mapRange
  cases port.loop ((vaddr + length) % 2 ^ 32) rounds vaddr paddr before with
  | none => nofun
  | some after =>
    intro same
    have code := (Prod.mk.inj (Option.some.inj same)).1
    exact absurd code (by decide)

end EarlyPort

/-! ### The ARM port -/

namespace Arm

/-- The attributes of an early mapping. -/
def earlyFlags : Nat := mapSharedDev ||| vmaExec

/-- One entry for each megabyte, stored by `__arm_map_sect`. -/
def earlyPort : EarlyPort Tables ((Nat → Nat → Nat) × Pool) where
  unit := sectSize
  store := fun paddr vaddr => mapSect paddr vaddr earlyFlags
  entry := Tables.l1
  rest := fun tables => (tables.l2, tables.cache)
  walk := fun tables va => (walk tables va).map Translation.paddr

/-- `page_index_early_map`. -/
def pageIndexEarlyMap (rounds paddr vaddr length : Nat) (tables : Tables) : Option (Int × Tables) :=
  if isAligned paddr sectSize && isAligned vaddr sectSize && isAligned length sectSize != true then
    some (eof, tables)
  else earlyPort.mapRange rounds paddr vaddr length tables

/-- No entry of the page index points to a second-level table. -/
def NoTables (tables : Tables) : Prop := ∀ index, isTableEntry (tables.l1 index) = false

/-- The entry of a section is no pointer to a table, whatever the address is. -/
theorem not_table_sectEntry (paddr : Nat) (attributes : Attributes) :
    isTableEntry (sectEntry paddr attributes) = false := by
  have set : (sectEntry paddr attributes).testBit 1 = true := by
    unfold sectEntry
    rw [testBit_mod_two_pow]
    simp only [testBit_or]
    rw [show l1Sect.testBit 1 = true by decide]
    rfl
  rw [testBit_eq_decide_div_mod_eq, decide_eq_true_eq] at set
  rw [isTableEntry, l1TypeMask, and_three, l1Table]
  exact beq_eq_false_iff_ne.mpr (by omega)

theorem earlyPort_lawful : earlyPort.Lawful NoTables
    fun paddr => sectEntry paddr (convertFlags earlyFlags) where
  positive := by decide
  stored := fun paddr vaddr tables slot => by
    show (mapSect paddr vaddr earlyFlags tables).l1 slot = _
    rw [mapSect_l1, l1Index_eq]
    rfl
  kept := fun paddr vaddr tables early => by
    refine ⟨fun slot => ?_, ?_⟩
    · show isTableEntry ((mapSect paddr vaddr earlyFlags tables).l1 slot) = false
      rw [mapSect_l1]
      split
      · exact not_table_sectEntry _ _
      · exact early slot
    · show (tables.l2, if isTableEntry (tables.l1 (l1Index vaddr)) then _ else tables.cache) = _
      rw [early (l1Index vaddr)]
      rfl
  walked := fun paddr tables va aligned fits entry => by
    have here : tables.l1 (l1Index va) = sectEntry paddr (convertFlags earlyFlags) := by
      rw [l1Index_eq]
      exact entry
    show (walk tables va).map Translation.paddr = _
    rw [walk_of_sect here (convertFlags_narrow _) aligned, map_some, mod_eq_of_lt fits]
    rfl
  same := fun before after va rest entry => by
    refine congrArg (Option.map _) (walk_congr (by rwa [l1Index_eq]) fun _ => ?_)
    rw [show after.l2 = before.l2 from congrArg Prod.fst rest]

theorem isAligned_sect (value : Nat) : isAligned value sectSize = true ↔ value % sectSize = 0 :=
  isAligned_two_pow value 20

theorem pageIndexEarlyMap_aligned {tables : Tables}
    (aligned : earlyPort.Aligned paddr vaddr length) :
    pageIndexEarlyMap rounds paddr vaddr length tables =
      earlyPort.mapRange rounds paddr vaddr length tables := by
  rw [pageIndexEarlyMap, (isAligned_sect paddr).mpr aligned.1,
    (isAligned_sect vaddr).mpr aligned.2.1, (isAligned_sect length).mpr aligned.2.2]
  rfl

theorem pageIndexEarlyMap_iff {tables : Tables} (early : NoTables tables)
    (enough : 2 ^ 12 < rounds) :
    earlyPort.Contract paddr vaddr length tables
        (pageIndexEarlyMap rounds paddr vaddr length tables) ↔
      paddr % sectSize = 0 ∧ vaddr % sectSize = 0 ∧
        (length % sectSize = 0 → vaddr + length = 2 ^ 32 → paddr + length ≤ 2 ^ 32 →
          earlyPort.Translates paddr vaddr length tables) := by
  by_cases addresses : paddr % sectSize = 0 ∧ vaddr % sectSize = 0
  · obtain ⟨physical, virtual⟩ := addresses
    by_cases whole : length % sectSize = 0
    · rw [pageIndexEarlyMap_aligned ⟨physical, virtual, whole⟩]
      have iff := earlyPort_lawful.mapRange_iff ⟨physical, virtual, whole⟩ early enough
      refine iff.trans ⟨fun top => ⟨physical, virtual, fun _ => top⟩, fun top => top.2.2 whole⟩
    · have part := Bool.eq_false_iff.mpr (mt (isAligned_sect length).mp whole)
      rw [pageIndexEarlyMap, (isAligned_sect paddr).mpr physical,
        (isAligned_sect vaddr).mpr virtual, part]
      exact iff_of_true ⟨fun _ => rfl, fun all => absurd all.2.2 whole⟩
        ⟨physical, virtual, fun all => absurd all whole⟩
  · rw [pageIndexEarlyMap, if_neg fun test => addresses ?_]
    · refine iff_of_false (fun contract => ?_) fun all => addresses ⟨all.1, all.2.1⟩
      exact earlyPort.mapRange_ne_eof _ _ _ _ _ _
        (contract.rejects fun all => addresses ⟨all.1, all.2.1⟩)
    · rw [Bool.and_eq_true, Bool.and_eq_true] at test
      exact ⟨(isAligned_sect paddr).mp test.1.1, (isAligned_sect vaddr).mp test.1.2⟩

end Arm

/-! ### The i386 port -/

namespace I386

/-- `XPTX_SHIFT`. -/
def xptxShift : Nat := 22

/-- `XPAGE_SIZE`. -/
def xpageSize : Nat := 2 ^ 22

/-- `PTE_S`. -/
def pteS : Nat := 0x80

def mkxpte (paddr flags : Nat) : Nat := alignBelow 64 paddr xpageSize ||| flags

def xptx (vaddr : Nat) : Nat := vaddr >>> xptxShift

/-- The page index, and what the processor finds for an address by way of an entry that points to a
table. -/
structure EarlyIndex where
  xpte : Nat → Nat
  byTable : Nat → Nat → Option Nat

/-- The walk of the processor. -/
def bigWalk (index : EarlyIndex) (va : Nat) : Option Nat :=
  let entry := index.xpte (va >>> 22)
  if present entry then
    if entry &&& pteS != 0 then some ((entry &&& 0xFFC00000) ||| (va &&& 0x3FFFFF))
    else index.byTable entry va
  else none

/-- One entry for each four megabytes. -/
def earlyPort : EarlyPort EarlyIndex (Nat → Nat → Option Nat) where
  unit := xpageSize
  store := fun paddr vaddr index => { index with
    xpte := Function.update index.xpte (xptx vaddr)
      (mkxpte paddr (pteP ||| pteR ||| pteS) % 2 ^ 32) }
  entry := EarlyIndex.xpte
  rest := EarlyIndex.byTable
  walk := bigWalk

/-- `page_index_early_map`. -/
def pageIndexEarlyMap (rounds paddr vaddr length : Nat) (index : EarlyIndex) :
    Option (Int × EarlyIndex) :=
  if !(isAligned paddr xpageSize && isAligned vaddr xpageSize && isAligned length xpageSize) then
    some (-1, index)
  else earlyPort.mapRange rounds paddr vaddr length index

variable {index : EarlyIndex}

theorem bigWalk_of_entry {va : Nat} (aligned : paddr % 2 ^ 22 = 0) (fits : paddr < 2 ^ 32)
    (entry : index.xpte (va / 2 ^ 22) = mkxpte paddr (pteP ||| pteR ||| pteS) % 2 ^ 32) :
    bigWalk index va = some (paddr + va % 2 ^ 22) := by
  have rounded : alignBelow 64 paddr xpageSize = paddr := by
    rw [show xpageSize = 2 ^ 22 from rfl, alignBelow_two_pow 64 paddr 22 (by omega) (by decide)]
    omega
  have fields : mkxpte paddr (pteP ||| pteR ||| pteS) % 2 ^ 32 = paddr + 0x83 := by
    rw [mkxpte, rounded, show pteP ||| pteR ||| pteS = 0x83 from rfl,
      or_eq_add 22 aligned (by decide)]
    omega
  have place : va >>> 22 = va / 2 ^ 22 := shiftRight_eq_div_pow va 22
  have offset : va &&& 0x3FFFFF = va % 2 ^ 22 := and_two_pow_sub_one_eq_mod va 22
  have base : (paddr + 0x83) &&& 0xFFC00000 = paddr := by
    have masked := alignBelow_two_pow 32 (paddr + 0x83) 22 (by omega) (by decide)
    refine (show (paddr + 0x83) &&& 0xFFC00000 = _ from masked).trans ?_
    omega
  have here : present (paddr + 0x83) = true := present_iff.mpr (by omega)
  have large : (paddr + 0x83) &&& pteS ≠ 0 := by
    intro zero
    have bit := congrArg (fun number => number.testBit 7) zero
    rw [testBit_and, testBit_eq_decide_div_mod_eq,
      show (paddr + 0x83) / 2 ^ 7 % 2 = 1 by omega] at bit
    exact absurd bit (by decide)
  rw [bigWalk]
  simp only [place, entry, fields, here, bne_iff_ne.mpr large, if_true, base, offset]
  rw [or_eq_add 22 aligned (mod_lt _ (by decide))]

theorem earlyPort_lawful : earlyPort.Lawful (fun _ => True)
    fun paddr => mkxpte paddr (pteP ||| pteR ||| pteS) % 2 ^ 32 where
  positive := by decide
  stored := fun paddr vaddr index slot => by
    show Function.update index.xpte (xptx vaddr) _ slot = _
    rw [Function.update_apply, xptx, shiftRight_eq_div_pow]
    rfl
  kept := fun _ _ _ _ => ⟨trivial, rfl⟩
  walked := fun _ _ _ aligned fits entry => bigWalk_of_entry aligned fits entry
  same := fun before after va rest entry => by
    show bigWalk after va = bigWalk before va
    rw [bigWalk, shiftRight_eq_div_pow, show after.xpte (va / 2 ^ 22) = _ from entry,
      show after.byTable = before.byTable from rest, bigWalk, shiftRight_eq_div_pow]
    rfl

theorem aligned_iff : (isAligned paddr xpageSize && isAligned vaddr xpageSize &&
    isAligned length xpageSize) = true ↔ earlyPort.Aligned paddr vaddr length := by
  rw [Bool.and_eq_true, Bool.and_eq_true, and_assoc]
  exact and_congr (isAligned_two_pow paddr 22)
    (and_congr (isAligned_two_pow vaddr 22) (isAligned_two_pow length 22))

theorem pageIndexEarlyMap_aligned (aligned : earlyPort.Aligned paddr vaddr length) :
    pageIndexEarlyMap rounds paddr vaddr length index =
      earlyPort.mapRange rounds paddr vaddr length index := by
  rw [pageIndexEarlyMap, aligned_iff.mpr aligned]
  rfl

theorem pageIndexEarlyMap_iff (enough : 2 ^ 10 < rounds) :
    earlyPort.Contract paddr vaddr length index
        (pageIndexEarlyMap rounds paddr vaddr length index) ↔
      (earlyPort.Aligned paddr vaddr length → vaddr + length = 2 ^ 32 → paddr + length ≤ 2 ^ 32 →
        earlyPort.Translates paddr vaddr length index) := by
  by_cases aligned : earlyPort.Aligned paddr vaddr length
  · rw [pageIndexEarlyMap_aligned aligned]
    refine (earlyPort_lawful.mapRange_iff aligned trivial enough).trans ?_
    exact ⟨fun top _ => top, fun top => top aligned⟩
  · rw [pageIndexEarlyMap, Bool.eq_false_iff.mpr (mt aligned_iff.mp aligned)]
    exact iff_of_true ⟨fun _ => rfl, fun all => absurd all aligned⟩ fun all => absurd all aligned

end I386

/-! ### The contract of both ports -/

/-- The ARM port keeps the contract exactly for addresses that are aligned, and the i386 port for
all, except in both for an aligned range that ends at the top of the address space and has not been
mapped before. -/
theorem early_map_contract_iff {rounds paddr vaddr length : Nat} {tables : Arm.Tables}
    (early : Arm.NoTables tables) (index : I386.EarlyIndex) (enough : 2 ^ 12 < rounds) :
    (Arm.earlyPort.Contract paddr vaddr length tables
        (Arm.pageIndexEarlyMap rounds paddr vaddr length tables) ↔
      paddr % Arm.sectSize = 0 ∧ vaddr % Arm.sectSize = 0 ∧
        (length % Arm.sectSize = 0 → vaddr + length = 2 ^ 32 → paddr + length ≤ 2 ^ 32 →
          Arm.earlyPort.Translates paddr vaddr length tables)) ∧
    (I386.earlyPort.Contract paddr vaddr length index
        (I386.pageIndexEarlyMap rounds paddr vaddr length index) ↔
      (I386.earlyPort.Aligned paddr vaddr length → vaddr + length = 2 ^ 32 →
        paddr + length ≤ 2 ^ 32 → I386.earlyPort.Translates paddr vaddr length index)) :=
  ⟨Arm.pageIndexEarlyMap_iff early enough, I386.pageIndexEarlyMap_iff (by omega)⟩

/-- A page index that has been cleared. -/
def clearTables : Arm.Tables := ⟨fun _ => 0, fun _ _ => 0, ⟨[], [], false, false⟩⟩

/-- The same on i386. -/
def clearIndex : I386.EarlyIndex := ⟨fun _ => 0, fun _ _ => none⟩

theorem clearTables_early : Arm.NoTables clearTables :=
  fun _ => show Arm.isTableEntry 0 = false by decide

theorem early_map_contract_kernel :
    Arm.earlyPort.Contract 0 0x80000000 0x8000000 clearTables
      (Arm.pageIndexEarlyMap 5000 0 0x80000000 0x8000000 clearTables) ∧
    I386.earlyPort.Contract 0 0x80000000 0x8000000 clearIndex
      (I386.pageIndexEarlyMap 5000 0 0x80000000 0x8000000 clearIndex) := by
  obtain ⟨arm, i386⟩ := early_map_contract_iff clearTables_early clearIndex
    (show 2 ^ 12 < 5000 by decide)
  exact ⟨arm.mpr ⟨by decide, by decide, fun _ top => absurd top (by decide)⟩,
    i386.mpr fun _ top => absurd top (by decide)⟩

/-- The last megabyte and the last four are not mapped, and on ARM an address that is not aligned is
not rejected. -/
theorem early_map_top_missing :
    Arm.pageIndexEarlyMap 5000 0 0xfff00000 0x100000 clearTables = some (0, clearTables) ∧
      ¬ Arm.earlyPort.Contract 0 0xfff00000 0x100000 clearTables (some (0, clearTables)) ∧
      I386.pageIndexEarlyMap 5000 0 0xffc00000 0x400000 clearIndex = some (0, clearIndex) ∧
      ¬ I386.earlyPort.Contract 0 0xffc00000 0x400000 clearIndex (some (0, clearIndex)) ∧
      ∃ after, Arm.pageIndexEarlyMap 5000 0x1000 0 0x100000 clearTables = some (0, after) := by
  refine ⟨rfl, fun contract => ?_, rfl, fun contract => ?_, _, rfl⟩
  · obtain ⟨after, same, translates, -⟩ := contract.maps (by decide) (by decide) (by decide)
    obtain rfl := (Prod.mk.inj (Option.some.inj same)).2
    exact nomatch translates 0xfff00000 le_rfl (by decide)
  · obtain ⟨after, same, translates, -⟩ := contract.maps (by decide) (by decide) (by decide)
    obtain rfl := (Prod.mk.inj (Option.some.inj same)).2
    exact nomatch translates 0xffc00000 le_rfl (by decide)

end AIMv6
