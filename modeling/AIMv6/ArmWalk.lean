/-
This file proves what the single mappings of the ARM page tables do to the walk.

An entry is the sum of its fields, so the walk reads back the address and the attributes that
were put in. Second-level tables of different megabytes are different (`WellFormed`), so a store
into one of them is seen by the walks of one page only. Both mappings of a block, of a page and
of a section, are then instances of one statement (`Maps`): the block is translated as asked for,
other megabytes are not touched, and the rest of the megabyte keeps its translation, unless it
was mapped as a section, when it loses it.
-/

import AIMv6.ArmPageTable

namespace AIMv6

open Nat Function Bool

namespace Arm

/-! ### Bits -/

theorem and_one (value : Nat) : value &&& 1 = value % 2 := and_two_pow_sub_one_eq_mod value 1

theorem and_three (value : Nat) : value &&& 3 = value % 4 := and_two_pow_sub_one_eq_mod value 2

theorem and_seven (value : Nat) : value &&& 7 = value % 8 := and_two_pow_sub_one_eq_mod value 3

/-- The sizes of the fields. -/
structure Attributes.Narrow (attributes : Attributes) : Prop where
  ap : attributes.ap < 4
  tex : attributes.tex < 8
  c : attributes.c < 2
  b : attributes.b < 2
  s : attributes.s < 2
  xn : attributes.xn < 2

theorem convertFlags_narrow (flags : Nat) : (convertFlags flags).Narrow := by
  have ap : (if flags &&& vmaWrite ≠ 0 then 0x3 else if flags &&& vmaRead ≠ 0 then 0x2
      else 0x1) < 4 := by
    split
    · decide
    · split <;> decide
  have xn : (if flags &&& vmaExec ≠ 0 then 0 else 1) < 2 := by
    split <;> decide
  unfold convertFlags
  dsimp only
  split
  · exact ⟨ap, by norm_num, by norm_num, by norm_num, by norm_num, xn⟩
  · split <;> exact ⟨ap, by norm_num, by norm_num, by norm_num, by norm_num, xn⟩

variable {paddr : Nat} {attributes : Attributes}

theorem sectEntry_eq (narrow : attributes.Narrow) (aligned : paddr % 2 ^ 20 = 0) :
    sectEntry paddr attributes = (paddr + (attributes.s * 65536 + (attributes.tex * 4096 +
      (attributes.ap * 1024 + (attributes.xn * 16 + (attributes.c * 8 +
        (attributes.b * 4 + 2))))))) % 2 ^ 32 := by
  obtain ⟨ap, tex, c, b, s, xn⟩ := narrow
  have order : l1Sect ||| paddr ||| attributes.s <<< 16 ||| attributes.tex <<< 12 |||
      attributes.ap <<< 10 ||| attributes.xn <<< 4 ||| attributes.c <<< 3 ||| attributes.b <<< 2 =
      paddr ||| (attributes.s <<< 16 ||| (attributes.tex <<< 12 ||| (attributes.ap <<< 10 |||
        (attributes.xn <<< 4 ||| (attributes.c <<< 3 ||| (attributes.b <<< 2 ||| l1Sect)))))) := by
    ac_rfl
  rw [sectEntry, order]
  simp only [shiftLeft_eq, l1Sect]
  rw [@or_eq_add (attributes.b * 2 ^ 2) _ 2 (by omega) (by decide),
    @or_eq_add (attributes.c * 2 ^ 3) _ 3 (by omega) (by omega),
    @or_eq_add (attributes.xn * 2 ^ 4) _ 4 (by omega) (by omega),
    @or_eq_add (attributes.ap * 2 ^ 10) _ 10 (by omega) (by omega),
    @or_eq_add (attributes.tex * 2 ^ 12) _ 12 (by omega) (by omega),
    @or_eq_add (attributes.s * 2 ^ 16) _ 16 (by omega) (by omega),
    or_eq_add 20 aligned (by omega)]

theorem pageEntry_eq (narrow : attributes.Narrow) (aligned : paddr % 2 ^ 12 = 0) :
    pageEntry paddr attributes = (paddr + (attributes.s * 1024 + (attributes.tex * 64 +
      (attributes.ap * 16 + (attributes.c * 8 + (attributes.b * 4 + (2 + attributes.xn))))))) %
        2 ^ 32 := by
  obtain ⟨ap, tex, c, b, s, xn⟩ := narrow
  have order : l2Page ||| paddr ||| attributes.s <<< 10 ||| attributes.tex <<< 6 |||
      attributes.ap <<< 4 ||| attributes.c <<< 3 ||| attributes.b <<< 2 ||| attributes.xn =
      paddr ||| (attributes.s <<< 10 ||| (attributes.tex <<< 6 ||| (attributes.ap <<< 4 |||
        (attributes.c <<< 3 ||| (attributes.b <<< 2 ||| (l2Page ||| attributes.xn)))))) := by
    ac_rfl
  rw [pageEntry, order]
  simp only [shiftLeft_eq, l2Page]
  rw [@or_eq_add 2 _ 1 (by decide) (by omega),
    @or_eq_add (attributes.b * 2 ^ 2) _ 2 (by omega) (by omega),
    @or_eq_add (attributes.c * 2 ^ 3) _ 3 (by omega) (by omega),
    @or_eq_add (attributes.ap * 2 ^ 4) _ 4 (by omega) (by omega),
    @or_eq_add (attributes.tex * 2 ^ 6) _ 6 (by omega) (by omega),
    @or_eq_add (attributes.s * 2 ^ 10) _ 10 (by omega) (by omega),
    or_eq_add 12 aligned (by omega)]

theorem and_mask (value exponent : Nat) (fits : value < 2 ^ 32) (narrow : exponent ≤ 32) :
    value &&& (2 ^ 32 - 1 - (2 ^ exponent - 1)) = value / 2 ^ exponent * 2 ^ exponent :=
  alignBelow_two_pow 32 value exponent fits narrow

/-- The walk reads back what is put into the entry of a section. -/
theorem sectEntry_fields (narrow : attributes.Narrow) (aligned : paddr % 2 ^ 20 = 0) :
    isSectEntry (sectEntry paddr attributes) = true ∧
      sectEntry paddr attributes &&& l1SectBaseMask = paddr % 2 ^ 32 ∧
      sectAttributes (sectEntry paddr attributes) = attributes := by
  have equal := sectEntry_eq narrow aligned
  obtain ⟨ap, tex, c, b, s, xn⟩ := narrow
  have fits : sectEntry paddr attributes < 2 ^ 32 := mod_lt _ (by decide)
  generalize sectEntry paddr attributes = value at equal fits
  refine ⟨?_, ?_, ?_⟩
  · rw [isSectEntry, beq_iff_eq, l1TypeMask, and_three, l1Sect]
    omega
  · rw [show l1SectBaseMask = 2 ^ 32 - 1 - (2 ^ 20 - 1) from rfl,
      and_mask value 20 fits (by decide)]
    omega
  · rcases attributes with ⟨apBits, texBits, cBit, bBit, sBit, xnBit⟩
    dsimp only at equal ap tex c b s xn
    have high : value / 2 ^ 15 % 2 = 0 := by omega
    simp only [sectAttributes, shiftRight_eq_div_pow, and_one, and_three, and_seven, high,
      zero_shiftLeft, zero_or, Attributes.mk.injEq]
    omega

/-- The walk reads back what is put into the entry of a page. -/
theorem pageEntry_fields (narrow : attributes.Narrow) (aligned : paddr % 2 ^ 12 = 0) :
    pageEntry paddr attributes &&& l2Page ≠ 0 ∧
      pageEntry paddr attributes &&& l2PageBaseMask = paddr % 2 ^ 32 ∧
      pageAttributes (pageEntry paddr attributes) = attributes := by
  have equal := pageEntry_eq narrow aligned
  obtain ⟨ap, tex, c, b, s, xn⟩ := narrow
  have fits : pageEntry paddr attributes < 2 ^ 32 := mod_lt _ (by decide)
  generalize pageEntry paddr attributes = value at equal fits
  refine ⟨?_, ?_, ?_⟩
  · have set : value.testBit 1 = true := by
      rw [testBit_eq_decide_div_mod_eq, decide_eq_true_eq]
      omega
    intro zero
    have bit := congrArg (fun number => number.testBit 1) zero
    rw [testBit_and, set] at bit
    exact absurd bit (by decide)
  · rw [show l2PageBaseMask = 2 ^ 32 - 1 - (2 ^ 12 - 1) from rfl,
      and_mask value 12 fits (by decide)]
    omega
  · rcases attributes with ⟨apBits, texBits, cBit, bBit, sBit, xnBit⟩
    dsimp only at equal ap tex c b s xn
    have high : value / 2 ^ 9 % 2 = 0 := by omega
    simp only [pageAttributes, shiftRight_eq_div_pow, and_one, and_three, and_seven, high,
      zero_shiftLeft, zero_or, Attributes.mk.injEq]
    omega

theorem l1Index_eq (vaddr : Nat) : l1Index vaddr = vaddr / 2 ^ 20 :=
  shiftRight_eq_div_pow vaddr sectShift

theorem l2Index_eq (vaddr : Nat) : l2Index vaddr = vaddr / 2 ^ 12 % 256 := by
  rw [l2Index, shiftRight_eq_div_pow]
  exact and_two_pow_sub_one_eq_mod _ 8

theorem l1Index_lt {vaddr : Nat} (fits : vaddr < 2 ^ 32) : l1Index vaddr < 4096 := by
  rw [l1Index_eq]
  omega

variable {value table : Nat}

theorem not_table_of_sect (sect : isSectEntry value = true) : isTableEntry value = false := by
  rw [isSectEntry, beq_iff_eq] at sect
  rw [isTableEntry, sect]
  rfl

theorem not_sect_of_table (table : isTableEntry value = true) : isSectEntry value = false := by
  rw [isTableEntry, beq_iff_eq] at table
  rw [isSectEntry, table]
  rfl

theorem tableEntry_fields (kind : isL2Table table = true) :
    isTableEntry (l1Table ||| table) = true ∧ tableBase (l1Table ||| table) = table := by
  rw [isL2Table, and_eq_true, decide_eq_true_iff, show l2Size = 2 ^ 10 from rfl,
    isAligned_two_pow] at kind
  obtain ⟨aligned, fits⟩ := kind
  have sum : l1Table ||| table = table + 1 := by
    rw [Nat.or_comm]
    exact or_eq_add 10 aligned (by decide)
  rw [sum, isTableEntry, beq_iff_eq, l1TypeMask, and_three, tableBase,
    show l1TableBaseMask = 2 ^ 32 - 1 - (2 ^ 10 - 1) from rfl,
    and_mask (table + 1) 10 (by omega) (by decide), l1Table]
  omega

/-! ### The walk -/

variable {tables after : Tables} {va : Nat}

theorem walk_of_table (table : isTableEntry (tables.l1 (l1Index va)) = true) :
    walk tables va =
      if tables.l2 (tableBase (tables.l1 (l1Index va))) (l2Index va) &&& l2Page ≠ 0 then
        some ⟨(tables.l2 (tableBase (tables.l1 (l1Index va))) (l2Index va) &&& l2PageBaseMask) |||
          (va &&& 0xFFF), pageAttributes
            (tables.l2 (tableBase (tables.l1 (l1Index va))) (l2Index va))⟩
      else none := by
  rw [walk]
  simp only [not_sect_of_table table, table, if_true, false_eq_true, if_false]

/-- The walk depends on the entry of the megabyte and on the entry of the page. -/
theorem walk_congr (first : after.l1 (l1Index va) = tables.l1 (l1Index va))
    (second : isTableEntry (tables.l1 (l1Index va)) = true →
      after.l2 (tableBase (tables.l1 (l1Index va))) (l2Index va) =
        tables.l2 (tableBase (tables.l1 (l1Index va))) (l2Index va)) :
    walk after va = walk tables va := by
  by_cases table : isTableEntry (tables.l1 (l1Index va)) = true
  · rw [walk_of_table table, walk_of_table (by rwa [first]), first, second table]
  · simp only [walk, first, table, false_eq_true, if_false]

theorem walk_of_sect (entry : tables.l1 (l1Index va) = sectEntry paddr attributes)
    (narrow : attributes.Narrow) (aligned : paddr % 2 ^ 20 = 0) :
    walk tables va = some ⟨paddr % 2 ^ 32 + va % 2 ^ 20, attributes⟩ := by
  obtain ⟨sect, base, fields⟩ := sectEntry_fields narrow aligned
  have offset : va &&& 0xFFFFF = va % 2 ^ 20 := and_two_pow_sub_one_eq_mod va 20
  rw [walk, entry]
  simp only [sect, if_true, base, fields, offset]
  rw [or_eq_add 20 (by omega) (mod_lt _ (by decide))]

/-- A page that is mapped. -/
theorem walk_of_page (table : isTableEntry (tables.l1 (l1Index va)) = true)
    (entry : tables.l2 (tableBase (tables.l1 (l1Index va))) (l2Index va) =
      pageEntry paddr attributes)
    (narrow : attributes.Narrow) (aligned : paddr % 2 ^ 12 = 0) :
    walk tables va = some ⟨paddr % 2 ^ 32 + va % 2 ^ 12, attributes⟩ := by
  obtain ⟨set, base, fields⟩ := pageEntry_fields narrow aligned
  have offset : va &&& 0xFFF = va % 2 ^ 12 := and_two_pow_sub_one_eq_mod va 12
  rw [walk_of_table table, entry, if_pos set, base, fields, offset,
    or_eq_add 12 (by omega) (mod_lt _ (by decide))]

theorem walk_of_cleared (kind : isL2Table table = true)
    (entry : tables.l1 (l1Index va) = l1Table ||| table)
    (cleared : tables.l2 table (l2Index va) = 0) : walk tables va = none := by
  obtain ⟨isTable, base⟩ := tableEntry_fields kind
  rw [walk_of_table (by rwa [entry]), entry, base, cleared]
  rfl

/-- The tables of different megabytes are different tables of the cache. -/
structure WellFormed (tables : Tables) : Prop where
  distinct : ∀ first < 4096, ∀ second < 4096, isTableEntry (tables.l1 first) = true →
    isTableEntry (tables.l1 second) = true →
    tableBase (tables.l1 first) = tableBase (tables.l1 second) → first = second
  owned : ∀ index < 4096, isTableEntry (tables.l1 index) = true →
    tableBase (tables.l1 index) ∈ tables.cache.inUse

/-- The block of addresses of a size that begins at an address. -/
def Block (vaddr size va : Nat) : Prop := vaddr ≤ va ∧ va < vaddr + size

/-- What mapping a block does: the block is translated as asked for, other megabytes are left
alone, and the rest of the megabyte keeps its translation unless it was mapped as a section. -/
structure Maps (tables after : Tables) (vaddr paddr size flags : Nat) : Prop where
  wellFormed : WellFormed after
  inside : ∀ va, Block vaddr size va →
    walk after va = some ⟨paddr % 2 ^ 32 + (va - vaddr), convertFlags flags⟩
  settled : isSectEntry (after.l1 (l1Index vaddr)) = false ∨ size = sectSize
  others : ∀ index ≠ l1Index vaddr, after.l1 index = tables.l1 index
  kept : ∀ va < 2 ^ 32, ¬ Block vaddr size va →
    (l1Index va = l1Index vaddr → isSectEntry (tables.l1 (l1Index vaddr)) = false) →
    walk after va = walk tables va
  lost : ∀ va, ¬ Block vaddr size va → l1Index va = l1Index vaddr →
    isSectEntry (tables.l1 (l1Index vaddr)) = true → walk after va = none

/-! ### A section -/

section Steps

variable {vaddr flags : Nat} (wellFormed : WellFormed tables) (fits : vaddr < 2 ^ 32)

theorem mapSect_l1 (index : Nat) :
    (mapSect paddr vaddr flags tables).l1 index =
      if index = l1Index vaddr then sectEntry paddr (convertFlags flags) else tables.l1 index := by
  simp only [mapSect, unmapL1, update_apply]
  split <;> rfl

include wellFormed fits in
theorem unmapL1_inUse {index : Nat} (bound : index < 4096) (different : index ≠ l1Index vaddr)
    (table : isTableEntry (tables.l1 index) = true) :
    tableBase (tables.l1 index) ∈ (unmapL1 vaddr tables).cache.inUse := by
  have inUse := wellFormed.owned index bound table
  show tableBase (tables.l1 index) ∈ (if isTableEntry (tables.l1 (l1Index vaddr)) then
    tables.cache.give (tableBase (tables.l1 (l1Index vaddr))) else tables.cache).inUse
  split
  · rename_i old
    rw [Pool.give_of_mem (wellFormed.owned _ (l1Index_lt fits) old)]
    refine (List.mem_erase_of_ne fun same => different ?_).mpr inUse
    exact wellFormed.distinct index bound _ (l1Index_lt fits) table old same
  · exact inUse

include wellFormed fits in
theorem mapSect_maps (aligned : vaddr % 2 ^ 20 = 0) (physicalAligned : paddr % 2 ^ 20 = 0) :
    Maps tables (mapSect paddr vaddr flags tables) vaddr paddr sectSize flags := by
  have narrow := convertFlags_narrow flags
  have entries := @mapSect_l1 paddr tables vaddr flags
  obtain ⟨sect, -, -⟩ := sectEntry_fields narrow physicalAligned
  have block : ∀ va, Block vaddr sectSize va ↔ l1Index va = l1Index vaddr := by
    intro va
    rw [Block, sectSize, l1Index_eq, l1Index_eq]
    omega
  have tableElsewhere : ∀ index, isTableEntry ((mapSect paddr vaddr flags tables).l1 index) = true →
      index ≠ l1Index vaddr ∧ (mapSect paddr vaddr flags tables).l1 index = tables.l1 index := by
    intro index table
    rw [entries] at table ⊢
    split at table
    · rw [not_table_of_sect sect] at table
      cases table
    · rename_i different
      exact ⟨different, if_neg different⟩
  refine ⟨⟨fun first firstBound second secondBound firstTable secondTable same => ?_,
    fun index bound table => ?_⟩, fun va inside => ?_, Or.inr rfl, fun index different => ?_,
    fun va _ outside _ => ?_, fun va outside sameSlot => absurd ((block va).mpr sameSlot) outside⟩
  · obtain ⟨-, firstSame⟩ := tableElsewhere first firstTable
    obtain ⟨-, secondSame⟩ := tableElsewhere second secondTable
    rw [firstSame] at firstTable same
    rw [secondSame] at secondTable same
    exact wellFormed.distinct first firstBound second secondBound firstTable secondTable same
  · obtain ⟨different, unchanged⟩ := tableElsewhere index table
    rw [unchanged] at table ⊢
    exact unmapL1_inUse wellFormed fits bound different table
  · have slot := (block va).mp inside
    rw [walk_of_sect ((entries _).trans (if_pos slot)) narrow physicalAligned]
    have low : va % 2 ^ 20 = va - vaddr := by
      rw [Block, sectSize] at inside
      omega
    rw [low]
  · rw [entries, if_neg different]
  · refine walk_congr ?_ fun _ => rfl
    rw [entries, if_neg (mt (block va).mpr outside)]

/-! ### A page -/

include wellFormed in
/-- `__arm_map_table` leaves a table in the entry; where there was none, no page of the megabyte is
mapped then. -/
theorem mapTable_spec (done : mapTable vaddr tables = some after) :
    WellFormed after ∧ isTableEntry (after.l1 (l1Index vaddr)) = true ∧
      (∀ index ≠ l1Index vaddr, after.l1 index = tables.l1 index) ∧
      (∀ va < 2 ^ 32, (l1Index va = l1Index vaddr →
        isSectEntry (tables.l1 (l1Index vaddr)) = false) → walk after va = walk tables va) ∧
      ∀ va, l1Index va = l1Index vaddr → isSectEntry (tables.l1 (l1Index vaddr)) = true →
        walk after va = none := by
  unfold mapTable at done
  split at done
  · rename_i table
    cases done
    refine ⟨wellFormed, table, fun _ _ => rfl, fun _ _ _ => rfl, fun va _ sect => ?_⟩
    rw [not_sect_of_table table] at sect
    cases sect
  · rename_i noTable
    rcases tables.cache.take_cases isL2Table with
      ⟨l2, rest, kind, fresh, -, taken⟩ | ⟨rest, refused⟩
    · rw [taken] at done
      cases done
      obtain ⟨isTable, base⟩ := tableEntry_fields kind
      have cleared : ∀ va, l1Index va = l1Index vaddr → walk
          { l1 := Function.update tables.l1 (l1Index vaddr) (l1Table ||| l2)
            l2 := Function.update tables.l2 l2 fun _ => 0
            cache := { tables.cache with inUse := l2 :: tables.cache.inUse, answers := rest } } va =
          none := by
        intro va slot
        refine walk_of_cleared kind ?_ ?_
        · rw [slot]
          exact update_self _ _ _
        · show Function.update tables.l2 l2 (fun _ => 0) l2 (l2Index va) = 0
          rw [update_self]
      have old : ∀ index < 4096, index ≠ l1Index vaddr → isTableEntry (tables.l1 index) = true →
          tableBase (tables.l1 index) ≠ l2 := fun index bound _ table same =>
        fresh (same ▸ wellFormed.owned index bound table)
      refine ⟨⟨fun first firstBound second secondBound => ?_, fun index bound => ?_⟩, ?_,
        fun index different => update_of_ne different _ _, fun va small notSect => ?_,
        fun va slot _ => cleared va slot⟩
      · dsimp only
        by_cases firstHere : first = l1Index vaddr <;> by_cases secondHere : second = l1Index vaddr
        · exact fun _ _ _ => firstHere.trans secondHere.symm
        · rw [firstHere, update_self, update_of_ne secondHere, base]
          exact fun _ table same => absurd same.symm (old second secondBound secondHere table)
        · rw [secondHere, update_self, update_of_ne firstHere, base]
          exact fun table _ same => absurd same (old first firstBound firstHere table)
        · rw [update_of_ne firstHere, update_of_ne secondHere]
          exact wellFormed.distinct first firstBound second secondBound
      · dsimp only
        by_cases here : index = l1Index vaddr
        · rw [here, update_self, base]
          exact fun _ => List.mem_cons_self
        · rw [update_of_ne here]
          exact fun table => List.mem_cons_of_mem _ (wellFormed.owned index bound table)
      · dsimp only
        rw [update_self]
        exact isTable
      · by_cases slot : l1Index va = l1Index vaddr
        · rw [cleared va slot, walk]
          simp only [slot, notSect slot, noTable, false_eq_true, if_false]
        · refine walk_congr (update_of_ne slot _ _) fun table => ?_
          show Function.update tables.l2 l2 (fun _ => 0) _ _ = _
          rw [update_of_ne (old _ (l1Index_lt small) slot table)]
    · rw [refused] at done
      cases done

include wellFormed fits in
theorem mapPage_maps (aligned : vaddr % 2 ^ 12 = 0) (physicalAligned : paddr % 2 ^ 12 = 0)
    (done : mapPage paddr vaddr flags tables = some after) :
    Maps tables after vaddr paddr pageSize flags := by
  obtain ⟨middle, linked, rfl⟩ := Option.map_eq_some_iff.mp done
  have below : alignBelow 32 vaddr sectSize = vaddr / 2 ^ 20 * 2 ^ 20 :=
    alignBelow_two_pow 32 vaddr 20 fits (by decide)
  have slot : l1Index (alignBelow 32 vaddr sectSize) = l1Index vaddr := by
    rw [below, l1Index_eq, l1Index_eq, Nat.mul_div_cancel _ (by decide)]
  obtain ⟨stays, table, others, kept, lost⟩ := mapTable_spec wellFormed linked
  rw [slot] at table others kept lost
  have elsewhere : ∀ va < 2 ^ 32, ¬ Block vaddr pageSize va →
      walk (setPage paddr vaddr flags middle) va = walk middle va := by
    intro va small outside
    refine walk_congr rfl fun vaTable => ?_
    show Function.update middle.l2 (tableBase (middle.l1 (l1Index vaddr))) _ _ _ = _
    by_cases sameTable : tableBase (middle.l1 (l1Index va)) = tableBase (middle.l1 (l1Index vaddr))
    · have sameSlot := stays.distinct _ (l1Index_lt small) _ (l1Index_lt fits)
        vaTable table sameTable
      have otherPage : l2Index va ≠ l2Index vaddr := by
        intro samePage
        rw [l1Index_eq, l1Index_eq] at sameSlot
        rw [l2Index_eq, l2Index_eq] at samePage
        exact outside ⟨by omega, by unfold pageSize; omega⟩
      rw [sameTable, update_self, update_of_ne otherPage]
    · rw [update_of_ne sameTable]
  refine ⟨⟨stays.distinct, stays.owned⟩, fun va inside => ?_, Or.inl (not_sect_of_table table),
    others, fun va small outside notSect =>
      (elsewhere va small outside).trans (kept va small notSect),
    fun va outside sameSlot sect => ?_⟩
  · have page : l1Index va = l1Index vaddr ∧ l2Index va = l2Index vaddr := by
      rw [Block, pageSize] at inside
      rw [l1Index_eq, l1Index_eq, l2Index_eq, l2Index_eq]
      omega
    have entry : (setPage paddr vaddr flags middle).l2
        (tableBase ((setPage paddr vaddr flags middle).l1 (l1Index va))) (l2Index va) =
        pageEntry paddr (convertFlags flags) := by
      rw [page.1, page.2]
      simp only [setPage, update_self]
    rw [walk_of_page (by rw [page.1]; exact table) entry (convertFlags_narrow flags)
      physicalAligned]
    have low : va % 2 ^ 12 = va - vaddr := by
      rw [Block, pageSize] at inside
      omega
    rw [low]
  · have small : va < 2 ^ 32 := by
      rw [l1Index_eq, l1Index_eq] at sameSlot
      omega
    rw [elsewhere va small outside, lost va sameSlot sect]

end Steps

end Arm

end AIMv6
