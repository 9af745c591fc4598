/-
This file reads the page tables in memory as a radix tree.

The tables reached from the top directory form the tree; `WellFormed` says that no table is
reached along two paths and that each is a page in use. Under it a store into one table
touches nothing of another, so the two effects the code has on a table are stated once:
linking a fresh empty table into an empty entry keeps every page's entry (`link_extends`),
and storing into a leaf table changes the entry of one page (`entry_setWord`). The lookups of
`__getpagedesc` are walks of the tree, and with `create` set it extends the tree until the
leaf table is there.
-/

import AIMv6.PageTable
import AIMv6.Radix

namespace AIMv6

open List Kernel Radix Nat Option

/-! ### Indices -/

theorem Abi.nrPtentries_pos (abi : Abi) : 0 < abi.nrPtentries := Nat.two_pow_pos _

theorem Abi.nrPtentries_mul_wordSize (abi : Abi) : abi.nrPtentries * abi.wordSize = pageSize := by
  cases abi <;> rfl

theorem levelIndex_eq (abi : Abi) (shift va : Nat) :
    levelIndex abi shift va = va / 2 ^ shift % abi.nrPtentries := by
  rw [levelIndex, Abi.ptxMask, and_two_pow_sub_one_eq_mod, shiftRight_eq_div_pow]
  rfl

theorem levelIndex_lt (abi : Abi) (shift va : Nat) : levelIndex abi shift va < abi.nrPtentries := by
  rw [levelIndex_eq]
  exact mod_lt _ abi.nrPtentries_pos

/-- The number of directory levels above the leaf tables. -/
def Abi.depth : Abi → Nat
  | .ilp32 => 1
  | .lp64 => 3

/-- The number of address bits the tables translate. -/
def Abi.addressBits : Abi → Nat
  | .ilp32 => 32
  | .lp64 => 48

/-- The shifts of the directory levels, from the top. -/
def Abi.dirShifts : Abi → List Nat
  | .ilp32 => [pdxShift]
  | .lp64 => [pgxShift, puxShift, pmxShift]

/-- The path of directory indices to the leaf table of an address. -/
def dirPath (abi : Abi) (va : Nat) : List (Fin abi.nrPtentries) :=
  abi.dirShifts.map fun shift => ⟨levelIndex abi shift va, levelIndex_lt abi shift va⟩

theorem length_dirPath (abi : Abi) (va : Nat) : (dirPath abi va).length = abi.depth := by
  cases abi <;> rfl

theorem dirPath_congr {abi : Abi} {first second : Nat}
    (same : first / pageSize = second / pageSize) :
    dirPath abi first = dirPath abi second ∧ ptx abi first = ptx abi second := by
  have level : ∀ shift, 12 ≤ shift → levelIndex abi shift first = levelIndex abi shift second := by
    intro shift above
    rw [levelIndex_eq, levelIndex_eq, show 2 ^ shift = pageSize * 2 ^ (shift - 12) by
      rw [show pageSize = 2 ^ 12 from rfl, ← pow_add, Nat.add_sub_cancel' above],
      ← Nat.div_div_eq_div_mul, ← Nat.div_div_eq_div_mul, same]
  refine ⟨map_congr_left fun shift member => Fin.ext (level shift ?_), level 12 le_rfl⟩
  cases abi <;> simp only [Abi.dirShifts, mem_cons, not_mem_nil, or_false] at member
  · subst member
    decide
  · rcases member with rfl | rfl | rfl <;> decide

variable {abi : Abi} {first second table paddr pgindex va : Nat} {kernel : Kernel}

theorem page_of_indices (firstFits : first < 2 ^ abi.addressBits)
    (secondFits : second < 2 ^ abi.addressBits) (samePath : dirPath abi first = dirPath abi second)
    (samePtx : ptx abi first = ptx abi second) : first / pageSize = second / pageSize := by
  cases abi with
  | ilp32 =>
    have low : first / 2 ^ 12 % 1024 = second / 2 ^ 12 % 1024 := by
      rw [ptx, ptx, levelIndex_eq, levelIndex_eq] at samePtx
      exact samePtx
    have high : first / 2 ^ 22 % 1024 = second / 2 ^ 22 % 1024 := by
      have entries := Fin.mk.inj (map_inj_left.mp samePath pdxShift mem_cons_self)
      rw [levelIndex_eq, levelIndex_eq] at entries
      exact entries
    simp only [Abi.addressBits] at firstFits secondFits
    show first / 4096 = second / 4096
    omega
  | lp64 =>
    have low : first / 2 ^ 12 % 512 = second / 2 ^ 12 % 512 := by
      rw [ptx, ptx, levelIndex_eq, levelIndex_eq] at samePtx
      exact samePtx
    have level : ∀ shift ∈ Abi.dirShifts .lp64,
        first / 2 ^ shift % 512 = second / 2 ^ shift % 512 := by
      intro shift member
      have entries := Fin.mk.inj (map_inj_left.mp samePath shift member)
      rw [levelIndex_eq, levelIndex_eq] at entries
      exact entries
    have middle : first / 2 ^ 21 % 512 = second / 2 ^ 21 % 512 := level 21 (by decide)
    have upper : first / 2 ^ 30 % 512 = second / 2 ^ 30 % 512 := level 30 (by decide)
    have top : first / 2 ^ 39 % 512 = second / 2 ^ 39 % 512 := level 39 (by decide)
    simp only [Abi.addressBits] at firstFits secondFits
    show first / 4096 = second / 4096
    omega

/-! ### Tables in memory -/

/-- The kernel address of one page. -/
structure IsTable (abi : Abi) (table : Nat) : Prop where
  aligned : table % pageSize = 0
  nonzero : 0 < table
  fits : table + pageSize ≤ abi.modulus

theorem IsTable.slot_eq {index : Nat} (isTable : IsTable abi table)
    (bound : index < abi.nrPtentries) :
    slot abi table index = table + index * abi.wordSize ∧
      table ≤ slot abi table index ∧ slot abi table index < table + pageSize := by
  have inside : index * abi.wordSize < pageSize := by
    rw [← abi.nrPtentries_mul_wordSize]
    exact mul_lt_mul_of_pos_right bound abi.wordSize_pos
  have fits := isTable.fits
  have equal : slot abi table index = table + index * abi.wordSize :=
    mod_eq_of_lt (by omega)
  exact ⟨equal, by omega, by omega⟩

theorem IsTable.apart {abi : Abi} {first second : Nat} (firstTable : IsTable abi first)
    (secondTable : IsTable abi second) (different : first ≠ second) {address : Nat}
    (inFirst : first ≤ address ∧ address < first + pageSize) :
    ¬ (second ≤ address ∧ address < second + pageSize) := by
  have firstAligned := firstTable.aligned
  have secondAligned := secondTable.aligned
  unfold pageSize at *
  omega

theorem IsTable.slot_ne {index other : Nat} (firstTable : IsTable abi first)
    (secondTable : IsTable abi second) (bound : index < abi.nrPtentries)
    (otherBound : other < abi.nrPtentries) (different : first ≠ second ∨ index ≠ other) :
    slot abi first index ≠ slot abi second other := by
  intro same
  obtain ⟨firstSlot, firstLow, firstHigh⟩ := firstTable.slot_eq bound
  obtain ⟨secondSlot, secondLow, secondHigh⟩ := secondTable.slot_eq otherBound
  by_cases sameTable : first = second
  · subst sameTable
    have sameIndex : index * abi.wordSize = other * abi.wordSize := by omega
    exact different.elim (fun no => no rfl)
      (fun no => no (eq_of_mul_eq_mul_right abi.wordSize_pos sameIndex))
  · exact firstTable.apart secondTable sameTable ⟨firstLow, firstHigh⟩
      (same ▸ ⟨secondLow, secondHigh⟩)

section Words

variable {abi : Abi} {table other index place value : Nat} {kernel : Kernel}

theorem word_lt : kernel.word abi table index < abi.modulus :=
  mod_lt _ (Nat.two_pow_pos _)

theorem word_setWord_same :
    (kernel.setWord abi table index value).word abi table index = value % abi.modulus := by
  simp only [word, setWord, Function.update_self, mod_mod]

theorem word_setWord_of_ne (different : slot abi other place ≠ slot abi table index) :
    (kernel.setWord abi table index value).word abi other place = kernel.word abi other place := by
  simp only [word, setWord, Function.update_of_ne different]

theorem word_clearPage_same (isTable : IsTable abi table) (bound : index < abi.nrPtentries) :
    (kernel.clearPage table).word abi table index = 0 := by
  obtain ⟨-, low, high⟩ := isTable.slot_eq bound
  simp only [word, clearPage, if_pos (And.intro low high), zero_mod]

theorem word_clearPage_of_ne (isTable : IsTable abi table) (otherTable : IsTable abi other)
    (different : other ≠ table) (bound : place < abi.nrPtentries) :
    (kernel.clearPage table).word abi other place = kernel.word abi other place := by
  obtain ⟨-, low, high⟩ := otherTable.slot_eq bound
  simp only [word, clearPage, if_neg (otherTable.apart isTable different (And.intro low high))]

end Words

/-! ### Physical pages -/

theorem isFrame_iff : isFrame abi paddr = true ↔ paddr % pageSize = 0 ∧ paddr < ramTop abi := by
  rw [isFrame, Bool.and_eq_true, decide_eq_true_iff, show pageSize = 2 ^ 12 from rfl,
    isAligned_two_pow]

theorem pa2kva_ilp32 (below : paddr < ramTop .ilp32) :
    pa2kva .ilp32 paddr =
      if paddr ≤ 0x10000000 then 0x80000000 + paddr else 0xb0000000 + paddr := by
  have small : paddr < 0x40000000 := below
  have same : paddr % 2 ^ 32 = paddr := mod_eq_of_lt (by omega)
  simp only [pa2kva, same, lowramTop, ksseg, ioCacBase]
  by_cases low : paddr ≤ 0x10000000
  · rw [if_pos low, if_neg (not_lt.mpr low)]
    exact mod_eq_of_lt (by omega)
  · rw [if_neg low, if_pos (Nat.lt_of_not_le low), mod_eq_of_lt (by omega)]
    omega

theorem pa2kva_lp64 (below : paddr < ramTop .lp64) :
    pa2kva .lp64 paddr = 0x9800000000000000 + paddr := by
  have small : paddr < 2 ^ 48 := below
  exact mod_eq_of_lt (show 0x9800000000000000 + paddr < 2 ^ 64 by omega)

theorem isTable_pa2kva (frame : isFrame abi paddr = true) : IsTable abi (pa2kva abi paddr) := by
  obtain ⟨aligned, below⟩ := isFrame_iff.mp frame
  unfold pageSize at aligned
  cases abi with
  | ilp32 =>
    have small : paddr < 0x40000000 := below
    have top : Abi.ilp32.modulus = 2 ^ 32 := rfl
    have place := pa2kva_ilp32 below
    generalize pa2kva .ilp32 paddr = table at place
    split at place <;>
      exact ⟨show table % 4096 = 0 by omega, by omega, show table + 4096 ≤ _ by omega⟩
  | lp64 =>
    have small : paddr < 2 ^ 48 := below
    have top : Abi.lp64.modulus = 2 ^ 64 := rfl
    have place := pa2kva_lp64 below
    generalize pa2kva .lp64 paddr = table at place
    exact ⟨show table % 4096 = 0 by omega, by omega, show table + 4096 ≤ _ by omega⟩

theorem pa2kva_injOn (firstBelow : first < ramTop abi) (secondBelow : second < ramTop abi)
    (same : pa2kva abi first = pa2kva abi second) : first = second := by
  cases abi with
  | ilp32 =>
    rw [pa2kva_ilp32 firstBelow, pa2kva_ilp32 secondBelow] at same
    split at same <;> split at same <;> omega
  | lp64 =>
    rw [pa2kva_lp64 firstBelow, pa2kva_lp64 secondBelow] at same
    omega

theorem pa2kva_injective (firstFrame : isFrame abi first = true)
    (secondFrame : isFrame abi second = true) (same : pa2kva abi first = pa2kva abi second) :
    first = second :=
  pa2kva_injOn (isFrame_iff.mp firstFrame).2 (isFrame_iff.mp secondFrame).2 same

/-! ### Back from kernel addresses -/

theorem kva2pa_ilp32 (a : Nat) :
    kva2pa .ilp32 a = if a > 0xa0000000 then a - 0xa0000000
      else if a > 0x80000000 then a - 0x80000000
      else if a > 0xc0000000 then a - 0xc0000000 + 0x10000000 else 2 ^ 32 - 1 :=
  rfl

theorem kva2pa_lp64 (a : Nat) :
    kva2pa .lp64 a = if a > 0xffffffffa0000000 then a - 0xffffffffa0000000
      else if a > 0xffffffff80000000 then a - 0xffffffff80000000
      else if a > 0x9800000000000000 then a - 0x9800000000000000
      else if a > 0x9000000000000000 then a - 0x9000000000000000 else 2 ^ 64 - 1 :=
  rfl

/-- The addresses of the high RAM are above `KSEG1` and are taken for addresses of that segment;
the base of `KSEG0` is taken for no kernel address at all. -/
theorem kva2pa_pa2kva_ilp32 (below : paddr < ramTop .ilp32) :
    kva2pa .ilp32 (pa2kva .ilp32 paddr) =
      if paddr = 0 then 2 ^ 32 - 1 else if paddr ≤ 0x10000000 then paddr
      else 0x10000000 + paddr := by
  rw [pa2kva_ilp32 below]
  by_cases zero : paddr = 0
  · subst zero
    rfl
  · rw [if_neg zero]
    by_cases low : paddr ≤ 0x10000000
    · rw [if_pos low, if_pos low, kva2pa_ilp32, if_neg (by omega), if_pos (by omega)]
      omega
    · rw [if_neg low, if_neg low, kva2pa_ilp32, if_pos (by omega)]
      omega

/-- The base of the cached segment is taken for an address of the uncached one. -/
theorem kva2pa_pa2kva_lp64 (below : paddr < ramTop .lp64) :
    kva2pa .lp64 (pa2kva .lp64 paddr) = if paddr = 0 then 0x0800000000000000 else paddr := by
  have small : paddr < 2 ^ 48 := below
  rw [pa2kva_lp64 below]
  by_cases zero : paddr = 0
  · subst zero
    rfl
  · rw [if_neg zero]
    rw [kva2pa_lp64, if_neg (by omega), if_neg (by omega), if_pos (by omega)]
    omega

/-- `kva2pa` inverts `pa2kva` at every address of the RAM but address 0 and, in the 32-bit build,
those of the high RAM. `pa2kva` gives no kernel address twice. -/
theorem kva2pa_inverts_iff (abi : Abi) :
    (∀ paddr < ramTop abi, kva2pa abi (pa2kva abi paddr) = paddr ↔
      0 < paddr ∧ (abi = .ilp32 → paddr ≤ lowramTop)) ∧
    ∀ first < ramTop abi, ∀ second < ramTop abi, pa2kva abi first = pa2kva abi second →
      first = second := by
  refine ⟨fun paddr below => ?_, fun first firstBelow second secondBelow =>
    pa2kva_injOn firstBelow secondBelow⟩
  cases abi with
  | ilp32 =>
    have top : lowramTop = 0x10000000 := rfl
    rw [kva2pa_pa2kva_ilp32 below, top]
    constructor
    · intro same
      split at same
      · omega
      · split at same
        · exact ⟨by omega, fun _ => by omega⟩
        · omega
    · rintro ⟨positive, low⟩
      rw [if_neg (by omega), if_pos (low rfl)]
  | lp64 =>
    rw [kva2pa_pa2kva_lp64 below]
    constructor
    · intro same
      split at same
      · omega
      · exact ⟨by omega, nofun⟩
    · rintro ⟨positive, -⟩
      rw [if_neg (by omega)]

theorem kva2pa_inverts_lowram_top :
    kva2pa .ilp32 (pa2kva .ilp32 lowramTop) = lowramTop ∧
      kva2pa .lp64 (pa2kva .lp64 lowramTop) = lowramTop :=
  ⟨((kva2pa_inverts_iff .ilp32).1 lowramTop (by decide)).mpr (by decide),
    ((kva2pa_inverts_iff .lp64).1 lowramTop (by decide)).mpr (by decide)⟩

/-- Address 0 is lost in both builds, and the first page of the high RAM is taken for another. -/
theorem kva2pa_loses :
    kva2pa .ilp32 (pa2kva .ilp32 0) = 2 ^ 32 - 1 ∧
      kva2pa .lp64 (pa2kva .lp64 0) = 0x0800000000000000 ∧
      kva2pa .ilp32 (pa2kva .ilp32 0x10001000) = 0x20001000 := by
  decide

/-! ### The tree -/

/-- The table an entry of a directory points to. -/
def child (abi : Abi) (kernel : Kernel) (table : Nat) (index : Fin abi.nrPtentries) : Option Nat :=
  if kernel.word abi table index = 0 then none else some (kernel.word abi table index)

theorem child_eq_some {abi : Abi} {kernel : Kernel} {table next : Nat}
    {index : Fin abi.nrPtentries} :
    child abi kernel table index = some next ↔ next ≠ 0 ∧ kernel.word abi table index = next := by
  unfold child
  split
  · rename_i zero
    rw [zero]
    exact ⟨fun no => (nomatch no), fun both => absurd both.2.symm both.1⟩
  · rename_i nonzero
    rw [Option.some.injEq]
    exact ⟨fun same => ⟨same ▸ nonzero, same⟩, fun both => both.2⟩

theorem child_eq_none {abi : Abi} {kernel : Kernel} {table : Nat} {index : Fin abi.nrPtentries} :
    child abi kernel table index = none ↔ kernel.word abi table index = 0 := by
  unfold child
  split <;> simp_all

/-- The leaf table an address is translated by. -/
def leaf (abi : Abi) (pgindex : Nat) (kernel : Kernel) (va : Nat) : Option Nat :=
  walk (child abi kernel) pgindex (dirPath abi va)

/-- The entry of an address, zero when there is no leaf table for it. -/
def entry (abi : Abi) (pgindex : Nat) (kernel : Kernel) (va : Nat) : Nat :=
  ((leaf abi pgindex kernel va).map fun table => kernel.word abi table (ptx abi va)).getD 0

theorem entry_of_leaf (found : leaf abi pgindex kernel va = some table) :
    entry abi pgindex kernel va = kernel.word abi table (ptx abi va) := by
  rw [entry, found]
  rfl

theorem entry_of_no_leaf
    (missing : leaf abi pgindex kernel va = none) : entry abi pgindex kernel va = 0 := by
  rw [entry, missing]
  rfl

/-- The tables form a tree of pages in use. -/
structure WellFormed (abi : Abi) (pgindex : Nat) (kernel : Kernel) : Prop where
  proper : Proper (child abi kernel) pgindex abi.depth
  owned : ∀ table, Reached (child abi kernel) pgindex abi.depth table →
    ∃ paddr ∈ kernel.frames.inUse, isFrame abi paddr = true ∧ table = pa2kva abi paddr

namespace WellFormed

variable {abi : Abi} {pgindex : Nat} {kernel : Kernel}

theorem isTable (wellFormed : WellFormed abi pgindex kernel)
    (reached : Reached (child abi kernel) pgindex abi.depth table) : IsTable abi table := by
  obtain ⟨paddr, -, frame, rfl⟩ := wellFormed.owned table reached
  exact isTable_pa2kva frame

theorem root_isTable (wellFormed : WellFormed abi pgindex kernel) : IsTable abi pgindex :=
  wellFormed.isTable ⟨[], zero_le _, rfl⟩

theorem leaf_reached (found : leaf abi pgindex kernel va = some table) :
    Reached (child abi kernel) pgindex abi.depth table :=
  ⟨dirPath abi va, le_of_eq (length_dirPath abi va), found⟩

theorem ne_leaf (wellFormed : WellFormed abi pgindex kernel) {path : List (Fin abi.nrPtentries)}
    {directory : Nat} (arrives : walk (child abi kernel) pgindex path = some directory)
    (short : path.length < abi.depth) (found : leaf abi pgindex kernel va = some table) :
    directory ≠ table := by
  rintro rfl
  have same := wellFormed.proper path (dirPath abi va) directory (by omega)
    (le_of_eq (length_dirPath abi va)) arrives found
  rw [same, length_dirPath] at short
  exact lt_irrefl _ short

end WellFormed

/-- A top directory in which every entry is zero is a tree of one table. -/
theorem wellFormed_of_empty (frame : isFrame abi paddr = true)
    (member : paddr ∈ kernel.frames.inUse)
    (empty : ∀ index : Fin abi.nrPtentries, kernel.word abi (pa2kva abi paddr) index = 0) :
    WellFormed abi (pa2kva abi paddr) kernel := by
  have onlyRoot : ∀ (path : List (Fin abi.nrPtentries)) table,
      walk (child abi kernel) (pa2kva abi paddr) path = some table →
        path = [] ∧ table = pa2kva abi paddr := by
    rintro (_ | ⟨index, rest⟩) table arrives
    · cases arrives
      exact ⟨rfl, rfl⟩
    · rw [walk, child_eq_none.mpr (empty index)] at arrives
      cases arrives
  constructor
  · intro first second table _ _ firstArrives secondArrives
    rw [(onlyRoot first table firstArrives).1, (onlyRoot second table secondArrives).1]
  · rintro table ⟨path, -, arrives⟩
    exact ⟨paddr, member, frame, (onlyRoot path table arrives).2⟩

theorem ptx_lt (abi : Abi) (va : Nat) : ptx abi va < abi.nrPtentries := levelIndex_lt abi _ va

/-! ### Storing into a leaf table -/

section Store

variable {abi : Abi} {pgindex va table index value : Nat} {kernel : Kernel}
  (wellFormed : WellFormed abi pgindex kernel) (found : leaf abi pgindex kernel va = some table)
  (bound : index < abi.nrPtentries)

include wellFormed found bound

theorem walk_setWord (path : List (Fin abi.nrPtentries)) (short : path.length ≤ abi.depth) :
    walk (child abi (kernel.setWord abi table index value)) pgindex path =
      walk (child abi kernel) pgindex path := by
  refine walk_congr (fun above directory shorter arrives place => ?_) path short
  have directoryTable := wellFormed.isTable ⟨above, by omega, arrives⟩
  have leafTable := wellFormed.isTable (WellFormed.leaf_reached found)
  have different := wellFormed.ne_leaf arrives shorter found
  rw [child, word_setWord_of_ne
    (directoryTable.slot_ne leafTable place.isLt bound (Or.inl different))]
  rfl

theorem leaf_setWord (page : Nat) :
    leaf abi pgindex (kernel.setWord abi table index value) page = leaf abi pgindex kernel page :=
  walk_setWord wellFormed found bound _ (le_of_eq (length_dirPath abi page))

theorem wellFormed_setWord : WellFormed abi pgindex (kernel.setWord abi table index value) := by
  have walks := @walk_setWord _ _ _ _ _ value _ wellFormed found bound
  constructor
  · intro first second node firstShort secondShort
    rw [walks first firstShort, walks second secondShort]
    exact wellFormed.proper first second node firstShort secondShort
  · rintro node ⟨path, short, arrives⟩
    rw [walks path short] at arrives
    exact wellFormed.owned node ⟨path, short, arrives⟩

omit bound in
/-- A store into the leaf table of an address changes the entry of its page and no other. -/
theorem entry_setWord {page : Nat} (fits : va < 2 ^ abi.addressBits)
    (pageFits : page < 2 ^ abi.addressBits) :
    entry abi pgindex (kernel.setWord abi table (ptx abi va) value) page =
      if page / pageSize = va / pageSize then value % abi.modulus
      else entry abi pgindex kernel page := by
  have leafSame := @leaf_setWord _ _ _ _ _ value _ wellFormed found (ptx_lt abi va) page
  by_cases here : page / pageSize = va / pageSize
  · obtain ⟨samePath, samePtx⟩ := dirPath_congr here
    rw [if_pos here]
    have foundHere : leaf abi pgindex kernel page = some table := by
      rw [leaf, samePath]
      exact found
    rw [entry_of_leaf (leafSame.trans foundHere), samePtx]
    exact word_setWord_same
  · rw [if_neg here]
    cases other : leaf abi pgindex kernel page with
    | none => rw [entry_of_no_leaf (leafSame.trans other), entry_of_no_leaf other]
    | some otherTable =>
      rw [entry_of_leaf (leafSame.trans other), entry_of_leaf other]
      refine word_setWord_of_ne ((wellFormed.isTable (WellFormed.leaf_reached other)).slot_ne
        (wellFormed.isTable (WellFormed.leaf_reached found)) (ptx_lt abi page) (ptx_lt abi va) ?_)
      by_contra both
      push Not at both
      obtain ⟨rfl, samePtx⟩ := both
      have samePath := wellFormed.proper (dirPath abi page) (dirPath abi va) otherTable
        (le_of_eq (length_dirPath abi page)) (le_of_eq (length_dirPath abi va)) other found
      exact here (page_of_indices pageFits fits samePath samePtx)

end Store

/-! ### Linking a fresh table -/

/-- What creating tables may do: tables stay where they are, and every entry is kept. -/
structure Extends (abi : Abi) (pgindex : Nat) (before after : Kernel) : Prop where
  wellFormed : WellFormed abi pgindex after
  walk_some : ∀ path : List (Fin abi.nrPtentries), path.length ≤ abi.depth → ∀ table,
    walk (child abi before) pgindex path = some table →
      walk (child abi after) pgindex path = some table
  entry_eq : ∀ page, entry abi pgindex after page = entry abi pgindex before page

theorem Extends.refl
    (wellFormed : WellFormed abi pgindex kernel) : Extends abi pgindex kernel kernel :=
  ⟨wellFormed, fun _ _ _ arrives => arrives, fun _ => rfl⟩

theorem Extends.trans {first second third : Kernel} (before : Extends abi pgindex first second)
    (after : Extends abi pgindex second third) : Extends abi pgindex first third :=
  ⟨after.wellFormed, fun path short table arrives =>
      after.walk_some path short table (before.walk_some path short table arrives),
    fun page => (after.entry_eq page).trans (before.entry_eq page)⟩

theorem Extends.leaf_some {before after : Kernel} (extension : Extends abi pgindex before after)
    (found : leaf abi pgindex before va = some table) : leaf abi pgindex after va = some table :=
  extension.walk_some _ (le_of_eq (length_dirPath abi va)) table found

/-- The effect of `__addpgdir`, and of the same code in the 32-bit build, on the kernel. -/
def linkTable (abi : Abi) (directory index paddr : Nat) (kernel : Kernel) : Kernel :=
  (kernel.clearPage (pa2kva abi paddr)).setWord abi directory index (pa2kva abi paddr)

section Link

variable {abi : Abi} {pgindex directory paddr : Nat} {kernel : Kernel} {frames : Pool}
  {path : List (Fin abi.nrPtentries)} {index : Fin abi.nrPtentries}
  (wellFormed : WellFormed abi pgindex kernel)
  (arrives : walk (child abi kernel) pgindex path = some directory)
  (short : path.length < abi.depth) (absent : kernel.word abi directory index = 0)
  (frame : isFrame abi paddr = true) (fresh : paddr ∉ kernel.frames.inUse)
  (granted : frames.inUse = paddr :: kernel.frames.inUse)

omit arrives short absent granted in
include wellFormed frame fresh in
theorem unreached_of_fresh {table : Nat}
    (reached : Reached (child abi kernel) pgindex abi.depth table) : table ≠ pa2kva abi paddr := by
  rintro rfl
  obtain ⟨other, member, otherFrame, same⟩ := wellFormed.owned _ reached
  exact fresh (pa2kva_injective frame otherFrame same ▸ member)

include wellFormed arrives short frame fresh in
omit absent granted in
/-- In the new table every entry is zero, in a table of the tree only one entry changes. -/
theorem child_linkTable :
    child abi (linkTable abi directory index paddr { kernel with frames }) directory index =
        some (pa2kva abi paddr) ∧
      (∀ place, (linkTable abi directory index paddr { kernel with frames }).word abi
        (pa2kva abi paddr) place.val = 0 ∧
        child abi (linkTable abi directory index paddr { kernel with frames }) (pa2kva abi paddr)
          place = none) ∧
      ∀ table (place : Fin abi.nrPtentries), Reached (child abi kernel) pgindex abi.depth table →
        (table ≠ directory ∨ place ≠ index) →
        (linkTable abi directory index paddr { kernel with frames }).word abi table place =
          kernel.word abi table place := by
  have newTable := isTable_pa2kva frame
  have reachedDirectory : Reached (child abi kernel) pgindex abi.depth directory :=
    ⟨path, by omega, arrives⟩
  have directoryTable := wellFormed.isTable reachedDirectory
  have different := unreached_of_fresh wellFormed frame fresh reachedDirectory
  have cleared : ∀ place : Fin abi.nrPtentries,
      (linkTable abi directory index paddr { kernel with frames }).word abi (pa2kva abi paddr)
        place = 0 := by
    intro place
    rw [linkTable, word_setWord_of_ne (newTable.slot_ne directoryTable place.isLt index.isLt
      (Or.inl (Ne.symm different)))]
    exact word_clearPage_same newTable place.isLt
  refine ⟨child_eq_some.mpr ⟨pos_iff_ne_zero.mp newTable.nonzero, ?_⟩,
    fun place => ⟨cleared place, child_eq_none.mpr (cleared place)⟩,
    fun table place reached elsewhere => ?_⟩
  · rw [linkTable, word_setWord_same]
    have fits := newTable.fits
    exact mod_eq_of_lt (by unfold pageSize at fits; omega)
  · have isTable := wellFormed.isTable reached
    rw [linkTable, word_setWord_of_ne (isTable.slot_ne directoryTable place.isLt index.isLt
      (elsewhere.imp_right fun no same => no (Fin.ext same))),
      word_clearPage_of_ne newTable isTable (unreached_of_fresh wellFormed frame fresh reached)
        place.isLt]
    rfl

include wellFormed arrives short absent frame fresh

/-- With a fresh table linked into an empty entry, one more path arrives, at that table. -/
theorem walk_linkTable (target : List (Fin abi.nrPtentries)) (within : target.length ≤ abi.depth) :
    walk (child abi (linkTable abi directory index paddr { kernel with frames })) pgindex target =
      if target = path ++ [index] then some (pa2kva abi paddr)
      else walk (child abi kernel) pgindex target := by
  obtain ⟨present, empty, others⟩ := child_linkTable wellFormed arrives short frame fresh
  refine walk_link wellFormed.proper arrives short (child_eq_none.mpr absent) present
    (fun place => (empty place).2) (fun node other reached elsewhere => ?_) target within
  rw [child, others node other reached elsewhere]
  rfl

include granted

/-- Linking a fresh table into an empty entry of a directory extends the tree. -/
theorem link_extends :
    Extends abi pgindex kernel (linkTable abi directory index paddr { kernel with frames }) ∧
      walk (child abi (linkTable abi directory index paddr { kernel with frames })) pgindex
        (path ++ [index]) = some (pa2kva abi paddr) := by
  obtain ⟨present, empty, others⟩ := child_linkTable wellFormed arrives short frame fresh
  have otherChild : ∀ node other, Reached (child abi kernel) pgindex abi.depth node →
      (node ≠ directory ∨ other ≠ index) →
      child abi (linkTable abi directory index paddr { kernel with frames }) node other =
        child abi kernel node other := by
    intro node other reached elsewhere
    rw [child, others node other reached elsewhere]
    rfl
  have noChild := child_eq_none.mpr absent
  have emptyChild := fun place => (empty place).2
  have unreached := fun table => @unreached_of_fresh _ _ _ _ wellFormed frame fresh table
  have walks := @walk_linkTable abi pgindex directory paddr kernel frames path index wellFormed
    arrives short absent frame fresh
  have notThere : ∀ target table, walk (child abi kernel) pgindex target = some table →
      target ≠ path ++ [index] := by
    rintro target table reached rfl
    rw [walk_concat, arrives] at reached
    rw [show (some directory).bind (fun next => child abi kernel next index) = none from noChild]
      at reached
    cases reached
  refine ⟨⟨⟨proper_link wellFormed.proper arrives short noChild unreached present emptyChild
    otherChild, fun table reached => ?_⟩, fun target within table reached => ?_, fun page => ?_⟩,
    ?_⟩
  · have inUse : (linkTable abi directory index paddr { kernel with frames }).frames.inUse =
        paddr :: kernel.frames.inUse := granted
    rw [inUse]
    rcases (reached_link wellFormed.proper arrives short noChild present emptyChild
      otherChild).mp reached with old | rfl
    · obtain ⟨owner, member, ownerFrame, same⟩ := wellFormed.owned table old
      exact ⟨owner, mem_cons_of_mem _ member, ownerFrame, same⟩
    · exact ⟨paddr, mem_cons_self, frame, rfl⟩
  · rw [walks target within, if_neg (notThere target table reached)]
    exact reached
  · have leafAfter := walks (dirPath abi page) (le_of_eq (length_dirPath abi page))
    by_cases here : dirPath abi page = path ++ [index]
    · rw [if_pos here] at leafAfter
      have missing : leaf abi pgindex kernel page = none := by
        cases found : leaf abi pgindex kernel page with
        | none => rfl
        | some table => exact absurd here (notThere _ table found)
      rw [entry_of_leaf leafAfter, entry_of_no_leaf missing]
      exact (empty ⟨ptx abi page, ptx_lt abi page⟩).1
    · rw [if_neg here] at leafAfter
      cases found : leaf abi pgindex kernel page with
      | none => rw [entry_of_no_leaf (leafAfter.trans found), entry_of_no_leaf found]
      | some table =>
        rw [entry_of_leaf (leafAfter.trans found), entry_of_leaf found]
        exact others table ⟨ptx abi page, ptx_lt abi page⟩ (WellFormed.leaf_reached found)
          (Or.inl (Ne.symm (wellFormed.ne_leaf arrives short found)))
  · rw [walks _ (by simpa using short), if_pos rfl]

end Link

/-! ### Lookups -/

theorem leaf_ilp32 (pgindex va : Nat) (kernel : Kernel) :
    leaf .ilp32 pgindex kernel va = if kernel.word .ilp32 pgindex (pdx va) = 0 then none
      else some (kernel.word .ilp32 pgindex (pdx va)) := by
  exact walk_singleton pgindex _

/-- The three entries `__getpagedesc` reads in the 64-bit build. -/
theorem leaf_lp64 (pgindex va : Nat) (kernel : Kernel) :
    leaf .lp64 pgindex kernel va =
      (child .lp64 kernel pgindex ⟨pgx va, levelIndex_lt _ _ va⟩).bind fun pud =>
        (child .lp64 kernel pud ⟨pux va, levelIndex_lt _ _ va⟩).bind fun pmd =>
          child .lp64 kernel pmd ⟨pmx va, levelIndex_lt _ _ va⟩ := by
  unfold leaf
  simp only [dirPath, Abi.dirShifts, map_cons, map_nil, walk, bind_fun_some]
  rfl

/-- Without `create`, `__getpagedesc` finds the leaf table of the address exactly when there
is one, and changes nothing. -/
theorem getpagedesc_find (abi : Abi) (pgindex va : Nat) (desc : PageDesc) (kernel : Kernel) :
    (leaf abi pgindex kernel va = none ∧
      ∃ found, getpagedesc abi pgindex va false desc kernel = (-enoent, found, kernel)) ∨
    ∃ found, leaf abi pgindex kernel va = some found.ptev ∧ found.ptx = ptx abi va ∧
      getpagedesc abi pgindex va false desc kernel = (0, found, kernel) := by
  cases abi with
  | ilp32 =>
    rw [leaf_ilp32]
    show _ ∨ ∃ found, _ ∧ _ ∧ getpagedesc32 pgindex va false desc kernel = _
    unfold getpagedesc getpagedesc32
    by_cases zero : kernel.word .ilp32 pgindex (pdx va) = 0
    · exact Or.inl ⟨if_pos zero, desc, by simp [zero]⟩
    · rw [if_neg zero, if_pos zero]
      exact Or.inr ⟨_, rfl, rfl, rfl⟩
  | lp64 =>
    rw [leaf_lp64]
    simp only [getpagedesc, getpagedesc64, Bool.not_false, if_true, findpagedesc64]
    by_cases noPud : kernel.word .lp64 pgindex (pgx va) = 0
    · rw [if_pos noPud, child, if_pos noPud]
      exact Or.inl ⟨rfl, _, rfl⟩
    rw [if_neg noPud, child, if_neg noPud, bind_some]
    by_cases noPmd : kernel.word .lp64 (kernel.word .lp64 pgindex (pgx va)) (pux va) = 0
    · rw [if_pos noPmd, child, if_pos noPmd]
      exact Or.inl ⟨rfl, _, rfl⟩
    rw [if_neg noPmd, child, if_neg noPmd, bind_some]
    by_cases noPte : kernel.word .lp64
        (kernel.word .lp64 (kernel.word .lp64 pgindex (pgx va)) (pux va)) (pmx va) = 0
    · rw [if_pos noPte, child, if_pos noPte]
      exact Or.inl ⟨rfl, _, rfl⟩
    rw [if_neg noPte, child, if_neg noPte]
    exact Or.inr ⟨_, rfl, rfl, rfl⟩

/-! ### Creating the leaf table -/

/-- `pgalloc` hands out a page that is not in use, or fails. -/
theorem pgalloc_cases (abi : Abi) (kernel : Kernel) :
    (∃ paddr frames, isFrame abi paddr = true ∧ paddr ∉ kernel.frames.inUse ∧
      frames.inUse = paddr :: kernel.frames.inUse ∧
      pgalloc abi kernel = (some paddr, { kernel with frames })) ∨
    ∃ frames, pgalloc abi kernel = (none, { kernel with frames }) := by
  rcases kernel.frames.take_cases (isFrame abi) with
    ⟨paddr, rest, frame, fresh, -, taken⟩ | ⟨rest, refused⟩
  · refine Or.inl ⟨paddr, (kernel.frames.take (isFrame abi)).2, frame, fresh, ?_, ?_⟩
    · rw [taken]
    · rw [pgalloc, taken]
  · exact Or.inr ⟨_, by rw [pgalloc, refused]⟩

/-- One level of the descent in the 64-bit build. -/
theorem descend_spec {pgindex directory : Nat} {kernel : Kernel}
    {path : List (Fin Abi.lp64.nrPtentries)} {index : Fin Abi.lp64.nrPtentries}
    (wellFormed : WellFormed .lp64 pgindex kernel)
    (arrives : walk (child .lp64 kernel) pgindex path = some directory)
    (short : path.length < 3) :
    (∃ after, descend directory index kernel = (none, after)) ∨
    ∃ next after, descend directory index kernel = (some next, after) ∧
      Extends .lp64 pgindex kernel after ∧
      walk (child .lp64 after) pgindex (path ++ [index]) = some next := by
  unfold descend
  by_cases absent : kernel.word .lp64 directory index = 0
  · rw [if_pos absent]
    unfold addpgdir
    rcases pgalloc_cases .lp64 kernel with
      ⟨paddr, frames, frame, fresh, granted, taken⟩ | ⟨frames, refused⟩
    · rw [taken]
      obtain ⟨extension, linked⟩ := link_extends wellFormed arrives short absent frame fresh granted
      have kept := extension.walk_some path (le_of_lt short) directory arrives
      refine Or.inr ⟨_, _, rfl, extension, linked.trans (congrArg some ?_)⟩
      rw [walk_concat, kept] at linked
      exact (child_eq_some.mp linked).2.symm
    · rw [refused]
      exact Or.inl ⟨_, rfl⟩
  · rw [if_neg absent]
    refine Or.inr ⟨_, kernel, rfl, Extends.refl wellFormed, ?_⟩
    rw [walk_concat, arrives]
    exact child_eq_some.mpr ⟨absent, rfl⟩

/-- With `create`, `__getpagedesc` fails with `-ENOMEM` or extends the tree up to the leaf
table of the address. -/
theorem getpagedesc_create (wellFormed : WellFormed abi pgindex kernel) (va : Nat)
    (desc : PageDesc) :
    (∃ found after, getpagedesc abi pgindex va true desc kernel = (-enomem, found, after)) ∨
    ∃ found after, getpagedesc abi pgindex va true desc kernel = (0, found, after) ∧
      Extends abi pgindex kernel after ∧ leaf abi pgindex after va = some found.ptev ∧
      found.ptx = ptx abi va := by
  cases abi with
  | ilp32 =>
    show (∃ found after, getpagedesc32 pgindex va true desc kernel = _) ∨
      ∃ found after, getpagedesc32 pgindex va true desc kernel = _ ∧ _
    unfold getpagedesc32
    by_cases absent : kernel.word .ilp32 pgindex (pdx va) = 0
    · rw [if_neg (not_not.mpr absent)]
      rcases pgalloc_cases .ilp32 kernel with
        ⟨paddr, frames, frame, fresh, granted, taken⟩ | ⟨frames, refused⟩
      · rw [taken]
        obtain ⟨extension, linked⟩ := @link_extends _ _ _ _ _ _ []
          ⟨pdx va, levelIndex_lt _ _ va⟩ wellFormed rfl zero_lt_one absent frame fresh granted
        exact Or.inr ⟨_, _, rfl, extension, linked, rfl⟩
      · rw [refused]
        exact Or.inl ⟨_, _, rfl⟩
    · rw [if_pos absent]
      refine Or.inr ⟨_, kernel, rfl, Extends.refl wellFormed, ?_, rfl⟩
      rw [leaf_ilp32, if_neg absent]
  | lp64 =>
    show (∃ found after, getpagedesc64 pgindex va true desc kernel = _) ∨
      ∃ found after, getpagedesc64 pgindex va true desc kernel = _ ∧ _
    simp only [getpagedesc64, Bool.not_true, Bool.false_eq_true, if_false]
    rcases @descend_spec _ _ _ [] ⟨pgx va, levelIndex_lt _ _ va⟩ wellFormed rfl
      (by decide) with ⟨after, failed⟩ | ⟨pud, first, done, firstExtends, toPud⟩
    · replace failed : descend pgindex (pgx va) kernel = _ := failed
      simp only [failed]
      exact Or.inl ⟨_, _, rfl⟩
    replace done : descend pgindex (pgx va) kernel = _ := done
    simp only [done]
    rcases @descend_spec _ _ _ _ ⟨pux va, levelIndex_lt _ _ va⟩
      firstExtends.wellFormed toPud (by simp) with
      ⟨after, failed⟩ | ⟨pmd, second, done, secondExtends, toPmd⟩
    · replace failed : descend pud (pux va) first = _ := failed
      simp only [failed]
      exact Or.inl ⟨_, _, rfl⟩
    replace done : descend pud (pux va) first = _ := done
    simp only [done]
    rcases @descend_spec _ _ _ _ ⟨pmx va, levelIndex_lt _ _ va⟩
      secondExtends.wellFormed toPmd (by simp) with
      ⟨after, failed⟩ | ⟨pte, third, done, thirdExtends, toPte⟩
    · replace failed : descend pmd (pmx va) second = _ := failed
      simp only [failed]
      exact Or.inl ⟨_, _, rfl⟩
    replace done : descend pmd (pmx va) second = _ := done
    simp only [done]
    exact Or.inr ⟨_, third, rfl, (firstExtends.trans secondExtends).trans thirdExtends, toPte, rfl⟩

end AIMv6
