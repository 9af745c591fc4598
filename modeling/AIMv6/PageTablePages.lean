/-
This file proves what `map_pages` and `unmap_pages` do in the 32-bit build when they are
called for one page, which is how the user address spaces call them.

The two-level tree is flat: a leaf table is an entry of the page directory. The code keeps no
empty leaf table (`Populated`); only because of that is the clean-up after a failed call,
which looks at other tables as well, without effect. Mapping a page either leaves the tables
as they were or stores one entry, in a leaf table that may be new; unmapping a page clears
its entry and gives the leaf table back when that was the last one.
-/

import AIMv6.PageTableMap

namespace AIMv6

open List Kernel Radix Nat

variable {pgindex index va paddr table : Nat} {kernel : Kernel}

/-! ### The flat tree -/

/-- The leaf table of one entry of the page directory; zero when there is none. -/
def pde (pgindex : Nat) (kernel : Kernel) (index : Nat) : Nat := kernel.word .ilp32 pgindex index

/-- No leaf table is empty. -/
def Populated (pgindex : Nat) (kernel : Kernel) : Prop :=
  ∀ index < 1024, pde pgindex kernel index ≠ 0 →
    ∃ place < 1024, kernel.word .ilp32 (pde pgindex kernel index) place ≠ 0

theorem pdx_lt (va : Nat) : pdx va < 1024 := levelIndex_lt .ilp32 pdxShift va

theorem pdx_shift (bound : index < 1024) : pdx (index * 2 ^ 22) = index := by
  rw [pdx, levelIndex_eq]
  show index * 2 ^ 22 / 2 ^ 22 % 1024 = index
  omega

theorem leaf_eq_some :
    leaf .ilp32 pgindex kernel va = some table ↔
      table ≠ 0 ∧ pde pgindex kernel (pdx va) = table := by
  rw [leaf_ilp32]
  exact @child_eq_some .ilp32 _ _ _ ⟨pdx va, pdx_lt va⟩

theorem leaf_eq_none : leaf .ilp32 pgindex kernel va = none ↔ pde pgindex kernel (pdx va) = 0 := by
  rw [leaf_ilp32]
  exact @child_eq_none .ilp32 _ _ ⟨pdx va, pdx_lt va⟩

theorem tableEmpty_iff :
    tableEmpty .ilp32 kernel table = true ↔ ∀ place < 1024, kernel.word .ilp32 table place = 0 := by
  rw [tableEmpty, all_eq_true]
  constructor
  · intro all place bound
    exact beq_iff_eq.mp (all place (mem_range.mpr bound))
  · intro all place member
    exact beq_iff_eq.mpr (all place (mem_range.mp member))

/-- The tables of the 32-bit build, entry by entry. -/
theorem wellFormed_ilp32_iff :
    WellFormed .ilp32 pgindex kernel ↔
      (∃ paddr ∈ kernel.frames.inUse, isFrame .ilp32 paddr = true ∧ pgindex = pa2kva .ilp32 paddr) ∧
      (∀ index < 1024, pde pgindex kernel index ≠ 0 →
        pde pgindex kernel index ≠ pgindex ∧
        (∀ other < 1024, pde pgindex kernel other = pde pgindex kernel index → other = index) ∧
        ∃ paddr ∈ kernel.frames.inUse, isFrame .ilp32 paddr = true ∧
          pde pgindex kernel index = pa2kva .ilp32 paddr) := by
  have arrives : ∀ (index : Fin Abi.ilp32.nrPtentries), pde pgindex kernel index ≠ 0 →
      walk (child .ilp32 kernel) pgindex [index] = some (pde pgindex kernel index) := by
    intro index present
    rw [walk_singleton]
    exact child_eq_some.mpr ⟨present, rfl⟩
  constructor
  · intro wellFormed
    refine ⟨wellFormed.owned pgindex ⟨[], zero_le _, rfl⟩, fun index bound present => ?_⟩
    have here := arrives ⟨index, bound⟩ present
    refine ⟨fun same => ?_, fun other otherBound same => ?_, wellFormed.owned _ ⟨_, le_rfl, here⟩⟩
    · have paths := wellFormed.proper [] [⟨index, bound⟩] pgindex (by decide) le_rfl rfl
        (here.trans (congrArg some same))
      cases paths
    · have there := arrives ⟨other, otherBound⟩ (by show pde pgindex kernel other ≠ 0; rwa [same])
      have paths := wellFormed.proper [⟨other, otherBound⟩] [⟨index, bound⟩] _ le_rfl le_rfl there
        (here.trans (congrArg some same.symm))
      exact congrArg Fin.val (List.cons.inj paths).1
  · rintro ⟨root, leaves⟩
    have reached : ∀ path table, path.length ≤ 1 →
        walk (child .ilp32 kernel) pgindex path = some table →
        (path = [] ∧ table = pgindex) ∨ ∃ index : Fin Abi.ilp32.nrPtentries,
          path = [index] ∧ pde pgindex kernel index ≠ 0 ∧ table = pde pgindex kernel index := by
      intro path table short toTable
      rcases path with _ | ⟨index, _ | ⟨second, rest⟩⟩
      · cases toTable
        exact Or.inl ⟨rfl, rfl⟩
      · rw [walk_singleton] at toTable
        obtain ⟨present, same⟩ := child_eq_some.mp toTable
        have equal : pde pgindex kernel index = table := same
        exact Or.inr ⟨index, rfl, by rwa [equal], equal.symm⟩
      · simp at short
    constructor
    · intro first second table firstShort secondShort firstTo secondTo
      rcases reached first table firstShort firstTo with ⟨rfl, rfl⟩ | ⟨index, rfl, present, rfl⟩ <;>
        rcases reached second _ secondShort secondTo with ⟨rfl, same⟩ | ⟨other, rfl, there, same⟩
      · rfl
      · exact absurd same.symm (leaves other other.isLt there).1
      · exact absurd same (leaves index index.isLt present).1
      · rw [Fin.ext ((leaves other other.isLt there).2.1 index index.isLt same)]
    · rintro table ⟨path, short, toTable⟩
      rcases reached path table short toTable with ⟨-, rfl⟩ | ⟨index, -, present, rfl⟩
      · exact root
      · exact (leaves index index.isLt present).2.2

/-! ### Calls that leave the tables as they were -/

/-- The tables, and the pages in use, are the same. -/
structure Unchanged (pgindex : Nat) (before after : Kernel) : Prop where
  directory : ∀ index < 1024, pde pgindex after index = pde pgindex before index
  leaves : ∀ index < 1024, pde pgindex before index ≠ 0 → ∀ place < 1024,
    after.word .ilp32 (pde pgindex before index) place =
      before.word .ilp32 (pde pgindex before index) place
  inUse : after.frames.inUse = before.frames.inUse
  stray : after.frames.stray = before.frames.stray
  junk : after.junk = before.junk

namespace Unchanged

variable {before middle after : Kernel}

theorem refl (kernel : Kernel) : Unchanged pgindex kernel kernel :=
  ⟨fun _ _ => rfl, fun _ _ _ _ _ => rfl, rfl, rfl, rfl⟩

theorem trans (first : Unchanged pgindex before middle) (second : Unchanged pgindex middle after) :
    Unchanged pgindex before after := by
  refine ⟨fun index bound => (second.directory index bound).trans (first.directory index bound),
    fun index bound present place placeBound => ?_, second.inUse.trans first.inUse,
    second.stray.trans first.stray, second.junk.trans first.junk⟩
  have same := first.directory index bound
  have later := second.leaves index bound (by rwa [same]) place placeBound
  rw [same] at later
  exact later.trans (first.leaves index bound present place placeBound)

section Entries

variable (unchanged : Unchanged pgindex before after)

include unchanged

theorem leaf_eq (va : Nat) : leaf .ilp32 pgindex after va = leaf .ilp32 pgindex before va := by
  have same := unchanged.directory (pdx va) (pdx_lt va)
  unfold pde at same
  rw [leaf_ilp32, leaf_ilp32, same]

theorem entry_eq (va : Nat) : entry .ilp32 pgindex after va = entry .ilp32 pgindex before va := by
  have same := unchanged.leaf_eq va
  cases found : leaf .ilp32 pgindex before va with
  | none => rw [entry_of_no_leaf found, entry_of_no_leaf (same.trans found)]
  | some table =>
    rw [entry_of_leaf found, entry_of_leaf (same.trans found)]
    obtain ⟨nonzero, here⟩ := leaf_eq_some.mp found
    rw [← here]
    exact unchanged.leaves (pdx va) (pdx_lt va) (by rwa [here]) (ptx .ilp32 va) (ptx_lt .ilp32 va)

theorem wellFormed (was : WellFormed .ilp32 pgindex before) : WellFormed .ilp32 pgindex after := by
  obtain ⟨root, leaves⟩ := wellFormed_ilp32_iff.mp was
  refine wellFormed_ilp32_iff.mpr ⟨unchanged.inUse ▸ root, fun index bound present => ?_⟩
  rw [unchanged.directory index bound, unchanged.inUse] at *
  obtain ⟨notRoot, distinct, owned⟩ := leaves index bound present
  exact ⟨notRoot, fun other otherBound same => distinct other otherBound
    ((unchanged.directory other otherBound).symm.trans same), owned⟩

theorem populated (was : Populated pgindex before) : Populated pgindex after := by
  intro index bound present
  rw [unchanged.directory index bound] at present ⊢
  obtain ⟨place, placeBound, nonzero⟩ := was index bound present
  exact ⟨place, placeBound, by rwa [unchanged.leaves index bound present place placeBound]⟩

end Entries

end Unchanged

variable {place page granted : Nat} {frames : Pool}

section ClearEntry

variable (wellFormed : WellFormed .ilp32 pgindex kernel) (bound : index < 1024)

include wellFormed bound

theorem pde_clear {other : Nat} (otherBound : other < 1024) :
    pde pgindex (kernel.setWord .ilp32 pgindex index 0) other =
      if other = index then 0 else pde pgindex kernel other := by
  have rootTable := wellFormed.root_isTable
  split
  · rename_i same
    subst same
    exact word_setWord_same
  · rename_i different
    exact word_setWord_of_ne (rootTable.slot_ne rootTable otherBound bound (Or.inr different))

theorem word_clear {other : Nat} (otherBound : other < 1024)
    (present : pde pgindex kernel other ≠ 0) (placeBound : place < 1024) :
    (kernel.setWord .ilp32 pgindex index 0).word .ilp32 (pde pgindex kernel other) place =
      kernel.word .ilp32 (pde pgindex kernel other) place := by
  obtain ⟨notRoot, -, paddr, -, frame, same⟩ :=
    (wellFormed_ilp32_iff.mp wellFormed).2 other otherBound present
  exact word_setWord_of_ne ((same ▸ isTable_pa2kva frame).slot_ne wellFormed.root_isTable placeBound
    bound (Or.inl notRoot))

/-- The table at the entry is no longer one of the tables, and the others are. -/
theorem wellFormed_clear : WellFormed .ilp32 pgindex (kernel.setWord .ilp32 pgindex index 0) := by
  have pdes := fun other otherBound => @pde_clear _ _ _ wellFormed bound other otherBound
  obtain ⟨root, leaves⟩ := wellFormed_ilp32_iff.mp wellFormed
  refine wellFormed_ilp32_iff.mpr ⟨root, fun other otherBound there => ?_⟩
  have different : other ≠ index := by
    rintro rfl
    rw [pdes other otherBound, if_pos rfl] at there
    exact there rfl
  rw [pdes other otherBound, if_neg different] at there ⊢
  obtain ⟨notRoot, distinct, owned⟩ := leaves other otherBound there
  refine ⟨notRoot, fun third thirdBound same => ?_, owned⟩
  rw [pdes third thirdBound] at same
  split at same
  · exact absurd same.symm there
  · exact distinct third thirdBound same

/-- No page loses its entry when the leaf table is empty. -/
theorem entry_clear
    (empty : ∀ page < 2 ^ 32, pdx page = index → entry .ilp32 pgindex kernel page = 0) {page : Nat}
    (inside : page < 2 ^ 32) :
    entry .ilp32 pgindex (kernel.setWord .ilp32 pgindex index 0) page =
      entry .ilp32 pgindex kernel page := by
  have pdeAfter := pde_clear wellFormed bound (pdx_lt page)
  by_cases same : pdx page = index
  · rw [empty page inside same]
    rw [if_pos same] at pdeAfter
    exact entry_of_no_leaf (leaf_eq_none.mpr pdeAfter)
  rw [if_neg same] at pdeAfter
  by_cases none : pde pgindex kernel (pdx page) = 0
  · rw [entry_of_no_leaf (leaf_eq_none.mpr none),
      entry_of_no_leaf (leaf_eq_none.mpr (pdeAfter.trans none))]
  have found : leaf .ilp32 pgindex kernel page = some (pde pgindex kernel (pdx page)) :=
    leaf_eq_some.mpr ⟨none, rfl⟩
  rw [entry_of_leaf found, entry_of_leaf (leaf_eq_some.mpr ⟨none, pdeAfter⟩)]
  exact word_clear wellFormed bound (pdx_lt page) none (ptx_lt .ilp32 page)

end ClearEntry

/-- Storing zero into an entry of the directory that is zero changes nothing. -/
theorem unchanged_setWord_zero (wellFormed : WellFormed .ilp32 pgindex kernel)
    (bound : index < 1024) (absent : pde pgindex kernel index = 0) :
    Unchanged pgindex kernel (kernel.setWord .ilp32 pgindex index 0) := by
  refine ⟨fun other otherBound => (pde_clear wellFormed bound otherBound).trans ?_,
    fun other otherBound present place => word_clear wellFormed bound otherBound present, rfl, rfl,
    rfl⟩
  split
  · rename_i same
    rw [same, absent]
  · rfl

theorem pgfree_null (kernel : Kernel) : kernel.pgfree (kva2pa .ilp32 0) = kernel :=
  if_neg (show ¬ isAligned (kva2pa .ilp32 0) pageSize = true by decide)

/-- One pass over a directory entry without an empty leaf table. -/
theorem unchanged_freeLeafTable (wellFormed : WellFormed .ilp32 pgindex kernel)
    (bound : index < 1024)
    (used : pde pgindex kernel index ≠ 0 →
      ∃ place < 1024, kernel.word .ilp32 (pde pgindex kernel index) place ≠ 0) :
    Unchanged pgindex kernel (freeLeafTable pgindex index kernel) := by
  unfold freeLeafTable
  split
  · rename_i empty
    have absent : pde pgindex kernel index = 0 := by
      by_contra present
      obtain ⟨place, placeBound, nonzero⟩ := used present
      exact nonzero (tableEmpty_iff.mp empty place placeBound)
    have null : kernel.word .ilp32 pgindex index = 0 := absent
    rw [null, pgfree_null]
    exact unchanged_setWord_zero wellFormed bound absent
  · exact Unchanged.refl kernel

theorem unchanged_freeLeafTables (indices : List Nat)
    (wellFormed : WellFormed .ilp32 pgindex kernel) (populated : Populated pgindex kernel)
    (bounds : ∀ index ∈ indices, index < 1024) :
    Unchanged pgindex kernel
      (indices.foldl (fun kernel index => freeLeafTable pgindex index kernel) kernel) := by
  induction indices generalizing kernel with
  | nil => exact Unchanged.refl kernel
  | cons index rest inductionHypothesis =>
    have bound := bounds index mem_cons_self
    have first := unchanged_freeLeafTable wellFormed bound (populated index bound)
    have later := inductionHypothesis (first.wellFormed wellFormed) (first.populated populated)
      fun other member => bounds other (mem_cons_of_mem _ member)
    rw [foldl_cons]
    exact first.trans later

/-- The clean-up of the intermediate tables does nothing when no leaf table is empty. -/
theorem unchanged_freeIntermediate {vaddr size : Nat}
    (wellFormed : WellFormed .ilp32 pgindex kernel) (populated : Populated pgindex kernel) :
    Unchanged pgindex kernel (freeIntermediate .ilp32 pgindex vaddr size kernel) := by
  refine unchanged_freeLeafTables _ wellFormed populated fun index member => ?_
  have last := pdx_lt (wrapSub (2 ^ 32) ((vaddr + size) % 2 ^ 32) pageSize)
  have range := mem_range'_1.mp member
  omega

/-! ### The pages of a request -/

/-- The address of a page of a request. -/
def pageAt (addr page : Nat) : Nat := (addr + page * pageSize) % 2 ^ 32

theorem pageAt_lt (addr page : Nat) : pageAt addr page < 2 ^ 32 := mod_lt _ (by decide)

theorem pageAt_zero {addr : Nat} (inside : addr < 2 ^ 32) : pageAt addr 0 = addr := by
  rw [pageAt, zero_mul, add_zero, mod_eq_of_lt inside]

theorem pageAt_next (addr page : Nat) :
    pageAt ((addr + pageSize) % Abi.ilp32.modulus) page = pageAt addr (page + 1) := by
  rw [pageAt, pageAt, show Abi.ilp32.modulus = 2 ^ 32 from rfl, mod_add_mod, succ_mul,
    add_assoc, add_comm pageSize]

theorem pageAt_succ (addr page : Nat) :
    (pageAt addr page + pageSize) % Abi.ilp32.modulus = pageAt addr (page + 1) := by
  rw [pageAt, pageAt, show Abi.ilp32.modulus = 2 ^ 32 from rfl, mod_add_mod, succ_mul, add_assoc]

/-! ### Mapping one page -/

theorem entry_of_pde (present : pde pgindex kernel (pdx page) ≠ 0) :
    entry .ilp32 pgindex kernel page =
      kernel.word .ilp32 (pde pgindex kernel (pdx page)) (ptx .ilp32 page) :=
  entry_of_leaf (leaf_eq_some.mpr ⟨present, rfl⟩)

theorem entry_of_same_page (same : page / pageSize = va / pageSize) :
    entry .ilp32 pgindex kernel page = entry .ilp32 pgindex kernel va := by
  obtain ⟨path, place⟩ := dirPath_congr same
  rw [entry, entry, leaf, leaf, path, place]

theorem exists_page (bound : index < 1024) (placeBound : place < 1024) :
    ∃ page < 2 ^ 32, pdx page = index ∧ ptx .ilp32 page = place := by
  refine ⟨index * 2 ^ 22 + place * 2 ^ 12, by omega, ?_, ?_⟩
  · rw [pdx, levelIndex_eq]
    show (index * 2 ^ 22 + place * 2 ^ 12) / 2 ^ 22 % 1024 = index
    omega
  · rw [ptx, levelIndex_eq]
    show (index * 2 ^ 22 + place * 2 ^ 12) / 2 ^ 12 % 1024 = place
    omega

/-- A leaf table that is not empty has the entry of some page. -/
theorem populated_iff :
    Populated pgindex kernel ↔
      ∀ index < 1024, pde pgindex kernel index ≠ 0 →
        ∃ page < 2 ^ 32, pdx page = index ∧ entry .ilp32 pgindex kernel page ≠ 0 := by
  constructor
  · intro populated index bound present
    obtain ⟨place, placeBound, nonzero⟩ := populated index bound present
    obtain ⟨page, inside, rfl, rfl⟩ := exists_page bound placeBound
    exact ⟨page, inside, rfl, by rwa [entry_of_pde present]⟩
  · intro pages index bound present
    obtain ⟨page, -, rfl, nonzero⟩ := pages index bound present
    rw [entry_of_pde present] at nonzero
    exact ⟨ptx .ilp32 page, ptx_lt .ilp32 page, nonzero⟩

/-- The mode bits of an entry are in its low bits. -/
theorem pgtablePerm_or_low (paddr flags : Nat) : (paddr ||| pgtablePerm flags) % 4096 ≠ 0 := by
  intro zero
  have bit : ((paddr ||| pgtablePerm flags) % 2 ^ 12).testBit 7 = (0 : Nat).testBit 7 :=
    congrArg (Nat.testBit · 7) zero
  have valid : (pgtablePerm flags).testBit 7 = true := by
    unfold pgtablePerm machPgtablePerm
    split <;> decide
  rw [testBit_mod_two_pow, testBit_or, valid, Bool.or_true, zero_testBit] at bit
  cases bit

theorem pgtablePerm_or_ne_zero (paddr flags : Nat) : paddr ||| pgtablePerm flags ≠ 0 := by
  intro zero
  exact pgtablePerm_or_low paddr flags (by rw [zero])

/-- A physical address that an entry can hold. -/
def Mappable (paddr : Nat) : Prop := paddr % pageSize = 0 ∧ paddr < 2 ^ 32

theorem mappable_of_frame (frame : isFrame .ilp32 paddr = true) : Mappable paddr := by
  obtain ⟨aligned, below⟩ := isFrame_iff.mp frame
  have small : paddr < 0x40000000 := below
  exact ⟨aligned, by omega⟩

/-- How one page is mapped: the entry is stored, and the leaf table may be new. -/
structure Mapped (pgindex va pte : Nat) (before after : Kernel) : Prop where
  wellFormed : WellFormed .ilp32 pgindex after
  populated : Populated pgindex after
  absent : entry .ilp32 pgindex before va = 0
  entries : ∀ page < 2 ^ 32, entry .ilp32 pgindex after page =
    if page / pageSize = va / pageSize then pte else entry .ilp32 pgindex before page
  tables :
    ((∀ index < 1024, pde pgindex after index = pde pgindex before index) ∧
      pde pgindex before (pdx va) ≠ 0 ∧ after.frames = before.frames) ∨
    ∃ paddr, (pgalloc .ilp32 before).1 = some paddr ∧ isFrame .ilp32 paddr = true ∧
      paddr ∉ before.frames.inUse ∧ pde pgindex before (pdx va) = 0 ∧
      (∀ index < 1024, pde pgindex after index =
        if index = pdx va then pa2kva .ilp32 paddr else pde pgindex before index) ∧
      after.frames = (pgalloc .ilp32 before).2.frames ∧
      after.frames.inUse = paddr :: before.frames.inUse
  junk : after.junk = before.junk

variable {flags : Nat} {desc : PageDesc}

/-- `map_pages` for one page, with the first pass and the second pass written out. -/
theorem mapPages_onePage (aligned : va % pageSize = 0) (mappable : Mappable paddr) :
    mapPages .ilp32 pgindex va paddr pageSize flags kernel =
      match getpagedesc .ilp32 pgindex va true kernel.freshDesc kernel with
      | (retcode, desc, kernel) =>
        if retcode = -enomem then
          (retcode, freeIntermediate .ilp32 pgindex va (wrapSub Abi.ilp32.modulus va va) kernel)
        else if kernel.word .ilp32 desc.ptev desc.ptx ≠ 0 then
          (-eexist, freeIntermediate .ilp32 pgindex va (wrapSub Abi.ilp32.modulus va va) kernel)
        else
          (0, mapSecond .ilp32 pgindex (pgtablePerm flags) 1 paddr va desc kernel) := by
  obtain ⟨frameAligned, small⟩ := mappable
  have alignedBits : isAligned paddr pageSize = true ∧ isAligned pageSize pageSize = true ∧
      isAligned va pageSize = true := by
    refine ⟨?_, by decide, ?_⟩ <;> rw [show pageSize = 2 ^ 12 from rfl, isAligned_two_pow]
    · exact frameAligned
    · exact aligned
  have count : ((paddr + pageSize) % 2 ^ 64 - paddr) / pageSize = 1 := by
    rw [mod_eq_of_lt (by unfold pageSize; omega), Nat.add_sub_cancel_left]
    decide
  unfold mapPages
  rw [alignedBits.1, alignedBits.2.1, alignedBits.2.2]
  simp only [Bool.not_true, Bool.or_self, Bool.false_eq_true, if_false, count, mapFirst]
  rcases getpagedesc .ilp32 pgindex va true kernel.freshDesc kernel with ⟨retcode, desc, middle⟩
  by_cases noMemory : retcode = -enomem
  · simp only [noMemory, if_true, if_neg (show ¬ -enomem = (0 : Int) by decide)]
  · simp only [if_neg noMemory]
    by_cases taken : middle.word .ilp32 desc.ptev desc.ptx ≠ 0
    · simp only [if_pos taken, if_neg (show ¬ -eexist = (0 : Int) by decide)]
    · simp only [if_neg taken, if_true]

theorem pde_eq_leaf (bound : index < 1024) :
    pde pgindex kernel index = (leaf .ilp32 pgindex kernel (index * 2 ^ 22)).getD 0 := by
  rw [leaf_ilp32, pdx_shift bound]
  split
  · assumption
  · rfl

theorem mapSecond_one {abi : Abi} {perm : Nat} (found : leaf abi pgindex kernel va = some table) :
    mapSecond abi pgindex perm 1 paddr va desc kernel =
      kernel.setWord abi table (ptx abi va) (paddr ||| perm) := by
  rcases getpagedesc_find abi pgindex va desc kernel with ⟨missing, -⟩ | ⟨made, there, index, call⟩
  · cases missing.symm.trans found
  · cases there.symm.trans found
    simp only [mapSecond, call, index]

/-- The store of the second pass maps the page, given what the first pass has done. -/
theorem mapped_of_store {before middle : Kernel} (fits : va < 2 ^ 32) (mappable : Mappable paddr)
    (wellFormed : WellFormed .ilp32 pgindex middle)
    (populated : ∀ index < 1024, index ≠ pdx va → pde pgindex middle index ≠ 0 →
      ∃ page < 2 ^ 32, pdx page = index ∧ entry .ilp32 pgindex middle page ≠ 0)
    (found : leaf .ilp32 pgindex middle va = some table)
    (sameEntries : ∀ page, entry .ilp32 pgindex middle page = entry .ilp32 pgindex before page)
    (free : entry .ilp32 pgindex middle va = 0)
    (tables :
      ((∀ index < 1024, pde pgindex middle index = pde pgindex before index) ∧
        pde pgindex before (pdx va) ≠ 0 ∧ middle.frames = before.frames) ∨
      ∃ paddr, (pgalloc .ilp32 before).1 = some paddr ∧ isFrame .ilp32 paddr = true ∧
        paddr ∉ before.frames.inUse ∧ pde pgindex before (pdx va) = 0 ∧
        (∀ index < 1024, pde pgindex middle index =
          if index = pdx va then pa2kva .ilp32 paddr else pde pgindex before index) ∧
        middle.frames = (pgalloc .ilp32 before).2.frames ∧
        middle.frames.inUse = paddr :: before.frames.inUse)
    (junk : middle.junk = before.junk) :
    Mapped pgindex va (paddr ||| pgtablePerm flags) before
      (middle.setWord .ilp32 table (ptx .ilp32 va) (paddr ||| pgtablePerm flags)) := by
  have small : paddr < 2 ^ Abi.ilp32.addressBits := mappable.2
  have leafSame := @leaf_setWord _ _ _ _ _
    (paddr ||| pgtablePerm flags) _ wellFormed found (ptx_lt .ilp32 va)
  have pdeSame : ∀ index < 1024, pde pgindex
      (middle.setWord .ilp32 table (ptx .ilp32 va) (paddr ||| pgtablePerm flags)) index =
      pde pgindex middle index := by
    intro index bound
    rw [pde_eq_leaf bound, pde_eq_leaf bound, leafSame]
  have entries : ∀ page < 2 ^ 32, entry .ilp32 pgindex
      (middle.setWord .ilp32 table (ptx .ilp32 va) (paddr ||| pgtablePerm flags)) page =
      if page / pageSize = va / pageSize then paddr ||| pgtablePerm flags
      else entry .ilp32 pgindex middle page := by
    intro page inside
    rw [entry_setWord wellFormed found (show va < 2 ^ 32 from fits)
      (show page < 2 ^ 32 from inside), entry_mod small (pgtablePerm_lt flags)]
  refine ⟨wellFormed_setWord wellFormed found (ptx_lt .ilp32 va), ?_, ?_, ?_, ?_, junk⟩
  · refine populated_iff.mpr fun index bound present => ?_
    rw [pdeSame index bound] at present
    by_cases here : index = pdx va
    · refine ⟨va, fits, here.symm, ?_⟩
      rw [entries va fits, if_pos rfl]
      exact pgtablePerm_or_ne_zero paddr flags
    · obtain ⟨page, inside, directory, nonzero⟩ := populated index bound here present
      refine ⟨page, inside, directory, ?_⟩
      rw [entries page inside]
      split
      · exact pgtablePerm_or_ne_zero paddr flags
      · exact nonzero
  · rw [← sameEntries va, free]
  · intro page inside
    rw [entries page inside, sameEntries page]
  · rcases tables with ⟨same, there, frames⟩ |
      ⟨granted, taken, isPage, fresh, missing, linked, rest⟩
    · exact Or.inl ⟨fun index bound => (pdeSame index bound).trans (same index bound),
        there, frames⟩
    · exact Or.inr ⟨granted, taken, isPage, fresh, missing,
        fun index bound => (pdeSame index bound).trans (linked index bound), rest⟩

/-! What `__getpagedesc` does with `create` set. -/

theorem getpagedesc32_present (present : pde pgindex kernel (pdx va) ≠ 0) :
    getpagedesc .ilp32 pgindex va true desc kernel =
      (0, { desc with ptev := pde pgindex kernel (pdx va), ptx := ptx .ilp32 va }, kernel) := by
  show getpagedesc32 pgindex va true desc kernel = _
  exact if_pos present

theorem getpagedesc32_granted (absent : pde pgindex kernel (pdx va) = 0)
    (taken : pgalloc .ilp32 kernel = (some granted, { kernel with frames })) :
    getpagedesc .ilp32 pgindex va true desc kernel =
      (0, { desc with ptev := pa2kva .ilp32 granted, ptx := ptx .ilp32 va },
        linkTable .ilp32 pgindex (pdx va) granted { kernel with frames }) := by
  have word : kernel.word .ilp32 pgindex (pdx va) = 0 := absent
  show getpagedesc32 pgindex va true desc kernel = _
  unfold getpagedesc32
  rw [if_neg (not_not.mpr word), taken]
  rfl

theorem getpagedesc32_refused (absent : pde pgindex kernel (pdx va) = 0)
    (refused : (pgalloc .ilp32 kernel).1 = none) :
    getpagedesc .ilp32 pgindex va true desc kernel =
      (-enomem, desc, (pgalloc .ilp32 kernel).2) := by
  have word : kernel.word .ilp32 pgindex (pdx va) = 0 := absent
  show getpagedesc32 pgindex va true desc kernel = _
  unfold getpagedesc32
  rw [if_neg (not_not.mpr word)]
  rcases answer : pgalloc .ilp32 kernel with ⟨_ | granted, after⟩
  · rfl
  · rw [answer] at refused
    cases refused

theorem unchanged_refused (refused : (pgalloc .ilp32 kernel).1 = none) :
    Unchanged pgindex kernel (pgalloc .ilp32 kernel).2 := by
  rcases kernel.frames.take_cases (isFrame .ilp32) with ⟨item, rest, -, -, -, won⟩ | ⟨rest, lost⟩
  · rw [pgalloc, won] at refused
    cases refused
  · rw [pgalloc, lost]
    exact ⟨fun _ _ => rfl, fun _ _ _ _ _ => rfl, rfl, rfl, rfl⟩

section MapPage

variable {flags : Nat} (wellFormed : WellFormed .ilp32 pgindex kernel)
  (populated : Populated pgindex kernel) (aligned : va % pageSize = 0) (fits : va < 2 ^ 32)
  (mappable : Mappable paddr)

include wellFormed in
theorem pde_linked {granted : Nat} {frames : Pool} (isPage : isFrame .ilp32 granted = true)
    (fresh : granted ∉ kernel.frames.inUse) (bound : index < 1024) :
    pde pgindex (linkTable .ilp32 pgindex (pdx va) granted { kernel with frames }) index =
      if index = pdx va then pa2kva .ilp32 granted else pde pgindex kernel index := by
  obtain ⟨present, -, others⟩ := @child_linkTable .ilp32 _ _ _ _ frames
    [] ⟨pdx va, pdx_lt va⟩ wellFormed rfl zero_lt_one isPage fresh
  split
  · rename_i here
    subst here
    exact (child_eq_some.mp present).2
  · rename_i elsewhere
    exact others pgindex ⟨index, bound⟩ ⟨[], zero_le _, rfl⟩
      (Or.inr fun same => elsewhere (congrArg Fin.val same))

include wellFormed populated aligned fits mappable in
/-- The page needs a leaf table, and there is a page for it. -/
theorem mapPage_granted (absent : pde pgindex kernel (pdx va) = 0)
    (isPage : isFrame .ilp32 granted = true) (fresh : granted ∉ kernel.frames.inUse)
    (inUse : frames.inUse = granted :: kernel.frames.inUse)
    (taken : pgalloc .ilp32 kernel = (some granted, { kernel with frames })) :
    ∃ after, mapPages .ilp32 pgindex va paddr pageSize flags kernel = (0, after) ∧
      Mapped pgindex va (paddr ||| pgtablePerm flags) kernel after := by
  have noLeaf : entry .ilp32 pgindex kernel va = 0 := entry_of_no_leaf (leaf_eq_none.mpr absent)
  have linkedPde := fun index bound =>
    @pde_linked _ index va _ wellFormed _ frames isPage fresh bound
  obtain ⟨extension, linked⟩ := @link_extends .ilp32 _ _ _ _ _ []
    ⟨pdx va, pdx_lt va⟩ wellFormed rfl zero_lt_one absent isPage fresh inUse
  obtain ⟨-, empty, -⟩ := @child_linkTable .ilp32 _ _ _ _ _
    [] ⟨pdx va, pdx_lt va⟩ wellFormed rfl zero_lt_one isPage fresh
  have cleared := (empty ⟨ptx .ilp32 va, ptx_lt .ilp32 va⟩).1
  rw [mapPages_onePage aligned mappable, getpagedesc32_granted absent taken]
  simp only [if_neg (show ¬ (0 : Int) = -enomem by decide)]
  rw [if_neg (not_not.mpr cleared), mapSecond_one linked]
  refine ⟨_, rfl, mapped_of_store fits mappable extension.wellFormed ?_ linked
    extension.entry_eq (by rw [extension.entry_eq, noLeaf]) ?_ rfl⟩
  · intro index bound elsewhere there
    rw [linkedPde index bound, if_neg elsewhere] at there
    obtain ⟨page, inside, directory, nonzero⟩ := populated_iff.mp populated index bound there
    exact ⟨page, inside, directory, by rwa [extension.entry_eq]⟩
  · exact Or.inr ⟨granted, by rw [taken], isPage, fresh, absent, linkedPde, by rw [taken]; rfl,
      inUse⟩

include wellFormed populated aligned mappable in
theorem mapPage_refused (absent : pde pgindex kernel (pdx va) = 0)
    (refused : (pgalloc .ilp32 kernel).1 = none) :
    ∃ after, mapPages .ilp32 pgindex va paddr pageSize flags kernel = (-enomem, after) ∧
      Unchanged pgindex kernel after := by
  have same := @unchanged_refused pgindex _ refused
  rw [mapPages_onePage aligned mappable, getpagedesc32_refused absent refused]
  exact ⟨_, rfl, same.trans (unchanged_freeIntermediate (same.wellFormed wellFormed)
    (same.populated populated))⟩

include wellFormed populated aligned fits mappable in
/-- The leaf table is there: the page is mapped unless it has an entry. -/
theorem mapPage_present (present : pde pgindex kernel (pdx va) ≠ 0) :
    (∃ after, mapPages .ilp32 pgindex va paddr pageSize flags kernel = (0, after) ∧
      Mapped pgindex va (paddr ||| pgtablePerm flags) kernel after) ∨
    ∃ retcode after, mapPages .ilp32 pgindex va paddr pageSize flags kernel = (retcode, after) ∧
      retcode < 0 ∧ Unchanged pgindex kernel after ∧ entry .ilp32 pgindex kernel va ≠ 0 := by
  have found : leaf .ilp32 pgindex kernel va = some (pde pgindex kernel (pdx va)) :=
    leaf_eq_some.mpr ⟨present, rfl⟩
  rw [mapPages_onePage aligned mappable, getpagedesc32_present present]
  simp only [if_neg (show ¬ (0 : Int) = -enomem by decide)]
  rw [← entry_of_leaf found]
  by_cases free : entry .ilp32 pgindex kernel va = 0
  · rw [if_neg (not_not.mpr free), mapSecond_one found]
    exact Or.inl ⟨_, rfl, mapped_of_store fits mappable wellFormed
      (fun index bound _ there => populated_iff.mp populated index bound there) found
      (fun _ => rfl) free (Or.inl ⟨fun _ _ => rfl, present, rfl⟩) rfl⟩
  · rw [if_pos free]
    exact Or.inr ⟨_, _, rfl, by decide, unchanged_freeIntermediate wellFormed populated, free⟩

include wellFormed populated aligned fits mappable in
/-- `map_pages` for one page maps it, or fails and leaves the tables as they were; it fails
when the page has an entry, or when it needs a leaf table and there is no page for it. -/
theorem mapPage_cases :
    (∃ after, mapPages .ilp32 pgindex va paddr pageSize flags kernel = (0, after) ∧
      Mapped pgindex va (paddr ||| pgtablePerm flags) kernel after) ∨
    ∃ retcode after, mapPages .ilp32 pgindex va paddr pageSize flags kernel = (retcode, after) ∧
      retcode < 0 ∧ Unchanged pgindex kernel after ∧
      (entry .ilp32 pgindex kernel va ≠ 0 ∨
        (pde pgindex kernel (pdx va) = 0 ∧ (pgalloc .ilp32 kernel).1 = none)) := by
  by_cases absent : pde pgindex kernel (pdx va) = 0
  · rcases pgalloc_cases .ilp32 kernel with
      ⟨granted, frames, isPage, fresh, inUse, taken⟩ | ⟨frames, refused⟩
    · exact Or.inl (mapPage_granted wellFormed populated aligned fits mappable absent isPage fresh
        inUse taken)
    · have none : (pgalloc .ilp32 kernel).1 = none := by rw [refused]
      obtain ⟨after, call, same⟩ := mapPage_refused wellFormed
        populated aligned mappable absent none
      exact Or.inr ⟨-enomem, after, call, by decide, same, Or.inr ⟨absent, none⟩⟩
  · rcases mapPage_present wellFormed populated aligned fits mappable
      absent with mapped | ⟨retcode, after, call, negative, same, there⟩
    · exact Or.inl mapped
    · exact Or.inr ⟨retcode, after, call, negative, same, Or.inl there⟩

end MapPage

/-! ### Unmapping one page -/

/-- The physical address is what an entry has above its mode bits. -/
theorem ptePaddr_or (mappable : Mappable paddr) :
    ptePaddr .ilp32 (paddr ||| pgtablePerm flags) = paddr := by
  obtain ⟨aligned, small⟩ := mappable
  have mode := pgtablePerm_lt flags
  have rounded := alignBelow_two_pow 32 (paddr + pgtablePerm flags) 12
    (by unfold pageSize at aligned; omega) (by decide)
  rw [or_eq_add 12 aligned mode]
  show alignBelow 32 (paddr + pgtablePerm flags) (2 ^ 12) = paddr
  rw [rounded]
  unfold pageSize at aligned
  omega

/-- A page that can be given back through its kernel address, or page 0, which `kva2pa` does
not find again. -/
def Returnable (paddr : Nat) : Prop := paddr = 0 ∨ kva2pa .ilp32 (pa2kva .ilp32 paddr) = paddr

/-- The pages that `kva2pa` finds again from their kernel address. -/
def Invertible (paddr : Nat) : Prop := kva2pa .ilp32 (pa2kva .ilp32 paddr) = paddr

instance : DecidablePred Invertible := fun paddr =>
  inferInstanceAs (Decidable (kva2pa .ilp32 (pa2kva .ilp32 paddr) = paddr))

theorem kva2pa_zero : kva2pa .ilp32 (pa2kva .ilp32 0) = 2 ^ 32 - 1 := by decide

theorem returnable_of_low (low : paddr < lowramTop) : Returnable paddr := by
  have small : paddr < 0x10000000 := low
  have room : paddr < ramTop .ilp32 := by
    show paddr < 0x40000000
    omega
  rcases Nat.eq_zero_or_pos paddr with zero | positive
  · exact Or.inl zero
  · refine Or.inr ?_
    rw [kva2pa_pa2kva_ilp32 room, if_neg (by omega), if_pos (by omega)]

theorem pgfree_of_aligned (aligned : paddr % pageSize = 0) :
    kernel.pgfree paddr = { kernel with frames := kernel.frames.give paddr } :=
  if_pos ((isAligned_two_pow paddr 12).mpr aligned)

/-- Giving back a page through its kernel address; page 0 stays in use. -/
theorem pgfree_kva2pa (returnable : Returnable paddr) (aligned : paddr % pageSize = 0) :
    kernel.pgfree (kva2pa .ilp32 (pa2kva .ilp32 paddr)) =
      if paddr = 0 then kernel else { kernel with frames := kernel.frames.give paddr } := by
  split
  · rename_i zero
    rw [zero, kva2pa_zero]
    exact if_neg (show ¬ isAligned (2 ^ 32 - 1) pageSize = true by decide)
  · rename_i nonzero
    rw [returnable.resolve_left nonzero]
    exact pgfree_of_aligned aligned

/-- How one page is unmapped: the entry is cleared, and the leaf table may be given back. -/
structure Unmapped (pgindex va : Nat) (before after : Kernel) : Prop where
  wellFormed : WellFormed .ilp32 pgindex after
  populated : Populated pgindex after
  entries : ∀ page < 2 ^ 32, entry .ilp32 pgindex after page =
    if page / pageSize = va / pageSize then 0 else entry .ilp32 pgindex before page
  tables :
    ((∀ index < 1024, pde pgindex after index = pde pgindex before index) ∧
      after.frames = before.frames) ∨
    ∃ paddr ∈ before.frames.inUse, isFrame .ilp32 paddr = true ∧
      pde pgindex before (pdx va) = pa2kva .ilp32 paddr ∧
      (∀ index < 1024, pde pgindex after index =
        if index = pdx va then 0 else pde pgindex before index) ∧
      after.frames = if paddr = 0 then before.frames else before.frames.give paddr
  junk : after.junk = before.junk

/-- Clearing the entry of a page, before the leaf table is looked at. -/
theorem cleared_entries (wellFormed : WellFormed .ilp32 pgindex kernel) (fits : va < 2 ^ 32)
    (found : leaf .ilp32 pgindex kernel va = some table) :
    WellFormed .ilp32 pgindex (kernel.setWord .ilp32 table (ptx .ilp32 va) 0) ∧
      (∀ index < 1024, pde pgindex (kernel.setWord .ilp32 table (ptx .ilp32 va) 0) index =
        pde pgindex kernel index) ∧
      ∀ page < 2 ^ 32, entry .ilp32 pgindex (kernel.setWord .ilp32 table (ptx .ilp32 va) 0) page =
        if page / pageSize = va / pageSize then 0 else entry .ilp32 pgindex kernel page := by
  refine ⟨wellFormed_setWord wellFormed found (ptx_lt .ilp32 va), fun index bound => ?_,
    fun page inside => ?_⟩
  · rw [pde_eq_leaf bound, pde_eq_leaf bound, leaf_setWord wellFormed found (ptx_lt .ilp32 va)]
  · rw [entry_setWord wellFormed found (show va < 2 ^ 32 from fits)
      (show page < 2 ^ 32 from inside), zero_mod]

/-! Clearing an entry of the directory. -/

/-- The state after the page of a leaf table was given back and its directory entry cleared. -/
def unlink (pgindex index paddr : Nat) (kernel : Kernel) : Kernel :=
  (kernel.pgfree (kva2pa .ilp32 (pa2kva .ilp32 paddr))).setWord .ilp32 pgindex index 0

theorem pgfree_eq (paddr : Nat) (kernel : Kernel) :
    kernel.pgfree paddr = { kernel with frames := (kernel.pgfree paddr).frames } := by
  unfold pgfree
  split <;> rfl

theorem unlink_eq (pgindex index paddr : Nat) (kernel : Kernel) :
    unlink pgindex index paddr kernel =
      { kernel.setWord .ilp32 pgindex index 0 with
        frames := (kernel.pgfree (kva2pa .ilp32 (pa2kva .ilp32 paddr))).frames } := by
  rw [unlink, pgfree_eq]
  rfl

section Unlink

variable (wellFormed : WellFormed .ilp32 pgindex kernel) (bound : index < 1024)
  (present : pde pgindex kernel index ≠ 0)
  (here : pde pgindex kernel index = pa2kva .ilp32 paddr) (returnable : Returnable paddr)
  (frame : isFrame .ilp32 paddr = true) (member : paddr ∈ kernel.frames.inUse)

include returnable frame

theorem unlink_frames : (unlink pgindex index paddr kernel).frames =
    if paddr = 0 then kernel.frames else kernel.frames.give paddr := by
  show (kernel.pgfree _).frames = _
  rw [pgfree_kva2pa returnable (isFrame_iff.mp frame).1]
  split <;> rfl

include member in
theorem mem_unlink {other : Nat} (otherMember : other ∈ kernel.frames.inUse)
    (different : other ≠ paddr) : other ∈ (unlink pgindex index paddr kernel).frames.inUse := by
  rw [unlink_frames returnable frame]
  split
  · exact otherMember
  · rw [Pool.give_of_mem member]
    exact (mem_erase_of_ne different).mpr otherMember

include wellFormed bound here present member in
theorem wellFormed_unlink : WellFormed .ilp32 pgindex (unlink pgindex index paddr kernel) := by
  have pdes := fun other otherBound => @pde_clear _ _ _ wellFormed bound other otherBound
  have keeps := fun other => @mem_unlink pgindex index _ _ returnable frame member other
  obtain ⟨-, distinct, -⟩ := (wellFormed_ilp32_iff.mp wellFormed).2 index bound present
  obtain ⟨⟨rootPage, rootMember, rootFrame, rootIs⟩, leaves⟩ :=
    wellFormed_ilp32_iff.mp (wellFormed_clear wellFormed bound)
  rw [unlink_eq] at keeps ⊢
  refine wellFormed_ilp32_iff.mpr ⟨⟨rootPage, keeps rootPage rootMember ?_, rootFrame, rootIs⟩,
    fun other otherBound there => ?_⟩
  · rintro rfl
    exact ((wellFormed_ilp32_iff.mp wellFormed).2 index bound present).1 (here.trans rootIs.symm)
  · obtain ⟨otherNotRoot, otherDistinct, owner, ownerMember, ownerFrame, ownerIs⟩ :=
      leaves other otherBound there
    refine ⟨otherNotRoot, otherDistinct, owner, keeps owner ownerMember ?_, ownerFrame, ownerIs⟩
    rintro rfl
    rw [pdes other otherBound] at ownerIs
    split at ownerIs
    · exact (isTable_pa2kva ownerFrame).nonzero.ne ownerIs
    · rename_i different
      exact different (distinct other otherBound (ownerIs.trans here.symm))

end Unlink

/-- `unmap_pages` for one page below the last, with the loop and the clean-up written out. -/
theorem unmapPage_eq (fits : va + pageSize < 2 ^ 32) (present : pde pgindex kernel (pdx va) ≠ 0) :
    unmapPages .ilp32 pgindex va pageSize paddr kernel =
      some (pageSize, ptePaddr .ilp32 (entry .ilp32 pgindex kernel va),
        freeLeafTable pgindex (pdx va)
          (kernel.setWord .ilp32 (pde pgindex kernel (pdx va)) (ptx .ilp32 va) 0)) := by
  have found : leaf .ilp32 pgindex kernel va = some (pde pgindex kernel (pdx va)) :=
    leaf_eq_some.mpr ⟨present, rfl⟩
  have noWrap : (va + pageSize) % Abi.ilp32.modulus = va + pageSize := mod_eq_of_lt fits
  have count : ((va + pageSize) % Abi.ilp32.modulus - va + (pageSize - 1)) / pageSize = 1 := by
    rw [noWrap, Nat.add_sub_cancel_left]
    decide
  have lastPage : pdx (wrapSub (2 ^ 32) ((va + pageSize) % 2 ^ 32) pageSize) = pdx va := by
    rw [mod_eq_of_lt fits, wrapSub_of_le (Nat.le_add_left _ _) fits, Nat.add_sub_cancel]
  rcases getpagedesc_find .ilp32 pgindex va kernel.freshDesc kernel with
    ⟨missing, -⟩ | ⟨made, there, index, call⟩
  · cases missing.symm.trans found
  have table : made.ptev = pde pgindex kernel (pdx va) :=
    Option.some.inj (there.symm.trans found)
  have loop : unmapLoop .ilp32 pgindex 1 va 0 0 paddr kernel.freshDesc kernel =
      some (pageSize, ptePaddr .ilp32 (entry .ilp32 pgindex kernel va),
        kernel.setWord .ilp32 (pde pgindex kernel (pdx va)) (ptx .ilp32 va) 0) := by
    rw [entry_of_leaf found]
    simp only [unmapLoop, call, index, table, if_neg (Int.lt_irrefl 0), if_true]
  have clean : freeIntermediate .ilp32 pgindex va pageSize
      (kernel.setWord .ilp32 (pde pgindex kernel (pdx va)) (ptx .ilp32 va) 0) =
      freeLeafTable pgindex (pdx va)
        (kernel.setWord .ilp32 (pde pgindex kernel (pdx va)) (ptx .ilp32 va) 0) := by
    show freeIntermediate32 pgindex va pageSize _ = _
    rw [freeIntermediate32, lastPage, Nat.add_sub_cancel_left, List.range'_one, foldl_cons,
      foldl_nil]
  simp only [unmapPages, count, loop, clean]

/-- Clearing the entry of a page leaves no other leaf table empty. -/
theorem populated_elsewhere {middle : Kernel} (populated : Populated pgindex kernel)
    (entries : ∀ page < 2 ^ 32, entry .ilp32 pgindex middle page =
      if page / pageSize = va / pageSize then 0 else entry .ilp32 pgindex kernel page)
    (bound : index < 1024) (different : index ≠ pdx va) (there : pde pgindex kernel index ≠ 0) :
    ∃ page < 2 ^ 32, pdx page = index ∧ entry .ilp32 pgindex middle page ≠ 0 := by
  obtain ⟨page, inside, directory, nonzero⟩ := populated_iff.mp populated index bound there
  refine ⟨page, inside, directory, ?_⟩
  rw [entries page inside, if_neg]
  · exact nonzero
  · intro samePage
    have paths := (@dirPath_congr .ilp32 _ _ samePage).1
    have indices := map_inj_left.mp paths pdxShift mem_cons_self
    exact different (directory.symm.trans (Fin.mk.inj indices))

/-- The tables in memory are those of a page table, whatever pages are in use. -/
def Shaped (pgindex : Nat) (kernel : Kernel) : Prop :=
  ∃ frames, WellFormed .ilp32 pgindex { kernel with frames }

theorem WellFormed.shaped (wellFormed : WellFormed .ilp32 pgindex kernel) : Shaped pgindex kernel :=
  ⟨kernel.frames, wellFormed⟩

/-- The entry of a page is cleared and the leaf table is looked at: what this does to the tables
does not depend on the pages in use. -/
theorem cleared_tables (shaped : Shaped pgindex kernel) (populated : Populated pgindex kernel)
    (inside : va < 2 ^ 32) (present : pde pgindex kernel (pdx va) ≠ 0) :
    Shaped pgindex (freeLeafTable pgindex (pdx va)
        (kernel.setWord .ilp32 (pde pgindex kernel (pdx va)) (ptx .ilp32 va) 0)) ∧
      Populated pgindex (freeLeafTable pgindex (pdx va)
        (kernel.setWord .ilp32 (pde pgindex kernel (pdx va)) (ptx .ilp32 va) 0)) ∧
      ∀ page < 2 ^ 32, entry .ilp32 pgindex (freeLeafTable pgindex (pdx va)
          (kernel.setWord .ilp32 (pde pgindex kernel (pdx va)) (ptx .ilp32 va) 0)) page =
        if page / pageSize = va / pageSize then 0 else entry .ilp32 pgindex kernel page := by
  obtain ⟨frames, formed⟩ := shaped
  have found : leaf .ilp32 pgindex { kernel with frames } va =
      some (pde pgindex kernel (pdx va)) := leaf_eq_some.mpr ⟨present, rfl⟩
  obtain ⟨clearedFormed, clearedPde, clearedEntry⟩ := cleared_entries formed inside found
  generalize cleared :
    kernel.setWord .ilp32 (pde pgindex kernel (pdx va)) (ptx .ilp32 va) 0 = middle
  have middleIs : { kernel with frames }.setWord .ilp32 (pde pgindex kernel (pdx va))
      (ptx .ilp32 va) 0 = { middle with frames } := by
    rw [← cleared]
    rfl
  rw [middleIs] at clearedFormed clearedPde clearedEntry
  have here := clearedPde (pdx va) (pdx_lt va)
  have word : middle.word .ilp32 pgindex (pdx va) = pde pgindex kernel (pdx va) := here
  have elsewhere := fun index bound =>
    @populated_elsewhere _ index _ _ middle populated clearedEntry bound
  unfold freeLeafTable
  split
  · rename_i empty
    rw [word, tableEmpty_iff] at empty
    rw [pgfree_eq]
    have allZero : ∀ page < 2 ^ 32, pdx page = pdx va → entry .ilp32 pgindex middle page = 0 := by
      intro page _ same
      have pageLeaf : leaf .ilp32 pgindex middle page = some (pde pgindex kernel (pdx va)) :=
        leaf_eq_some.mpr ⟨present, by rw [same]; exact here⟩
      rw [entry_of_leaf pageLeaf]
      exact empty (ptx .ilp32 page) (ptx_lt .ilp32 page)
    have pdes := fun index bound => @pde_clear _ _ _ clearedFormed (pdx_lt va) index bound
    have entries := fun page pageInside => @entry_clear _ _ _
      clearedFormed (pdx_lt va) allZero page pageInside
    refine ⟨⟨frames, wellFormed_clear clearedFormed (pdx_lt va)⟩,
      populated_iff.mpr fun index bound there => ?_, fun page pageInside => ?_⟩
    · have kept := (pdes index bound).symm.trans_ne there
      split at kept
      · exact absurd rfl kept
      · rename_i different
        rw [clearedPde index bound] at kept
        obtain ⟨page, pageInside, directory, nonzero⟩ := elsewhere index bound different kept
        exact ⟨page, pageInside, directory, (entries page pageInside).trans_ne nonzero⟩
    · exact (entries page pageInside).trans (clearedEntry page pageInside)
  · rename_i used
    refine ⟨⟨frames, clearedFormed⟩, fun index bound there => ?_, clearedEntry⟩
    by_cases different : index = pdx va
    · subst different
      rw [word, tableEmpty_iff] at used
      push Not at used
      rwa [show pde pgindex middle (pdx va) = pde pgindex kernel (pdx va) from here]
    · have kept := (clearedPde index bound).symm.trans_ne there
      obtain ⟨page, pageInside, directory, nonzero⟩ := elsewhere index bound different kept
      rw [← directory] at there
      rw [entry_of_leaf (leaf_eq_some.mpr ⟨there, rfl⟩), directory] at nonzero
      exact ⟨ptx .ilp32 page, ptx_lt .ilp32 page, nonzero⟩

/-- `unmap_pages` for one page below the last clears its entry. -/
theorem unmapPage_spec (wellFormed : WellFormed .ilp32 pgindex kernel)
    (populated : Populated pgindex kernel) (fits : va + pageSize < 2 ^ 32)
    (present : pde pgindex kernel (pdx va) ≠ 0)
    (low : ∀ frame ∈ kernel.frames.inUse, isFrame .ilp32 frame = true →
      pde pgindex kernel (pdx va) = pa2kva .ilp32 frame → Returnable frame) :
    ∃ after, unmapPages .ilp32 pgindex va pageSize paddr kernel =
        some (pageSize, ptePaddr .ilp32 (entry .ilp32 pgindex kernel va), after) ∧
      Unmapped pgindex va kernel after := by
  have inside : va < 2 ^ 32 := (le_add_right _ _).trans_lt fits
  have found : leaf .ilp32 pgindex kernel va = some (pde pgindex kernel (pdx va)) :=
    leaf_eq_some.mpr ⟨present, rfl⟩
  obtain ⟨clearedFormed, clearedPde, -⟩ := cleared_entries wellFormed inside found
  obtain ⟨-, populatedAfter, entries⟩ := cleared_tables wellFormed.shaped populated inside present
  obtain ⟨-, -, frame, member, isPage, tableIs⟩ :=
    (wellFormed_ilp32_iff.mp wellFormed).2 (pdx va) (pdx_lt va) present
  have returnable := low frame member isPage tableIs
  refine ⟨_, unmapPage_eq fits present, ?_⟩
  generalize cleared :
    kernel.setWord .ilp32 (pde pgindex kernel (pdx va)) (ptx .ilp32 va) 0 = middle
    at clearedFormed clearedPde populatedAfter entries
  have sameFrames : middle.frames = kernel.frames := by rw [← cleared]; rfl
  have sameJunk : middle.junk = kernel.junk := by rw [← cleared]; rfl
  have here := (clearedPde (pdx va) (pdx_lt va)).trans tableIs
  have word : middle.word .ilp32 pgindex (pdx va) = pa2kva .ilp32 frame := here
  have pass : freeLeafTable pgindex (pdx va) middle = middle ∨
      freeLeafTable pgindex (pdx va) middle = unlink pgindex (pdx va) frame middle := by
    unfold freeLeafTable
    rw [word]
    split
    · exact Or.inr rfl
    · exact Or.inl rfl
  rcases pass with same | unlinked
  · rw [same] at populatedAfter entries ⊢
    exact ⟨clearedFormed, populatedAfter, entries, Or.inl ⟨clearedPde, sameFrames⟩, sameJunk⟩
  · rw [unlinked] at populatedAfter entries ⊢
    have used : frame ∈ middle.frames.inUse := by rwa [sameFrames]
    refine ⟨wellFormed_unlink clearedFormed (pdx_lt va)
      (by rwa [clearedPde (pdx va) (pdx_lt va)]) here returnable isPage used, populatedAfter,
      entries, Or.inr ⟨frame, member, isPage, tableIs, fun index bound => ?_, ?_⟩, ?_⟩
    · rw [unlink_eq, ← clearedPde index bound]
      exact pde_clear clearedFormed (pdx_lt va) bound
    · rw [unlink_frames returnable isPage, sameFrames]
    · rw [unlink_eq]
      exact sameJunk

/-- `unmap_pages` for the last page of the address space: the end of the range wraps to zero,
and the call returns without having unmapped anything. -/
theorem unmapPage_last_eq (last : va + pageSize = 2 ^ 32) :
    unmapPages .ilp32 pgindex va pageSize paddr kernel =
      some (0, paddr, freeIntermediate .ilp32 pgindex va 0 kernel) := by
  have count : ((va + pageSize) % Abi.ilp32.modulus - va + (pageSize - 1)) / pageSize = 0 := by
    rw [last, show Abi.ilp32.modulus = 2 ^ 32 from rfl, mod_self, Nat.zero_sub, Nat.zero_add]
    decide
  simp only [unmapPages, count, unmapLoop]

end AIMv6
