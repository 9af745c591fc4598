/-
This file proves when `unmap_pages` undoes `map_pages` in the page tables with two levels, those
of the 32-bit MIPS build and of the i386 port.

The loop of `unmap_pages` compares an entry, mode bits included, with a physical address, so it
stops behind the first page of a range; and it does not start when the end of the range wraps.
What is left is a range of one page. Its entry is cleared again, and what remains is whether
the leaf table that `map_pages` may have created is given back: in the MIPS build it is when
`kva2pa` finds its page again, in the i386 port never, because the code takes the physical
address for a kernel address.
-/

import AIMv6.I386Map
import AIMv6.PageTablePages

namespace AIMv6

open List Kernel Nat

/-! ### The 32-bit MIPS build -/

theorem ptePaddr_ilp32 {pte : Nat} (fits : pte < 2 ^ 32) :
    ptePaddr .ilp32 pte = pte / 4096 * 4096 :=
  alignBelow_two_pow 32 pte 12 fits (by decide)

variable {pgindex paddr bytes stored pages index : Nat} {desc : PageDesc} {kernel after : Kernel}

/-- Behind the first page the loop does not store a physical address. -/
theorem unmapLoop_stored (pages : Nat) {vcur unmapped pcur : Nat} (started : unmapped ≠ 0)
    (call : unmapLoop .ilp32 pgindex pages vcur unmapped pcur paddr desc kernel =
      some (bytes, stored, after)) : stored = paddr := by
  induction pages generalizing vcur unmapped pcur desc kernel with
  | zero =>
    cases call
    rfl
  | succ pages inductionHypothesis =>
    unfold unmapLoop at call
    dsimp only at call
    split at call
    · cases call
    · split at call
      · cases call
        rfl
      · exact inductionHypothesis (by omega) call

/-- The first page: its entry is cleared and its physical address is stored. -/
theorem unmapLoop_first {va : Nat} {result : Nat × Nat × Kernel}
    (call : unmapLoop .ilp32 pgindex (pages + 1) va 0 0 paddr desc kernel = some result) :
    ∃ found, leaf .ilp32 pgindex kernel va = some found.ptev ∧
      unmapLoop .ilp32 pgindex pages ((va + pageSize) % 2 ^ 32) pageSize
        (ptePaddr .ilp32 (entry .ilp32 pgindex kernel va) + pageSize)
        (ptePaddr .ilp32 (entry .ilp32 pgindex kernel va)) found
        (kernel.setWord .ilp32 found.ptev (ptx .ilp32 va) 0) = some result := by
  rcases getpagedesc_find .ilp32 pgindex va desc kernel with
    ⟨-, found, lookup⟩ | ⟨found, there, index, lookup⟩
  · simp only [unmapLoop, lookup, if_pos (show -enoent < 0 by decide)] at call
    cases call
  · simp only [unmapLoop, lookup, if_neg (Int.lt_irrefl 0), index, if_true,
      ← entry_of_leaf there] at call
    exact ⟨found, there, call⟩

/-- The loop stops at a second page that `map_pages` has mapped. -/
theorem unmapLoop_second {va pcur : Nat} {result : Nat × Nat × Kernel} (aligned : pcur % 4096 = 0)
    (mapped : entry .ilp32 pgindex kernel va % 4096 ≠ 0)
    (call : unmapLoop .ilp32 pgindex (pages + 1) va pageSize pcur paddr desc kernel = some result) :
    result.1 = pageSize := by
  rcases getpagedesc_find .ilp32 pgindex va desc kernel with
    ⟨-, found, lookup⟩ | ⟨found, there, index, lookup⟩
  · simp only [unmapLoop, lookup, if_pos (show -enoent < 0 by decide)] at call
    cases call
  · have different : entry .ilp32 pgindex kernel va ≠ pcur := by
      intro same
      rw [same] at mapped
      exact mapped aligned
    simp only [unmapLoop, lookup, if_neg (Int.lt_irrefl 0), index,
      if_neg (show ¬ pageSize = 0 by decide), ← entry_of_leaf there] at call
    rw [if_pos different] at call
    cases call
    rfl

/-- The passes of the loop of `unmap_pages`; there is none when the end of the range wraps. -/
theorem unmap_count {vaddr size : Nat} (fits : vaddr < 2 ^ 32) (whole : size % 4096 = 0)
    (total : size < 2 ^ 32) :
    ((vaddr + size) % 2 ^ 32 - vaddr + (pageSize - 1)) / pageSize =
      if vaddr + size < 2 ^ 32 then size / 4096 else 0 := by
  unfold pageSize
  split <;> omega

/-- The tables are determined by the directory and the entries of the pages. -/
theorem unchanged_of_entries {before : Kernel}
    (directory : ∀ index < 1024, pde pgindex after index = pde pgindex before index)
    (entries : ∀ page < 2 ^ 32, entry .ilp32 pgindex after page = entry .ilp32 pgindex before page)
    (inUse : after.frames.inUse = before.frames.inUse)
    (stray : after.frames.stray = before.frames.stray) (junk : after.junk = before.junk) :
    Unchanged pgindex before after := by
  refine ⟨directory, fun index bound present place placeBound => ?_, inUse, stray, junk⟩
  obtain ⟨page, inside, rfl, rfl⟩ := exists_page bound placeBound
  have same := entries page inside
  rw [entry_of_pde present, entry_of_pde (by rwa [directory _ bound]), directory _ bound] at same
  exact same

section OnePage

variable {pgindex va pte : Nat} {before mapped : Kernel}

/-- Clearing the entry of a page that was mapped into a leaf table there was. -/
theorem unchanged_of_old_table (wellFormed : WellFormed .ilp32 pgindex before)
    (populated : Populated pgindex before) (fits : va < 2 ^ 32)
    (done : Mapped pgindex va pte before mapped) (present : pde pgindex before (pdx va) ≠ 0) :
    Unchanged pgindex before (freeLeafTable pgindex (pdx va)
      (mapped.setWord .ilp32 (pde pgindex mapped (pdx va)) (ptx .ilp32 va) 0)) := by
  rcases done.tables with ⟨directory, -, frames⟩ | ⟨granted, -, -, -, absent, -⟩
  · have found : leaf .ilp32 pgindex mapped va = some (pde pgindex mapped (pdx va)) :=
      leaf_eq_some.mpr ⟨by rwa [directory _ (pdx_lt va)], rfl⟩
    obtain ⟨-, clearedPde, clearedEntry⟩ := cleared_entries done.wellFormed fits found
    have cleared : Unchanged pgindex before
        (mapped.setWord .ilp32 (pde pgindex mapped (pdx va)) (ptx .ilp32 va) 0) := by
      refine unchanged_of_entries
        (fun index bound => (clearedPde index bound).trans (directory index bound))
        (fun page inside => ?_) (congrArg Pool.inUse frames) (congrArg Pool.stray frames) done.junk
      rw [clearedEntry page inside, done.entries page inside]
      split
      · rename_i same
        rw [entry_of_same_page same, done.absent]
      · rfl
    exact cleared.trans (unchanged_freeLeafTable (cleared.wellFormed wellFormed) (pdx_lt va)
      (cleared.populated populated (pdx va) (pdx_lt va)))
  · exact absurd absent present

/-- Clearing the entry of a page that was mapped into a new leaf table gives the table back. -/
theorem unchanged_of_new_table {unmapped : Kernel} (done : Mapped pgindex va pte before mapped)
    (undone : Unmapped pgindex va mapped unmapped) (absent : pde pgindex before (pdx va) = 0)
    (returned : ∀ page, (pgalloc .ilp32 before).1 = some page →
      kva2pa .ilp32 (pa2kva .ilp32 page) = page) :
    Unchanged pgindex before unmapped := by
  rcases done.tables with ⟨-, present, -⟩ | ⟨granted, taken, isPage, fresh, -, linked, frames, used⟩
  · exact absurd absent present
  have entries : ∀ page < 2 ^ 32, entry .ilp32 pgindex unmapped page =
      entry .ilp32 pgindex before page := by
    intro page inside
    rw [undone.entries page inside, done.entries page inside]
    split
    · rename_i same
      rw [entry_of_same_page same, done.absent]
    · rfl
  have here := linked (pdx va) (pdx_lt va)
  rw [if_pos rfl] at here
  have nonzero : granted ≠ 0 := by
    rintro rfl
    exact absurd (returned 0 taken) (by rw [kva2pa_zero]; decide)
  rcases undone.tables with ⟨directory, -⟩ | ⟨page, -, pageFrame, tableIs, directory, given⟩
  · have there : pde pgindex unmapped (pdx va) ≠ 0 := by
      rw [directory _ (pdx_lt va), here]
      exact ne_of_gt (isTable_pa2kva isPage).nonzero
    obtain ⟨page, inside, same, used⟩ :=
      populated_iff.mp undone.populated (pdx va) (pdx_lt va) there
    rw [entries page inside, entry_of_no_leaf (leaf_eq_none.mpr (by rwa [same]))] at used
    exact absurd rfl used
  · obtain rfl : granted = page := pa2kva_injective isPage pageFrame (here.symm.trans tableIs)
    have member : granted ∈ mapped.frames.inUse := by
      rw [used]
      exact mem_cons_self
    rw [if_neg nonzero, Pool.give_of_mem member] at given
    refine unchanged_of_entries (fun index bound => ?_) entries ?_ ?_ (undone.junk.trans done.junk)
    · rw [directory index bound, linked index bound]
      split
      · rename_i same
        rw [same, absent]
      · rfl
    · simp only [given, used, erase_cons_head]
    · rw [given, frames]
      show (before.frames.take (isFrame .ilp32)).2.stray = before.frames.stray
      rcases before.frames.take_cases (isFrame .ilp32) with
        ⟨_, _, -, -, -, won⟩ | ⟨_, lost⟩
      · rw [won]
      · rw [lost]

/-- A new leaf table stays in use when `kva2pa` does not find its page again. -/
theorem new_table_stays {granted : Nat} (member : granted ∈ mapped.frames.inUse)
    (here : pde pgindex mapped (pdx va) = pa2kva .ilp32 granted)
    (isPage : isFrame .ilp32 granted = true)
    (wellFormed : WellFormed .ilp32 pgindex mapped) (fits : va < 2 ^ 32)
    (lost : kva2pa .ilp32 (pa2kva .ilp32 granted) ≠ granted) :
    granted ∈ (freeLeafTable pgindex (pdx va)
      (mapped.setWord .ilp32 (pde pgindex mapped (pdx va)) (ptx .ilp32 va) 0)).frames.inUse := by
  have found : leaf .ilp32 pgindex mapped va = some (pde pgindex mapped (pdx va)) :=
    leaf_eq_some.mpr ⟨by rw [here]; exact ne_of_gt (isTable_pa2kva isPage).nonzero, rfl⟩
  obtain ⟨-, clearedPde, -⟩ := cleared_entries wellFormed fits found
  have entry := (clearedPde (pdx va) (pdx_lt va)).trans here
  unfold pde at entry
  unfold freeLeafTable
  split
  · rw [pde, entry]
    unfold pgfree
    split
    · exact Pool.mem_give_of_ne member lost.symm
    · exact member
  · exact member

end OnePage

section Mips

variable {pgindex vaddr paddr size flags pa : Nat} {kernel mapped : Kernel}

/-- What the loop of `unmap_pages` has done when the call returns. -/
theorem unmapPages_some (fits : vaddr < 2 ^ 32) (whole : size % 4096 = 0) (total : size < 2 ^ 32)
    (call : unmapPages .ilp32 pgindex vaddr size pa mapped = some (bytes, stored, after)) :
    ∃ middle, unmapLoop .ilp32 pgindex (if vaddr + size < 2 ^ 32 then size / 4096
      else 0) vaddr 0 0 pa mapped.freshDesc mapped = some (bytes, stored, middle) := by
  unfold unmapPages at call
  rw [show Abi.ilp32.modulus = 2 ^ 32 from rfl, unmap_count fits whole total] at call
  split at call
  · cases call
  · rename_i loop
    cases call
    exact ⟨_, loop⟩

/-- The second page of a range still has its entry, with mode bits, when the first is unmapped. -/
theorem second_entry {table : Nat} (wellFormed : WellFormed .ilp32 pgindex kernel)
    (more : pageSize < size) (noWrap : vaddr + size < 2 ^ 32) (physicalFits : paddr + size < 2 ^ 64)
    (mapping : mapPages .ilp32 pgindex vaddr paddr size flags kernel = (0, mapped))
    (there : leaf .ilp32 pgindex mapped vaddr = some table) :
    entry .ilp32 pgindex (mapped.setWord .ilp32 table (ptx .ilp32 vaddr) 0) (vaddr + pageSize) %
      4096 ≠ 0 := by
  obtain ⟨aligned, -, whole⟩ := mapPages_aligned mapping
  obtain ⟨stop, desc, middle, first, rfl⟩ := mapPages_zero physicalFits mapping
  have length : size / pageSize * pageSize = size :=
    Nat.div_mul_cancel (dvd_of_mod_eq_zero whole)
  have inside : vaddr + size / pageSize * pageSize ≤ 2 ^ Abi.ilp32.addressBits := by
    rw [length]
    exact le_of_lt noWrap
  have positive : 0 < pageSize := by decide
  have fits : vaddr < 2 ^ 32 := by omega
  have nextFits : vaddr + pageSize < 2 ^ 32 := by omega
  have apart : ¬ (vaddr + pageSize) / pageSize = vaddr / pageSize := by
    rw [add_div_right _ positive]
    omega
  obtain ⟨extension, leaves⟩ := mapFirst_spec (size / pageSize) wellFormed inside first
  obtain ⟨formed, -, entries⟩ := mapSecond_spec
    (size / pageSize) extension.wellFormed aligned inside leaves
  have second := entries (vaddr + pageSize) (by rwa [add_mod_right]) nextFits
  rw [length, if_pos (by omega)] at second
  have low := pgtablePerm_or_low (paddr + (vaddr + pageSize - vaddr)) flags
  rw [entry_setWord formed there fits nextFits, if_neg apart, second]
  show _ % 2 ^ 32 % 4096 ≠ 0
  omega

/-- A call of `unmap_pages` that returns the size of the range has been for one page, below the
last one, and has stored an address of 32 bits. -/
theorem size_of_unmapped (wellFormed : WellFormed .ilp32 pgindex kernel) (fits : vaddr < 2 ^ 32)
    (some : 0 < size) (total : size < 2 ^ 32)
    (mapping : mapPages .ilp32 pgindex vaddr paddr size flags kernel = (0, mapped))
    (call : unmapPages .ilp32 pgindex vaddr size pa mapped = .some (size, paddr, after)) :
    size = pageSize ∧ vaddr + pageSize < 2 ^ 32 ∧ Mappable paddr := by
  obtain ⟨-, physicalAligned, whole⟩ := mapPages_aligned mapping
  obtain ⟨middle, loop⟩ := unmapPages_some fits whole total call
  by_cases noWrap : vaddr + size < 2 ^ 32
  · rw [if_pos noWrap] at loop
    have pages : pageSize = 4096 := rfl
    rw [pages] at whole
    obtain ⟨later, count⟩ : ∃ later, size / 4096 = later + 1 := ⟨size / 4096 - 1, by omega⟩
    rw [count] at loop
    obtain ⟨found, there, rest⟩ := unmapLoop_first loop
    have stored := unmapLoop_stored later (show pageSize ≠ 0 by decide) rest
    have small : entry .ilp32 pgindex mapped vaddr < 2 ^ 32 := by
      rw [entry_of_leaf there]
      exact word_lt
    rw [ptePaddr_ilp32 small] at stored
    have one : size = pageSize := by
      by_contra different
      obtain ⟨fewer, rfl⟩ : ∃ fewer, later = fewer + 1 := ⟨later - 1, by omega⟩
      rw [mod_eq_of_lt (show vaddr + pageSize < 2 ^ 32 by omega)] at rest
      refine different (unmapLoop_second ?_ (second_entry wellFormed (by omega) noWrap (by omega)
        mapping there) rest)
      rw [ptePaddr_ilp32 small]
      omega
    exact ⟨one, by omega, physicalAligned, by omega⟩
  · rw [if_neg noWrap] at loop
    cases loop
    exact absurd some (lt_irrefl 0)

/-- `unmap_pages` undoes `map_pages`: it returns the size, stores the physical address and leaves
the tables and the pages in use as they were before the mapping. -/
def Undone (pgindex vaddr paddr size pa : Nat) (kernel mapped : Kernel) : Prop :=
  ∃ after, unmapPages .ilp32 pgindex vaddr size pa mapped = some (size, paddr, after) ∧
    Unchanged pgindex kernel after

/-- One page that is not the last one is mapped and unmapped again. -/
theorem unmapPages_of_mapped (wellFormed : WellFormed .ilp32 pgindex kernel)
    (populated : Populated pgindex kernel) (fits : vaddr < 2 ^ 32) (aligned : vaddr % pageSize = 0)
    (mappable : Mappable paddr) (below : vaddr + pageSize < 2 ^ 32)
    (mapping : mapPages .ilp32 pgindex vaddr paddr pageSize flags kernel = (0, mapped)) :
    Mapped pgindex vaddr (paddr ||| pgtablePerm flags) kernel mapped ∧
      pde pgindex mapped (pdx vaddr) ≠ 0 ∧
      unmapPages .ilp32 pgindex vaddr pageSize pa mapped = .some (pageSize, paddr,
        freeLeafTable pgindex (pdx vaddr)
          (mapped.setWord .ilp32 (pde pgindex mapped (pdx vaddr)) (ptx .ilp32 vaddr) 0)) := by
  rcases mapPage_cases wellFormed populated aligned fits mappable
    with ⟨after, call, done⟩ | ⟨retcode, after, call, negative, -⟩
  · cases mapping.symm.trans call
    have entry := done.entries vaddr fits
    rw [if_pos rfl] at entry
    have there : pde pgindex mapped (pdx vaddr) ≠ 0 := by
      intro absent
      rw [entry_of_no_leaf (leaf_eq_none.mpr absent)] at entry
      exact pgtablePerm_or_ne_zero paddr flags entry.symm
    refine ⟨done, there, ?_⟩
    rw [unmapPage_eq below there, entry, ptePaddr_or mappable]
  · cases mapping.symm.trans call
    exact absurd negative (by decide)

/-- In the 32-bit MIPS build `unmap_pages` undoes `map_pages` exactly for one page that is not the
last one, when a new leaf table is in a page that `kva2pa` finds again. -/
theorem undone_iff (wellFormed : WellFormed .ilp32 pgindex kernel)
    (populated : Populated pgindex kernel) (fits : vaddr < 2 ^ 32) (some : 0 < size)
    (total : size < 2 ^ 32)
    (mapping : mapPages .ilp32 pgindex vaddr paddr size flags kernel = (0, mapped)) :
    Undone pgindex vaddr paddr size pa kernel mapped ↔
      size = pageSize ∧ vaddr + pageSize < 2 ^ 32 ∧ paddr < 2 ^ 32 ∧
        (pde pgindex kernel (pdx vaddr) = 0 → ∀ page, (pgalloc .ilp32 kernel).1 = .some page →
          kva2pa .ilp32 (pa2kva .ilp32 page) = page) := by
  obtain ⟨aligned, physicalAligned, -⟩ := mapPages_aligned mapping
  constructor
  · rintro ⟨after, call, unchanged⟩
    obtain ⟨rfl, below, mappable⟩ := size_of_unmapped wellFormed fits some total mapping call
    refine ⟨rfl, below, mappable.2, fun absent page granted => ?_⟩
    obtain ⟨done, -, result⟩ :=
      unmapPages_of_mapped wellFormed populated fits aligned mappable below mapping
    have afterIs := (Prod.mk.inj (Prod.mk.inj (Option.some.inj (call.symm.trans result))).2).2
    rw [afterIs] at unchanged
    by_contra lost
    rcases done.tables with ⟨-, present, -⟩ | ⟨other, taken, isPage, fresh, -, linked, -, used⟩
    · exact present absent
    obtain rfl : other = page := Option.some.inj (taken.symm.trans granted)
    have here := linked (pdx vaddr) (pdx_lt vaddr)
    rw [if_pos rfl] at here
    have stays := new_table_stays (by rw [used]; exact mem_cons_self) here isPage
      done.wellFormed fits lost
    rw [unchanged.inUse] at stays
    exact fresh stays
  · rintro ⟨rfl, below, small, returned⟩
    obtain ⟨done, there, result⟩ := unmapPages_of_mapped wellFormed populated fits aligned
      ⟨physicalAligned, small⟩ below mapping
    refine ⟨_, result, ?_⟩
    by_cases absent : pde pgindex kernel (pdx vaddr) = 0
    · rcases done.tables with ⟨-, present, -⟩ | ⟨granted, taken, isPage, -, -, linked, -⟩
      · exact absurd absent present
      have here := linked (pdx vaddr) (pdx_lt vaddr)
      rw [if_pos rfl] at here
      obtain ⟨after, call, cleared⟩ := unmapPage_spec done.wellFormed
        done.populated below there fun page _ pageFrame tableIs => by
          obtain rfl : granted = page := pa2kva_injective isPage pageFrame (here.symm.trans tableIs)
          exact Or.inr (returned absent granted taken)
      have afterIs := (Prod.mk.inj (Prod.mk.inj (Option.some.inj (call.symm.trans result))).2).2
      rw [← afterIs]
      exact unchanged_of_new_table done cleared absent (returned absent)
    · exact unchanged_of_old_table wellFormed populated fits done absent

end Mips

/-! ### The i386 port -/

namespace I386

/-- No leaf table is empty. -/
def Populated (pgindex : Nat) (kernel : Kernel) : Prop :=
  ∀ index < 1024, present (pde pgindex kernel index) = true →
    ∃ place < 1024, present (kernel.word .ilp32 (table pgindex kernel index) place) = true

/-- The same directory, the same leaf tables and the same pages in use. -/
structure Unchanged (pgindex : Nat) (before after : Kernel) : Prop where
  directory : ∀ index < 1024, pde pgindex after index = pde pgindex before index
  leaves : ∀ index < 1024, present (pde pgindex before index) = true → ∀ place < 1024,
    after.word .ilp32 (table pgindex before index) place =
      before.word .ilp32 (table pgindex before index) place
  inUse : after.frames.inUse = before.frames.inUse
  stray : after.frames.stray = before.frames.stray

section Loop

variable {pgindex va vcur unmapped pcur paddr bytes stored : Nat} {desc : PageDesc}
  {machine after : Machine}

theorem word_lt (table index : Nat) : machine.word table index < 2 ^ 32 :=
  mod_lt _ (Nat.two_pow_pos 32)

theorem pgfree_outside (paddr : Nat) : (machine.pgfree paddr).outside = machine.outside := rfl

theorem setWord_inside {table value : Nat}
    (inside : (machine.setWord table index value).outside = false) :
    machine.outside = false ∧ index < 1024 :=
  access_inside inside

theorem freeLeafTable_inside
    (inside : (freeLeafTable pgindex index machine).outside = false) : machine.outside = false := by
  unfold freeLeafTable at inside
  dsimp only at inside
  split at inside
  · exact (access_inside inside).1
  · have recorded := (setWord_inside inside).1
    rwa [pgfree_outside] at recorded

theorem freeIntermediate_inside {vaddr size : Nat}
    (inside : (freeIntermediate pgindex vaddr size machine).outside = false) :
    machine.outside = false := by
  unfold freeIntermediate at inside
  revert inside
  generalize List.range' _ _ = indices
  induction indices generalizing machine with
  | nil => exact id
  | cons index rest inductionHypothesis =>
    intro inside
    rw [foldl_cons] at inside
    exact freeLeafTable_inside (inductionHypothesis inside)

/-- Without `create`, `__getpagedesc` finds a leaf table or fails. -/
theorem getpagedesc_find (pgindex va : Nat) (desc : PageDesc) (machine : Machine) :
    (∃ found middle, getpagedesc pgindex va false desc machine = (-enoent, found, middle)) ∨
    ∃ found middle, getpagedesc pgindex va false desc machine = (0, found, middle) := by
  unfold getpagedesc
  dsimp only
  split
  · exact Or.inr ⟨_, _, rfl⟩
  · exact Or.inl ⟨_, _, rfl⟩

/-- What a loop of `unmap_pages` that has started leaves recorded, and what it has stored. -/
theorem unmapLoop_inside (pages : Nat) (started : unmapped ≠ 0)
    (call : unmapLoop pgindex pages vcur unmapped pcur paddr desc machine =
      some (bytes, stored, after)) :
    stored = paddr ∧ (after.outside = false → machine.outside = false) := by
  induction pages generalizing vcur unmapped pcur desc machine with
  | zero =>
    cases call
    exact ⟨rfl, id⟩
  | succ pages inductionHypothesis =>
    rcases getpagedesc_find pgindex vcur desc machine with
      ⟨found, middle, lookup⟩ | ⟨found, middle, lookup⟩
    · simp only [unmapLoop, lookup, if_pos (show -enoent < 0 by decide)] at call
      cases call
    · simp only [unmapLoop, lookup, if_neg (Int.lt_irrefl 0), if_neg started] at call
      split at call
      · cases call
        exact ⟨rfl, fun inside => (getpagedesc_inside lookup (access_inside inside).1).1⟩
      · obtain ⟨same, rest⟩ := inductionHypothesis (by omega) call
        exact ⟨same, fun inside => (getpagedesc_inside lookup (access_inside (rest inside)).1).1⟩

/-- The first page: the index of its entry is recorded, and its physical address is stored. -/
theorem unmapLoop_first
    (call : unmapLoop pgindex (pages + 1) va 0 0 paddr desc machine = some (bytes, stored, after))
    (inside : after.outside = false) :
    machine.outside = false ∧ ptx va < 1024 ∧ stored < 2 ^ 32 := by
  rcases getpagedesc_find pgindex va desc machine with
    ⟨found, middle, lookup⟩ | ⟨found, middle, lookup⟩
  · simp only [unmapLoop, lookup, if_pos (show -enoent < 0 by decide)] at call
    cases call
  · simp only [unmapLoop, lookup, if_neg (Int.lt_irrefl 0), if_true] at call
    obtain ⟨same, rest⟩ := unmapLoop_inside pages (show pageSize ≠ 0 by decide) call
    obtain ⟨recorded, bound⟩ := access_inside (rest inside)
    obtain ⟨before, index⟩ := getpagedesc_inside lookup recorded
    have small := @word_lt middle found.ptep found.ptx
    rw [ptePaddr_eq small] at same
    exact ⟨before, by rwa [← index rfl], by omega⟩

end Loop

section Low

variable {pgindex vaddr paddr size flags pa : Nat} {machine mapped : Machine}

/-- `unmap_pages` for one page in the first four megabytes, with a leaf table. -/
theorem unmapPages_low (there : present (pde pgindex machine.kernel 0) = true)
    (low : vaddr + 4096 ≤ 2 ^ 22) :
    unmapPages pgindex vaddr pageSize pa machine =
      some (pageSize, ptePaddr (machine.word (table pgindex machine.kernel 0) (vaddr / 4096)),
        freeLeafTable pgindex 0
          (machine.setWord (table pgindex machine.kernel 0) (vaddr / 4096) 0)) := by
  have below : vaddr < 2 ^ 22 := by omega
  have count := @unmap_count vaddr pageSize (by omega) (by decide) (by decide)
  have noWrap : vaddr + pageSize < 2 ^ 32 := by
    unfold pageSize
    omega
  rw [if_pos noWrap, show pageSize / 4096 = 1 from rfl] at count
  have lastPage : pdx (wrapSub (2 ^ 32) ((vaddr + pageSize) % 2 ^ 32) pageSize) = 0 := by
    rw [mod_eq_of_lt noWrap, wrapSub_of_le (Nat.le_add_left _ _) noWrap, Nat.add_sub_cancel]
    exact (indices_low below).1
  have loop : unmapLoop pgindex 1 vaddr 0 0 pa ⟨0, 0⟩ machine =
      some (pageSize, ptePaddr (machine.word (table pgindex machine.kernel 0) (vaddr / 4096)),
        machine.setWord (table pgindex machine.kernel 0) (vaddr / 4096) 0) := by
    simp only [unmapLoop, getpagedesc_low below there, if_neg (Int.lt_irrefl 0), if_true]
  have clean : ∀ cleared : Machine, freeIntermediate pgindex vaddr pageSize cleared =
      freeLeafTable pgindex 0 cleared := by
    intro cleared
    rw [freeIntermediate, lastPage, (indices_low below).1, Nat.zero_add, Nat.sub_zero,
      range'_one, foldl_cons, foldl_nil]
  simp only [unmapPages, count, loop, clean]

/-- The loop of `unmap_pages` stops at a second page that has been mapped. -/
theorem unmapLoop_low_second {after : Machine} (wellFormed : WellFormed pgindex machine.kernel)
    (there : present (pde pgindex machine.kernel 0) = true) (low : vaddr + 8192 ≤ 2 ^ 22)
    (marked : present (machine.kernel.word .ilp32 (table pgindex machine.kernel 0)
      ((vaddr + 4096) / 4096)) = true)
    (call : unmapLoop pgindex (pages + 2) vaddr 0 0 pa ⟨0, 0⟩ machine =
      some (bytes, stored, after)) : bytes = pageSize := by
  have below : vaddr < 2 ^ 22 := by omega
  have nextLow : vaddr + 4096 < 2 ^ 22 := by omega
  have next : (vaddr + pageSize) % 2 ^ 32 = vaddr + 4096 :=
    mod_eq_of_lt (show vaddr + 4096 < 2 ^ 32 by omega)
  have leafTable := wellFormed.leafTable (by decide) there
  have bound := (indices_low below).2.2
  have nextBound := (indices_low nextLow).2.2
  rw [unmapLoop] at call
  simp only [getpagedesc_low below there, if_neg (Int.lt_irrefl 0), if_true, next] at call
  have directory : pde pgindex
      (machine.setWord (table pgindex machine.kernel 0) (vaddr / 4096) 0).kernel
      0 = pde pgindex machine.kernel 0 :=
    word_setWord_of_ne (wellFormed.rootTable.slot_ne leafTable (by decide) bound
      (Or.inl (wellFormed.notRoot 0 (by decide) there).symm))
  have entry : (machine.setWord (table pgindex machine.kernel 0) (vaddr / 4096) 0).word
      (table pgindex machine.kernel 0) ((vaddr + 4096) / 4096) =
      machine.kernel.word .ilp32 (table pgindex machine.kernel 0) ((vaddr + 4096) / 4096) :=
    word_setWord_of_ne (leafTable.slot_ne leafTable nextBound bound (Or.inr (by omega)))
  have small := @word_lt machine (table pgindex machine.kernel 0) (vaddr / 4096)
  have sameTable : table pgindex
      (machine.setWord (table pgindex machine.kernel 0) (vaddr / 4096) 0).kernel 0 =
      table pgindex machine.kernel 0 := by
    rw [table, directory, ← table]
  have stops : machine.kernel.word .ilp32 (table pgindex machine.kernel 0) ((vaddr + 4096) / 4096) ≠
      ptePaddr (machine.word (table pgindex machine.kernel 0) (vaddr / 4096)) + pageSize := by
    intro same
    rw [present_iff, same, ptePaddr_eq small, show pageSize = 4096 from rfl] at marked
    omega
  rw [unmapLoop] at call
  simp only [getpagedesc_low nextLow (directory.symm ▸ there), if_neg (Int.lt_irrefl 0),
    if_neg (show ¬ pageSize = 0 by decide), sameTable, entry, if_pos stops] at call
  cases call
  rfl

/-- A call of `unmap_pages` that returns the size of the range, with every index inside of its
table, has been for one page in the first four megabytes, and has stored an address of 32 bits. -/
theorem size_of_unmapped {after : Machine} (wellFormed : WellFormed pgindex machine.kernel)
    (fits : vaddr < 2 ^ 32) (some : 0 < size) (total : size < 2 ^ 32)
    (mapping : mapPages pgindex vaddr paddr size flags machine = (0, mapped))
    (call : unmapPages pgindex vaddr size pa mapped = .some (size, paddr, after))
    (inside : after.outside = false) :
    size = pageSize ∧ vaddr + pageSize ≤ 2 ^ 22 ∧ paddr < 2 ^ 32 := by
  obtain ⟨aligned, physicalAligned, whole⟩ := mapPages_aligned mapping
  unfold unmapPages at call
  rw [unmap_count fits whole total] at call
  split at call
  · cases call
  rename_i bytes stored middle loop
  simp only [Option.some.injEq, Prod.mk.injEq] at call
  obtain ⟨rfl, rfl, rfl⟩ := call
  have recorded := freeIntermediate_inside inside
  by_cases noWrap : vaddr + bytes < 2 ^ 32
  · rw [if_pos noWrap] at loop
    obtain ⟨later, count⟩ : ∃ later, bytes / 4096 = later + 1 := ⟨bytes / 4096 - 1, by omega⟩
    rw [count] at loop
    obtain ⟨clean, -, small⟩ := unmapLoop_first loop recorded
    have low : vaddr + bytes ≤ 2 ^ 22 := by
      rcases mapPages_inside (by omega) (by omega) mapping clean with none | low
      · omega
      · exact low
    have one : bytes = pageSize := by
      by_contra different
      have pages : pageSize = 4096 := rfl
      obtain ⟨fewer, rfl⟩ : ∃ fewer, later = fewer + 1 := ⟨later - 1, by omega⟩
      obtain ⟨opened, formed, there, entries, -⟩ :=
        mapPages_low wellFormed some low (by omega) mapping
      have directory := entries.directory 0 (by decide)
      have second := entries.inside ((vaddr + 4096) / 4096) (by omega)
      rw [if_pos (by omega)] at second
      refine different (unmapLoop_low_second
        (formed.congr entries.directory (congrArg Pool.inUse entries.frames))
        (by rw [directory]; exact there) (by omega) ?_ loop)
      rw [table, directory, ← table, second]
      exact mapped_present flags (by omega)
    exact ⟨one, by omega, small⟩
  · rw [if_neg noWrap] at loop
    cases loop
    exact absurd some (lt_irrefl 0)

theorem tableUsed_iff {leaf : Nat} : tableUsed machine leaf = true ↔
    ∃ place < 1024, present (machine.kernel.word .ilp32 leaf place) = true := by
  rw [tableUsed, any_eq_true]
  exact ⟨fun ⟨place, member, used⟩ => ⟨place, mem_range.mp member, used⟩,
    fun ⟨place, bound, used⟩ => ⟨place, mem_range.mpr bound, used⟩⟩

/-- The pass over the directory entry at index 0 does not store into a leaf table. -/
theorem word_freeLeafTable {leaf place : Nat} (rootTable : IsTable .ilp32 pgindex)
    (leafTable : IsTable .ilp32 leaf) (different : leaf ≠ pgindex) (bound : place < 1024) :
    (freeLeafTable pgindex 0 machine).kernel.word .ilp32 leaf place =
      machine.kernel.word .ilp32 leaf place := by
  unfold freeLeafTable
  dsimp only
  split
  · rfl
  · refine (word_setWord_of_ne (leafTable.slot_ne rootTable bound (by decide)
      (Or.inl different))).trans ?_
    show (machine.kernel.pgfree _).word .ilp32 leaf place = _
    unfold Kernel.pgfree
    split <;> rfl

/-- The pass does not give back the leaf table: what it frees is another page. -/
theorem mem_freeLeafTable {page : Nat} (member : page ∈ machine.kernel.frames.inUse)
    (here : ptePaddr (pde pgindex machine.kernel 0) = page) :
    page ∈ (freeLeafTable pgindex 0 machine).kernel.frames.inUse := by
  have address : ptePaddr (machine.word pgindex 0) = page := here
  have other : page ≠ kva2pa page := by
    unfold kva2pa kernBase
    omega
  unfold freeLeafTable
  simp only [address]
  split
  · exact member
  · show page ∈ (machine.kernel.pgfree _).frames.inUse
    unfold Kernel.pgfree
    split
    · exact Pool.mem_give_of_ne member other
    · exact member

/-- One page is mapped in the first four megabytes and its entry is cleared again: what
`unmap_pages` returns, and what it has done before it looks at the leaf table. -/
theorem unmapPages_of_mapped {opened : Machine} (formed : WellFormed pgindex opened.kernel)
    (there : present (pde pgindex opened.kernel 0) = true) (low : vaddr + 4096 ≤ 2 ^ 22)
    (aligned : vaddr % 4096 = 0) (physicalAligned : paddr % 4096 = 0) (small : paddr < 2 ^ 32)
    (entries : Stored pgindex vaddr paddr pageSize (pgtablePerm flags) opened mapped) :
    ∃ cleared, unmapPages pgindex vaddr pageSize pa mapped =
        some (pageSize, paddr, freeLeafTable pgindex 0 cleared) ∧
      Stored pgindex vaddr 0 pageSize 0 opened cleared := by
  have directory := entries.directory 0 (by decide)
  have mappedThere : present (pde pgindex mapped.kernel 0) = true := by
    rw [directory]
    exact there
  have entry := entries.inside (vaddr / 4096) (by omega)
  have offset : vaddr / 4096 * 4096 - vaddr = 0 := by omega
  obtain ⟨narrow, -, address, -⟩ := mapped_fields flags physicalAligned small
  rw [if_pos (by unfold pageSize; omega), offset, add_zero, narrow, table, ← directory, ← table]
    at entry
  refine ⟨mapped.setWord (table pgindex mapped.kernel 0) (vaddr / 4096) 0, ?_, entries.again
    (stored_one
      (formed.congr entries.directory (congrArg Pool.inUse entries.frames)) mappedThere (by omega)
      aligned)⟩
  rw [unmapPages_low mappedThere low, Machine.word, entry, address]

/-- `unmap_pages` undoes `map_pages`, and no index has been outside of its table. -/
def Undone (pgindex vaddr paddr size pa : Nat) (machine mapped : Machine) : Prop :=
  ∃ after, unmapPages pgindex vaddr size pa mapped = some (size, paddr, after) ∧
    after.outside = false ∧ Unchanged pgindex machine.kernel after.kernel

/-- What is left after one page was mapped and unmapped in a leaf table: nothing, if its entry was
zero before. -/
theorem unchanged_of_stored (populated : Populated pgindex machine.kernel)
    (aligned : vaddr % 4096 = 0) (there : present (pde pgindex machine.kernel 0) = true)
    (zero : machine.kernel.word .ilp32 (table pgindex machine.kernel 0) (vaddr / 4096) = 0)
    {cleared : Machine} (restored : Stored pgindex vaddr 0 pageSize 0 machine cleared) :
    freeLeafTable pgindex 0 cleared = cleared ∧
      Unchanged pgindex machine.kernel cleared.kernel := by
  have leafWords : ∀ place < 1024,
      cleared.kernel.word .ilp32 (table pgindex machine.kernel 0) place =
      machine.kernel.word .ilp32 (table pgindex machine.kernel 0) place := by
    intro place placeBound
    rw [restored.inside place placeBound]
    split
    · rename_i here
      unfold pageSize at here
      obtain rfl : place = vaddr / 4096 := by omega
      have offset : vaddr / 4096 * 4096 - vaddr = 0 := by omega
      rw [zero, offset]
      rfl
    · rfl
  have used : tableUsed cleared (pa2kva (ptePaddr (cleared.word pgindex 0))) = true := by
    obtain ⟨place, placeBound, marked⟩ := populated 0 (by decide) there
    have directory : cleared.word pgindex 0 = pde pgindex machine.kernel 0 :=
      restored.directory 0 (by decide)
    rw [directory]
    exact tableUsed_iff.mpr ⟨place, placeBound, by
      rw [← table, leafWords place placeBound]; exact marked⟩
  constructor
  · unfold freeLeafTable
    simp only [used, if_true]
    exact access_of_lt (by decide)
  · refine ⟨restored.directory, fun index bound present place placeBound => ?_,
      congrArg Pool.inUse restored.frames, congrArg Pool.stray restored.frames⟩
    by_cases first : index = 0
    · rw [first]
      exact leafWords place placeBound
    · exact restored.others index bound first present place placeBound

/-- In the i386 port `unmap_pages` undoes `map_pages` exactly for one page in the first four
megabytes that has a leaf table, with an entry of zero. -/
theorem undone_iff (wellFormed : WellFormed pgindex machine.kernel)
    (populated : Populated pgindex machine.kernel) (clean : machine.outside = false)
    (fits : vaddr < 2 ^ 32) (some : 0 < size) (total : size < 2 ^ 32)
    (mapping : mapPages pgindex vaddr paddr size flags machine = (0, mapped)) :
    Undone pgindex vaddr paddr size pa machine mapped ↔
      size = pageSize ∧ vaddr + pageSize ≤ 2 ^ 22 ∧ paddr < 2 ^ 32 ∧
        present (pde pgindex machine.kernel 0) = true ∧
        machine.kernel.word .ilp32 (table pgindex machine.kernel 0) (vaddr / 4096) = 0 := by
  obtain ⟨aligned, physicalAligned, -⟩ := mapPages_aligned mapping
  constructor
  · rintro ⟨after, call, inside, unchanged⟩
    obtain ⟨rfl, low, small⟩ := size_of_unmapped wellFormed fits some total mapping call inside
    have bound : vaddr / 4096 < 1024 := by
      omega
    obtain ⟨opened, formed, there, entries, first⟩ :=
      mapPages_low wellFormed some low (by unfold pageSize; omega) mapping
    obtain ⟨cleared, result, restored⟩ := unmapPages_of_mapped
      formed there low aligned physicalAligned small entries
    have afterIs := (Prod.mk.inj (Prod.mk.inj (Option.some.inj (call.symm.trans result))).2).2
    rw [afterIs] at unchanged
    refine ⟨rfl, low, small, ?_⟩
    rcases first with ⟨wasThere, rfl⟩ | ⟨-, page, frames, frame, fresh, granted, rfl⟩
    · refine ⟨wasThere, ?_⟩
      have leaf := unchanged.leaves 0 (by decide) wasThere (vaddr / 4096) bound
      have zero := restored.inside (vaddr / 4096) bound
      have offset : vaddr / 4096 * 4096 - vaddr = 0 := by omega
      rw [if_pos (by unfold pageSize; omega), offset] at zero
      rw [← leaf, word_freeLeafTable wellFormed.rootTable
        (wellFormed.leafTable (by decide) wasThere)
        (wellFormed.notRoot 0 (by decide) wasThere) bound, zero]
      rfl
    · exfalso
      have entry := @pde_linkTable _ 0 _ _ frames wellFormed (by decide) frame fresh 0 (by decide)
      rw [if_pos rfl] at entry
      have member : page ∈ frames.inUse := by
        rw [granted]
        exact mem_cons_self
      have stays := mem_freeLeafTable (by rw [restored.frames]; exact member)
        (by rw [restored.directory 0 (by decide), entry]; exact (linked_fields frame).2.2)
      rw [unchanged.inUse] at stays
      exact fresh stays
  · rintro ⟨rfl, low, small, there, zero⟩
    obtain ⟨opened, -, -, entries, first⟩ :=
      mapPages_low wellFormed some low (by unfold pageSize; omega) mapping
    obtain rfl : opened = machine := by
      rcases first with ⟨-, same⟩ | ⟨absent, -⟩
      · exact same
      · rw [there] at absent
        cases absent
    obtain ⟨cleared, result, restored⟩ := unmapPages_of_mapped
      wellFormed there low aligned physicalAligned small entries
    obtain ⟨kept, unchanged⟩ := unchanged_of_stored populated aligned there zero restored
    rw [kept] at result
    exact ⟨cleared, result, restored.outside.trans clean, unchanged⟩

end Low

end I386

/-! ### Both ports -/

/-- When `unmap_pages` undoes a call of `map_pages` that has returned 0. -/
theorem unmap_undoes_map_iff (pgindex vaddr paddr size flags pa : Nat) (fits : vaddr < 2 ^ 32)
    (some : 0 < size) (total : size < 2 ^ 32) :
    (∀ kernel mapped : Kernel, WellFormed .ilp32 pgindex kernel → Populated pgindex kernel →
      mapPages .ilp32 pgindex vaddr paddr size flags kernel = (0, mapped) →
      (Undone pgindex vaddr paddr size pa kernel mapped ↔
        size = pageSize ∧ vaddr + pageSize < 2 ^ 32 ∧ paddr < 2 ^ 32 ∧
          (pde pgindex kernel (pdx vaddr) = 0 → ∀ page, (pgalloc .ilp32 kernel).1 = .some page →
            kva2pa .ilp32 (pa2kva .ilp32 page) = page))) ∧
    ∀ machine mapped : I386.Machine, I386.WellFormed pgindex machine.kernel →
      I386.Populated pgindex machine.kernel → machine.outside = false →
      I386.mapPages pgindex vaddr paddr size flags machine = (0, mapped) →
      (I386.Undone pgindex vaddr paddr size pa machine mapped ↔
        size = pageSize ∧ vaddr + pageSize ≤ 2 ^ 22 ∧ paddr < 2 ^ 32 ∧
          I386.present (I386.pde pgindex machine.kernel 0) = true ∧
          machine.kernel.word .ilp32 (I386.table pgindex machine.kernel 0) (vaddr / 4096) = 0) :=
  ⟨fun _ _ wellFormed populated mapping => undone_iff wellFormed populated fits some total mapping,
    fun _ _ wellFormed populated clean mapping =>
      I386.undone_iff wellFormed populated clean fits some total mapping⟩

/-- A kernel with a page directory at physical page 0x1000 and a leaf table at 0x2000 that has one
entry. -/
def I386.oneLeaf : I386.Machine :=
  ⟨⟨fun address => if address = 0x80001000 then 0x2007 else if address = 0x80002014 then
    0x5005 else 0, ⟨[0x1000, 0x2000], [some 0x3000], false, false⟩, 0⟩, false⟩

theorem I386.oneLeaf_pde (bound : index < 1024) :
    I386.pde (I386.pa2kva 0x1000) I386.oneLeaf.kernel index = if index = 0 then 0x2007 else 0 := by
  have place : slot .ilp32 (I386.pa2kva 0x1000) index = 0x80001000 + index * 4 :=
    mod_eq_of_lt (show 0x80001000 + index * 4 < 2 ^ 32 by omega)
  rw [I386.pde, Kernel.word, place]
  by_cases zero : index = 0
  · rw [if_pos zero, zero]
    rfl
  · have first : ¬ 0x80001000 + index * 4 = 0x80001000 := by omega
    have second : ¬ 0x80001000 + index * 4 = 0x80002014 := by omega
    rw [if_neg zero]
    simp only [I386.oneLeaf, if_neg first, if_neg second, zero_mod]

theorem I386.oneLeaf_wellFormed : I386.WellFormed (I386.pa2kva 0x1000) I386.oneLeaf.kernel ∧
    I386.Populated (I386.pa2kva 0x1000) I386.oneLeaf.kernel := by
  have first : ∀ index < 1024,
      I386.present (I386.pde (I386.pa2kva 0x1000) I386.oneLeaf.kernel index) = true →
        index = 0 := by
    intro index bound there
    rw [I386.oneLeaf_pde bound] at there
    split at there
    · assumption
    · cases there
  refine ⟨⟨⟨0x1000, mem_cons_self, by decide, rfl⟩, fun index bound there => ?_,
    fun index bound there => ?_, fun index bound other otherBound there otherThere _ => ?_⟩,
    fun index bound there => ?_⟩
  · rw [first index bound there]
    decide
  · rw [first index bound there]
    decide
  · rw [first index bound there, first other otherBound otherThere]
  · rw [first index bound there]
    exact ⟨5, by decide, by decide⟩

/-- One page is mapped and unmapped in each of the ports. -/
theorem unmap_undoes_map_iff_page :
    Undone (pa2kva .ilp32 0x1000) 0x7000 0x9000 0x1000 0 oneDirectory
        (mapPages .ilp32 (pa2kva .ilp32 0x1000) 0x7000 0x9000 0x1000 0 oneDirectory).2 ∧
      I386.Undone (I386.pa2kva 0x1000) 0x7000 0x9000 0x1000 0 I386.oneLeaf
        (I386.mapPages (I386.pa2kva 0x1000) 0x7000 0x9000 0x1000 0 I386.oneLeaf).2 := by
  refine ⟨((unmap_undoes_map_iff _ 0x7000 0x9000 0x1000 0 0 (by decide) (by decide) (by decide)).1
      oneDirectory _ (oneDirectory_wellFormed .ilp32) (fun _ _ there =>
        absurd (zero_mod _) there)
      (Prod.ext (by decide +kernel) rfl)).mpr
      ⟨rfl, by decide, by decide, fun _ page granted => ?_⟩,
    ((unmap_undoes_map_iff _ 0x7000 0x9000 0x1000 0 0 (by decide) (by decide) (by decide)).2
      I386.oneLeaf _ I386.oneLeaf_wellFormed.1 I386.oneLeaf_wellFormed.2 rfl
      (Prod.ext (by decide +kernel) rfl)).mpr ⟨rfl, by decide, by decide, by decide, by decide⟩⟩
  have answer : (pgalloc .ilp32 oneDirectory).1 = some 0x2000 := by decide
  obtain rfl : 0x2000 = page := Option.some.inj (answer.symm.trans granted)
  decide

/-- Two pages are mapped: in both ports `unmap_pages` unmaps the first one only. -/
theorem unmapPages_first_page_only :
    (mapPages .ilp32 (pa2kva .ilp32 0x1000) 0x7000 0x9000 0x2000 0 oneDirectory).1 = 0 ∧
      (unmapPages .ilp32 (pa2kva .ilp32 0x1000) 0x7000 0x2000 0
        (mapPages .ilp32 (pa2kva .ilp32 0x1000) 0x7000 0x9000 0x2000 0 oneDirectory).2).map
          Prod.fst = some 0x1000 ∧
      (I386.mapPages (I386.pa2kva 0x1000) 0x7000 0x9000 0x2000 0 I386.oneLeaf).1 = 0 ∧
      (I386.unmapPages (I386.pa2kva 0x1000) 0x7000 0x2000 0
        (I386.mapPages (I386.pa2kva 0x1000) 0x7000 0x9000 0x2000 0 I386.oneLeaf).2).map Prod.fst =
          some 0x1000 := by
  decide +kernel

end AIMv6
