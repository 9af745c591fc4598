/-
This file says how the tree of tables of the 64-bit build grows, for the runs of `DirectoryRuns`.

When `pgalloc` grants a page for every path of a set that lacks its table, `__getpagedesc` and the
first pass of `map_pages` succeed along those paths and link tables on them and nowhere else; a
range with a mapped page and no missing table before it makes the first pass fail without a
change. The second pass changes entries of leaf tables only, to values that carry mode bits. The
release of directories gives up at a leaf table with an entry that is zero.

Addresses are taken as the code computes them: they wrap at the end of the address space, and the
tables translate their low bits.
-/

import Mathlib.Data.Finset.Union
import AIMv6.PageTablePages

namespace AIMv6

open List Kernel Radix Nat

/-! ### Addresses that wrap -/

/-- The tables translate the low bits of an address. -/
theorem indices_congr {first second : Nat} (same : first % 2 ^ 64 = second % 2 ^ 64) :
    dirPath .lp64 first = dirPath .lp64 second ∧ ptx .lp64 first = ptx .lp64 second := by
  have level : ∀ shift, shift = 12 ∨ shift = 21 ∨ shift = 30 ∨ shift = 39 →
      levelIndex .lp64 shift first = levelIndex .lp64 shift second := by
    intro shift cases
    rw [levelIndex_eq, levelIndex_eq]
    show first / 2 ^ shift % 512 = second / 2 ^ shift % 512
    rcases cases with rfl | rfl | rfl | rfl <;> omega
  refine ⟨map_congr_left fun shift member => Fin.ext (level shift ?_), level 12 (Or.inl rfl)⟩
  simp only [Abi.dirShifts, mem_cons, not_mem_nil, or_false] at member
  rcases member with rfl | rfl | rfl <;> decide

section Congr

variable {pgindex first second : Nat} (kernel : Kernel) (same : first % 2 ^ 64 = second % 2 ^ 64)

include same

theorem leaf_congr : leaf .lp64 pgindex kernel first = leaf .lp64 pgindex kernel second := by
  rw [leaf, (indices_congr same).1]
  rfl

theorem entry_congr : entry .lp64 pgindex kernel first = entry .lp64 pgindex kernel second := by
  rw [entry, leaf_congr kernel same, (indices_congr same).2]
  rfl

end Congr

theorem following_page (vcur page : Nat) :
    ((vcur + pageSize) % Abi.lp64.modulus + page * pageSize) % 2 ^ 64 =
      (vcur + (page + 1) * pageSize) % 2 ^ 64 := by
  rw [show Abi.lp64.modulus = 2 ^ 64 from rfl, mod_add_mod, succ_mul, add_assoc, add_comm pageSize]

/-- An address in the leaf table of another, at a given index. -/
theorem exists_address (va : Nat) (index : Fin Abi.lp64.nrPtentries) :
    ∃ other, dirPath .lp64 other = dirPath .lp64 va ∧ ptx .lp64 other = index := by
  have below : index.val < 512 := index.isLt
  refine ⟨va / 2 ^ 21 * 2 ^ 21 + index * 4096, ?_, ?_⟩
  · refine map_congr_left fun shift member => Fin.ext ?_
    show levelIndex .lp64 shift _ = levelIndex .lp64 shift _
    rw [levelIndex_eq, levelIndex_eq]
    refine congrArg (· % Abi.lp64.nrPtentries) ?_
    simp only [Abi.dirShifts, mem_cons, not_mem_nil, or_false] at member
    rcases member with rfl | rfl | rfl
    · show (va / 2 ^ 21 * 2 ^ 21 + index * 4096) / 2 ^ 39 = va / 2 ^ 39
      omega
    · show (va / 2 ^ 21 * 2 ^ 21 + index * 4096) / 2 ^ 30 = va / 2 ^ 30
      omega
    · show (va / 2 ^ 21 * 2 ^ 21 + index * 4096) / 2 ^ 21 = va / 2 ^ 21
      omega
  · rw [ptx, levelIndex_eq]
    show (va / 2 ^ 21 * 2 ^ 21 + index * 4096) / 2 ^ 12 % 512 = index
    omega

/-! ### Growing along paths -/

/-- The paths of some that do not arrive at a table. -/
def lacking (pgindex : Nat) (kernel : Kernel) (paths : Finset (List (Fin Abi.lp64.nrPtentries))) :
    Finset (List (Fin Abi.lp64.nrPtentries)) :=
  paths.filter fun path => walk (child .lp64 kernel) pgindex path = none

variable {kernel : Kernel} {path : List (Fin Abi.lp64.nrPtentries)} {va table : Nat}

theorem mem_lacking {pgindex : Nat} {paths : Finset (List (Fin Abi.lp64.nrPtentries))} :
    path ∈ lacking pgindex kernel paths ↔
      path ∈ paths ∧ walk (child .lp64 kernel) pgindex path = none :=
  Finset.mem_filter

/-- The paths to the tables of the pages of a range. -/
def rangePaths (vaddr pages : Nat) : Finset (List (Fin Abi.lp64.nrPtentries)) :=
  (Finset.range pages).biUnion fun page => (dirPath .lp64 (vaddr + page * pageSize)).inits.toFinset

/-- The pages in use that did not belong to others before are tables of the tree. -/
def Accounted (pgindex : Nat) (others : List Nat) (kernel : Kernel) : Prop :=
  ∀ paddr ∈ kernel.frames.inUse, paddr ∈ others ∨
    Reached (child .lp64 kernel) pgindex Abi.lp64.depth (pa2kva .lp64 paddr)

/-- A kernel in which every table that some paths lack can be allocated. -/
structure Supplied (pgindex : Nat) (others : List Nat)
    (paths : Finset (List (Fin Abi.lp64.nrPtentries))) (kernel : Kernel) : Prop where
  wellFormed : WellFormed .lp64 pgindex kernel
  accounted : Accounted pgindex others kernel
  grants : kernel.frames.Grants (isFrame .lp64) (lacking pgindex kernel paths).card

/-- The tree grows along some paths only. -/
structure Grows (pgindex : Nat) (others : List Nat)
    (paths : Finset (List (Fin Abi.lp64.nrPtentries))) (before after : Kernel) : Prop where
  supplied : Supplied pgindex others paths after
  extension : Extends .lp64 pgindex before after
  onlyPaths : ∀ path, path.length ≤ Abi.lp64.depth →
    walk (child .lp64 after) pgindex path ≠ none →
      walk (child .lp64 before) pgindex path ≠ none ∨ path ∈ paths

section Growth

variable {pgindex : Nat} {others : List Nat} {paths : Finset (List (Fin Abi.lp64.nrPtentries))}

theorem Grows.refl (supplied : Supplied pgindex others paths kernel) :
    Grows pgindex others paths kernel kernel :=
  ⟨supplied, Extends.refl supplied.wellFormed, fun _ _ arrives => Or.inl arrives⟩

theorem Grows.trans {first second third : Kernel} (before : Grows pgindex others paths first second)
    (after : Grows pgindex others paths second third) : Grows pgindex others paths first third := by
  refine ⟨after.supplied, before.extension.trans after.extension, fun path short arrives => ?_⟩
  rcases after.onlyPaths path short arrives with earlier | member
  · exact before.onlyPaths path short earlier
  · exact Or.inr member

variable (short : ∀ path ∈ paths, path.length ≤ Abi.lp64.depth)

include short

variable {directory : Nat} {index : Fin Abi.lp64.nrPtentries}

omit short in
theorem mem_lacking_of_absent (arrives : walk (child .lp64 kernel) pgindex path = some directory)
    (absent : kernel.word .lp64 directory index = 0) (member : path ++ [index] ∈ paths) :
    path ++ [index] ∈ lacking pgindex kernel paths := by
  refine mem_lacking.mpr ⟨member, ?_⟩
  rw [walk_concat, arrives]
  exact child_eq_none.mpr absent

/-- Linking a page that was granted takes one path from those that lack a table. -/
theorem link_grows {paddr count : Nat} {frames : Pool}
    (supplied : Supplied pgindex others paths kernel)
    (arrives : walk (child .lp64 kernel) pgindex path = some directory)
    (above : path.length < Abi.lp64.depth) (absent : kernel.word .lp64 directory index = 0)
    (member : path ++ [index] ∈ paths) (frame : isFrame .lp64 paddr = true)
    (fresh : paddr ∉ kernel.frames.inUse) (granted : frames.inUse = paddr :: kernel.frames.inUse)
    (left : (lacking pgindex kernel paths).card = count + 1)
    (grants : frames.Grants (isFrame .lp64) count) :
    Grows pgindex others paths kernel
      (linkTable .lp64 directory index paddr { kernel with frames }) := by
  have walks := @walk_linkTable .lp64 _ directory paddr _ frames path index
    supplied.wellFormed arrives above absent frame fresh
  obtain ⟨extension, linked⟩ := link_extends supplied.wellFormed arrives above absent frame fresh
    granted
  refine ⟨⟨extension.wellFormed, fun used inUse => ?_, ?_⟩, extension, fun target within => ?_⟩
  · rw [show (linkTable .lp64 directory index paddr { kernel with frames }).frames.inUse =
      paddr :: kernel.frames.inUse from granted] at inUse
    rcases mem_cons.mp inUse with rfl | old
    · exact Or.inr ⟨path ++ [index], short _ member, linked⟩
    · refine (supplied.accounted used old).imp_right ?_
      rintro ⟨target, within, reached⟩
      exact ⟨target, within, extension.walk_some target within _ reached⟩
  · have fewer : lacking pgindex (linkTable .lp64 directory index paddr { kernel with frames })
        paths = (lacking pgindex kernel paths).erase (path ++ [index]) := by
      ext target
      rw [mem_lacking, Finset.mem_erase, mem_lacking]
      constructor
      · rintro ⟨inside, none⟩
        rw [walks target (short target inside)] at none
        split at none
        · cases none
        · rename_i different
          exact ⟨different, inside, none⟩
      · rintro ⟨different, inside, none⟩
        rw [walks target (short target inside), if_neg different]
        exact ⟨inside, none⟩
    rw [fewer, Finset.card_erase_of_mem (mem_lacking_of_absent arrives absent member), left]
    exact grants
  · rw [walks target within]
    split
    · rename_i here
      exact fun _ => Or.inr (here ▸ member)
    · exact Or.inl

/-- One level of the descent, with the pages that may be needed granted. -/
theorem descend_grows {directory : Nat} {kernel : Kernel}
    {path : List (Fin Abi.lp64.nrPtentries)} {index : Fin Abi.lp64.nrPtentries}
    (supplied : Supplied pgindex others paths kernel)
    (arrives : walk (child .lp64 kernel) pgindex path = some directory)
    (member : path ++ [index] ∈ paths) :
    ∃ next after, descend directory index kernel = (some next, after) ∧
      Grows pgindex others paths kernel after ∧
      walk (child .lp64 after) pgindex (path ++ [index]) = some next := by
  have above : path.length < Abi.lp64.depth := by
    have bound := short _ member
    rw [length_append, length_singleton] at bound
    exact bound
  unfold descend
  by_cases absent : kernel.word .lp64 directory index = 0
  · rw [if_pos absent]
    obtain ⟨count, left⟩ := exists_eq_succ_of_ne_zero (Finset.card_ne_zero_of_mem
      (mem_lacking_of_absent arrives absent member))
    have grants := supplied.grants
    rw [left] at grants
    obtain ⟨paddr, frames, taken, frame, fresh, granted, later⟩ := grants.take
    have growth := link_grows short supplied arrives above absent member frame fresh
      granted left later
    have linked := (link_extends supplied.wellFormed arrives above absent frame fresh granted).2
    have kept := growth.extension.walk_some path (le_of_lt above) directory arrives
    have page : pgalloc .lp64 kernel = (some paddr, { kernel with frames }) := by
      rw [pgalloc, taken]
    rw [addpgdir, page]
    refine ⟨_, _, rfl, growth, linked.trans (congrArg some ?_)⟩
    rw [walk_concat, kept] at linked
    exact (child_eq_some.mp linked).2.symm
  · rw [if_neg absent]
    refine ⟨_, kernel, rfl, Grows.refl supplied, ?_⟩
    rw [walk_concat, arrives]
    exact child_eq_some.mpr ⟨absent, rfl⟩

/-- With the tables it may lack granted, `__getpagedesc` grows the tree up to the leaf table. -/
theorem getpagedesc_grows (supplied : Supplied pgindex others paths kernel) (va : Nat)
    (desc : PageDesc) (along : ∀ path, path <+: dirPath .lp64 va → path ∈ paths) :
    ∃ found after, getpagedesc .lp64 pgindex va true desc kernel = (0, found, after) ∧
      Grows pgindex others paths kernel after ∧ leaf .lp64 pgindex after va = some found.ptev ∧
      found.ptx = ptx .lp64 va := by
  show ∃ found after, getpagedesc64 pgindex va true desc kernel = _ ∧ _
  simp only [getpagedesc64, Bool.not_true, Bool.false_eq_true, if_false]
  obtain ⟨pud, first, done, firstGrows, toPud⟩ := @descend_grows _ _ _ short _
    _ [] _ supplied rfl (along _ ⟨_, rfl⟩)
  replace done : descend pgindex (pgx va) kernel = _ := done
  simp only [done]
  obtain ⟨pmd, second, done, secondGrows, toPmd⟩ := descend_grows short
    firstGrows.supplied toPud (along _ ⟨_, rfl⟩)
  replace done : descend pud (pux va) first = _ := done
  simp only [done]
  obtain ⟨pte, third, done, thirdGrows, toPte⟩ := descend_grows short
    secondGrows.supplied toPmd (along _ ⟨[], rfl⟩)
  replace done : descend pmd (pmx va) second = _ := done
  simp only [done]
  exact ⟨_, third, rfl, (firstGrows.trans secondGrows).trans thirdGrows, toPte, rfl⟩

/-- The first pass over a range that is free and whose tables are granted. -/
theorem mapFirst_grows (pages : Nat) {vcur : Nat} {desc : PageDesc} {kernel : Kernel}
    (supplied : Supplied pgindex others paths kernel)
    (along : ∀ page < pages, ∀ path, path <+: dirPath .lp64 (vcur + page * pageSize) → path ∈ paths)
    (free : ∀ page < pages, entry .lp64 pgindex kernel (vcur + page * pageSize) = 0) :
    ∃ stop found after, mapFirst .lp64 pgindex pages vcur desc kernel = (0, stop, found, after) ∧
      Grows pgindex others paths kernel after ∧
      ∀ page < pages, ∃ table, leaf .lp64 pgindex after (vcur + page * pageSize) = some table := by
  induction pages generalizing vcur desc kernel with
  | zero =>
    exact ⟨_, _, _, rfl, Grows.refl supplied, fun page no => absurd no (not_lt_zero page)⟩
  | succ pages inductionHypothesis =>
    have alongFirst := along 0 (succ_pos pages)
    have freeFirst := free 0 (succ_pos pages)
    rw [zero_mul, add_zero] at alongFirst freeFirst
    obtain ⟨made, middle, done, growth, there, index⟩ :=
      getpagedesc_grows short supplied vcur desc alongFirst
    have same : ∀ page, ((vcur + pageSize) % Abi.lp64.modulus + page * pageSize) % 2 ^ 64 =
          (vcur + (page + 1) * pageSize) % 2 ^ 64 := following_page vcur
    obtain ⟨stop, found, after, rest, later, leaves⟩ :=
      @inductionHypothesis ((vcur + pageSize) % Abi.lp64.modulus) _ _ growth.supplied
        (fun page bound path inside => by
          rw [(indices_congr (same page)).1] at inside
          exact along (page + 1) (succ_lt_succ bound) path inside)
        (fun page bound => by
          rw [entry_congr middle (same page), growth.extension.entry_eq]
          exact free (page + 1) (succ_lt_succ bound))
    have empty : middle.word .lp64 made.ptev made.ptx = 0 := by
      rw [index, ← entry_of_leaf there, growth.extension.entry_eq]
      exact freeFirst
    refine ⟨stop, found, after, ?_, growth.trans later, fun page bound => ?_⟩
    · unfold mapFirst
      simp only [done, if_neg (show ¬ (0 : Int) = -enomem by decide), empty, ne_eq,
        not_true_eq_false, if_false]
      exact rest
    · cases page with
      | zero =>
        rw [zero_mul, add_zero]
        exact ⟨made.ptev, later.extension.leaf_some there⟩
      | succ page =>
        obtain ⟨table, leafThere⟩ := leaves page (lt_of_succ_lt_succ bound)
        exact ⟨table, (leaf_congr after (same page)).symm.trans leafThere⟩

end Growth

/-! ### Meeting a mapped page -/

section Blocked

variable {pgindex : Nat} {kernel : Kernel}

/-- The tables on the way to a leaf table that is there. -/
theorem directories_of_leaf (there : leaf .lp64 pgindex kernel va = some table) :
    kernel.word .lp64 pgindex (pgx va) ≠ 0 ∧
      kernel.word .lp64 (kernel.word .lp64 pgindex (pgx va)) (pux va) ≠ 0 ∧
      kernel.word .lp64 (kernel.word .lp64 (kernel.word .lp64 pgindex (pgx va)) (pux va)) (pmx va) =
        table ∧ table ≠ 0 := by
  rw [leaf_lp64] at there
  obtain ⟨pud, toPud, there⟩ := Option.bind_eq_some_iff.mp there
  obtain ⟨pmd, toPmd, toTable⟩ := Option.bind_eq_some_iff.mp there
  obtain ⟨pudNonzero, rfl⟩ := child_eq_some.mp toPud
  obtain ⟨pmdNonzero, rfl⟩ := child_eq_some.mp toPmd
  obtain ⟨nonzero, word⟩ := child_eq_some.mp toTable
  exact ⟨pudNonzero, pmdNonzero, word, nonzero⟩

theorem getpagedesc_present (desc : PageDesc) (there : leaf .lp64 pgindex kernel va = some table) :
    ∃ found, getpagedesc .lp64 pgindex va true desc kernel = (0, found, kernel) ∧
      found.ptev = table ∧ found.ptx = ptx .lp64 va := by
  obtain ⟨noPud, noPmd, word, nonzero⟩ := directories_of_leaf there
  show ∃ found, getpagedesc64 pgindex va true desc kernel = _ ∧ _
  rw [← word] at nonzero
  simp only [getpagedesc64, descend, Bool.not_true, Bool.false_eq_true, if_false, if_neg noPud,
    if_neg noPmd, if_neg nonzero]
  exact ⟨_, rfl, word, rfl⟩

/-- `__free_intermediate_pgtable` gives up at a leaf table with an entry that is zero. -/
theorem freeTables_keeps {index : Nat} (desc : PageDesc)
    (there : leaf .lp64 pgindex kernel va = some table) (bound : index < Abi.lp64.nrPtentries)
    (zero : kernel.word .lp64 table index = 0) :
    (freeTables pgindex va desc kernel).2 = kernel := by
  obtain ⟨noPud, noPmd, word, nonzero⟩ := directories_of_leaf there
  rw [← word] at nonzero zero
  have found : (getpagedesc64 pgindex va false desc kernel).2.1.pmdv =
        kernel.word .lp64 (kernel.word .lp64 pgindex (pgx va)) (pux va) ∧
      (getpagedesc64 pgindex va false desc kernel).2.1.pmx = pmx va := by
    simp only [getpagedesc64, Bool.not_false, if_true, findpagedesc64, if_neg noPud, if_neg noPmd,
      if_neg nonzero, and_self]
  have gives : delEmptyPgdir (kernel.word .lp64 (kernel.word .lp64 pgindex (pgx va)) (pux va))
      (pmx va) kernel = (1, kernel) := by
    rw [delEmptyPgdir, if_pos]
    exact any_eq_true.mpr ⟨index, mem_range.mpr bound, beq_iff_eq.mpr zero⟩
  unfold freeTables
  simp only [found.1, found.2, gives]

theorem freeIntermediate_keeps {vaddr size : Nat} (keeps : ∀ page < size / pageSize, ∃ table index,
      leaf .lp64 pgindex kernel (vaddr + page * pageSize) = some table ∧
        index < Abi.lp64.nrPtentries ∧ kernel.word .lp64 table index = 0) :
    freeIntermediate .lp64 pgindex vaddr size kernel = kernel := by
  show freeIntermediate64 pgindex vaddr size kernel = kernel
  refine List.foldlRecOn (motive := fun state : PageDesc × Kernel => state.2 = kernel) _ _ rfl
    fun state same page member => ?_
  obtain ⟨table, index, there, bound, zero⟩ := keeps page (mem_range.mp member)
  rw [same]
  exact freeTables_keeps _ ((leaf_congr kernel (mod_mod _ _)).trans there) bound zero

/-- The first pass over a range in which a page is mapped, and no table is missing up to it. -/
theorem mapFirst_blocked (pages : Nat) {vcur page : Nat} (desc : PageDesc) (inside : page < pages)
    (mapped : entry .lp64 pgindex kernel (vcur + page * pageSize) ≠ 0)
    (leaves : ∀ earlier ≤ page, ∃ table,
      leaf .lp64 pgindex kernel (vcur + earlier * pageSize) = some table) :
    ∃ reached stop found, reached ≤ page ∧
      mapFirst .lp64 pgindex pages vcur desc kernel = (-eexist, stop, found, kernel) ∧
      stop % 2 ^ 64 = (vcur + reached * pageSize) % 2 ^ 64 ∧
      ∀ earlier < reached, entry .lp64 pgindex kernel (vcur + earlier * pageSize) = 0 := by
  induction pages generalizing vcur page desc with
  | zero => exact absurd inside (not_lt_zero page)
  | succ pages inductionHypothesis =>
    obtain ⟨table, there⟩ := leaves 0 (zero_le page)
    rw [zero_mul, add_zero] at there
    obtain ⟨made, done, rfl, index⟩ := getpagedesc_present desc there
    have here := entry_of_leaf there
    rw [← index] at here
    unfold mapFirst
    simp only [done, if_neg (show ¬ (0 : Int) = -enomem by decide), ← here]
    by_cases zero : entry .lp64 pgindex kernel vcur = 0
    · cases page with
      | zero =>
        rw [zero_mul, add_zero] at mapped
        exact absurd zero mapped
      | succ page =>
        obtain ⟨reached, stop, found, bound, rest, place, before⟩ :=
          @inductionHypothesis ((vcur + pageSize) % Abi.lp64.modulus) _ _
            (lt_of_succ_lt_succ inside) (by rwa [entry_congr kernel (following_page vcur page)])
            (fun earlier bound => by
              rw [leaf_congr kernel (following_page vcur earlier)]
              exact leaves (earlier + 1) (succ_le_succ bound))
        rw [if_neg (not_not.mpr zero), rest]
        refine ⟨reached + 1, stop, found, succ_le_succ bound, rfl,
          place.trans (following_page vcur reached), fun earlier sooner => ?_⟩
        cases earlier with
        | zero => rwa [zero_mul, add_zero]
        | succ earlier =>
          rw [← entry_congr kernel (following_page vcur earlier)]
          exact before earlier (lt_of_succ_lt_succ sooner)
    · rw [if_pos zero]
      exact ⟨0, vcur, made, zero_le page, rfl, by rw [zero_mul, add_zero],
        fun earlier sooner => absurd sooner (not_lt_zero earlier)⟩

end Blocked

/-! ### Stores into leaf tables -/

section Store

variable {pgindex : Nat} {kernel : Kernel} (wellFormed : WellFormed .lp64 pgindex kernel)

include wellFormed

/-- A store into a leaf table changes the entries that are read there. -/
theorem entry_setWord_ptx (value : Nat) (found : leaf .lp64 pgindex kernel va = some table)
    (page : Nat) :
    entry .lp64 pgindex (kernel.setWord .lp64 table (ptx .lp64 va) value) page =
      if leaf .lp64 pgindex kernel page = some table ∧ ptx .lp64 page = ptx .lp64 va then
        value % Abi.lp64.modulus
      else entry .lp64 pgindex kernel page := by
  have same := @leaf_setWord _ _ _ _ _ value _ wellFormed found (ptx_lt .lp64 va) page
  cases other : leaf .lp64 pgindex kernel page with
  | none =>
    rw [if_neg (fun both => absurd both.1 (by simp)), entry_of_no_leaf (same.trans other),
      entry_of_no_leaf other]
  | some otherTable =>
    rw [entry_of_leaf (same.trans other), entry_of_leaf other]
    by_cases here : some otherTable = some table ∧ ptx .lp64 page = ptx .lp64 va
    · rw [if_pos here, Option.some.inj here.1, here.2]
      exact word_setWord_same
    · rw [if_neg here]
      refine word_setWord_of_ne ((wellFormed.isTable (WellFormed.leaf_reached other)).slot_ne
        (wellFormed.isTable (WellFormed.leaf_reached found)) (ptx_lt .lp64 page) (ptx_lt .lp64 va)
        ?_)
      by_contra both
      push Not at both
      exact here ⟨congrArg some both.1, both.2⟩

end Store

/-- What stores of mapping entries may do: the tables stay, and an entry that changes carries mode
bits. -/
structure Stores (pgindex : Nat) (before after : Kernel) : Prop where
  wellFormed : WellFormed .lp64 pgindex after
  walk_eq : ∀ path : List (Fin Abi.lp64.nrPtentries), path.length ≤ Abi.lp64.depth →
    walk (child .lp64 after) pgindex path = walk (child .lp64 before) pgindex path
  frames_eq : after.frames = before.frames
  entry_or : ∀ page, entry .lp64 pgindex after page = entry .lp64 pgindex before page ∨
    entry .lp64 pgindex after page % pageSize ≠ 0

section Stores

variable {pgindex : Nat} {first second third : Kernel}

theorem Stores.trans (before : Stores pgindex first second) (after : Stores pgindex second third) :
    Stores pgindex first third := by
  refine ⟨after.wellFormed, fun path short => (after.walk_eq path short).trans
    (before.walk_eq path short), after.frames_eq.trans before.frames_eq, fun page => ?_⟩
  rcases after.entry_or page with same | marked
  · rw [same]
    exact before.entry_or page
  · exact Or.inr marked

theorem Stores.entry_ne_zero (stores : Stores pgindex first second) {page : Nat}
    (nonzero : entry .lp64 pgindex first page ≠ 0) : entry .lp64 pgindex second page ≠ 0 := by
  rcases stores.entry_or page with same | marked
  · rwa [same]
  · exact fun zero => marked (by rw [zero]; rfl)

theorem setWord_stores {value : Nat} (wellFormed : WellFormed .lp64 pgindex kernel)
    (found : leaf .lp64 pgindex kernel va = some table)
    (marked : value % Abi.lp64.modulus % pageSize ≠ 0) :
    Stores pgindex kernel (kernel.setWord .lp64 table (ptx .lp64 va) value) := by
  refine ⟨wellFormed_setWord wellFormed found (ptx_lt .lp64 va),
    walk_setWord wellFormed found (ptx_lt .lp64 va), rfl, fun page => ?_⟩
  rw [entry_setWord_ptx wellFormed value found page]
  split
  · exact Or.inr marked
  · exact Or.inl rfl

/-- The second pass, over pages whose leaf tables are there. -/
theorem mapSecond_stores {flags : Nat} (pages : Nat) {pcur vcur : Nat} (desc : PageDesc)
    {kernel : Kernel} (wellFormed : WellFormed .lp64 pgindex kernel)
    (leaves : ∀ page < pages, ∃ table,
      leaf .lp64 pgindex kernel (vcur + page * pageSize) = some table) :
    Stores pgindex kernel
      (mapSecond .lp64 pgindex (pgtablePerm flags) pages pcur vcur desc kernel) ∧
      ∀ page < pages, entry .lp64 pgindex
        (mapSecond .lp64 pgindex (pgtablePerm flags) pages pcur vcur desc kernel)
        (vcur + page * pageSize) ≠ 0 := by
  induction pages generalizing pcur vcur desc kernel with
  | zero =>
    exact ⟨⟨wellFormed, fun _ _ => rfl, rfl, fun _ => Or.inl rfl⟩,
      fun page no => absurd no (not_lt_zero page)⟩
  | succ pages inductionHypothesis =>
    obtain ⟨table, there⟩ := leaves 0 (succ_pos pages)
    rw [zero_mul, add_zero] at there
    unfold mapSecond
    rcases getpagedesc_find .lp64 pgindex vcur desc kernel with ⟨missing, -⟩ |
      ⟨made, found, index, call⟩
    · rw [missing] at there
      cases there
    simp only [call, index]
    have marked : (pcur ||| pgtablePerm flags) % Abi.lp64.modulus % pageSize ≠ 0 := by
      rw [mod_mod_of_dvd _ (by decide)]
      exact pgtablePerm_or_low pcur flags
    have stores := setWord_stores wellFormed found marked
    obtain ⟨later, entries⟩ := @inductionHypothesis (pcur + pageSize)
      ((vcur + pageSize) % Abi.lp64.modulus) _ _ stores.wellFormed (fun page bound => by
        obtain ⟨other, leafThere⟩ := leaves (page + 1) (succ_lt_succ bound)
        exact ⟨other, (leaf_congr _ (following_page vcur page)).trans
          ((stores.walk_eq _ (le_of_eq (length_dirPath .lp64 _))).trans leafThere)⟩)
    refine ⟨stores.trans later, fun page bound => ?_⟩
    cases page with
    | zero =>
      refine later.entry_ne_zero fun zero => marked ?_
      rw [zero_mul, add_zero, entry_setWord_ptx wellFormed _ found, if_pos ⟨found, rfl⟩] at zero
      rw [zero]
      rfl
    | succ page =>
      rw [← entry_congr _ (following_page vcur page)]
      exact entries page (lt_of_succ_lt_succ bound)

end Stores

end AIMv6
