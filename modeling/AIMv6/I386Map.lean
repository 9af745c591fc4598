/-
This file proves what `map_pages` of the i386 port does to the walk of the processor.

An index into a leaf table is inside of the table exactly when the address is in the first
four megabytes. There the directory has one entry that matters, the one at index 0: the first
pass of `map_pages` creates its leaf table if there is none, and the second pass stores into
that table. The pass records every index it uses, so a call that has used none outside of a
table was for addresses in the first four megabytes.
-/

import AIMv6.I386PageTable
import AIMv6.PageTableTree

namespace AIMv6

open Nat

namespace I386

open Kernel

/-! ### Entries -/

variable {pte va index : Nat} {machine : Machine} {retcode : Int}

theorem present_iff : present pte = true ↔ pte % 2 = 1 := by
  rw [present, bne_iff_ne, show pteP = 2 ^ 1 - 1 from rfl, and_two_pow_sub_one_eq_mod]
  omega

theorem ptePaddr_eq (fits : pte < 2 ^ 32) : ptePaddr pte = pte / 4096 * 4096 :=
  alignBelow_two_pow 32 pte 12 fits (by decide)

theorem pteFlags_eq (pte : Nat) : pteFlags pte = pte % 4096 :=
  and_two_pow_sub_one_eq_mod pte 12

theorem pgtablePerm_cases (flags : Nat) : pgtablePerm flags = 5 ∨ pgtablePerm flags = 7 := by
  unfold pgtablePerm
  split
  · exact Or.inr rfl
  · exact Or.inl rfl

variable {paddr stop : Nat} {found : PageDesc} {after : Machine}

theorem mapped_present (flags : Nat) (aligned : paddr % 4096 = 0) :
    present ((paddr ||| pgtablePerm flags) % 2 ^ 32) = true := by
  have mode := pgtablePerm_cases flags
  rw [or_eq_add 12 aligned (by omega), present_iff]
  omega

/-- The fields of an entry that `map_pages` stores. -/
theorem mapped_fields {paddr : Nat} (flags : Nat) (aligned : paddr % pageSize = 0)
    (fits : paddr < 2 ^ 32) :
    (paddr ||| pgtablePerm flags) % 2 ^ 32 = paddr ||| pgtablePerm flags ∧
      present (paddr ||| pgtablePerm flags) = true ∧
      ptePaddr (paddr ||| pgtablePerm flags) = paddr ∧
      pteFlags (paddr ||| pgtablePerm flags) = pgtablePerm flags := by
  have mode := pgtablePerm_cases flags
  rw [or_eq_add 12 aligned (by omega)]
  unfold pageSize at aligned
  rw [present_iff, ptePaddr_eq (by omega), pteFlags_eq]
  omega

/-! ### Physical pages -/

theorem isFrame_iff : isFrame paddr = true ↔ paddr % pageSize = 0 ∧ paddr < 0x80000000 := by
  rw [isFrame, Bool.and_eq_true, decide_eq_true_iff, show pageSize = 2 ^ 12 from rfl,
    isAligned_two_pow]
  rfl

theorem pa2kva_of_frame (frame : isFrame paddr = true) : pa2kva paddr = 0x80000000 + paddr := by
  have below := (isFrame_iff.mp frame).2
  exact mod_eq_of_lt (show 0x80000000 + paddr < 2 ^ 32 by omega)

theorem isTable_pa2kva (frame : isFrame paddr = true) : IsTable .ilp32 (pa2kva paddr) := by
  obtain ⟨aligned, below⟩ := isFrame_iff.mp frame
  rw [pa2kva_of_frame frame]
  unfold pageSize at aligned
  refine ⟨?_, by omega, ?_⟩
  · unfold pageSize
    omega
  · show 0x80000000 + paddr + 4096 ≤ 2 ^ 32
    omega

theorem pa2kva_injective {first second : Nat} (firstFrame : isFrame first = true)
    (secondFrame : isFrame second = true) (same : pa2kva first = pa2kva second) :
    first = second := by
  rw [pa2kva_of_frame firstFrame, pa2kva_of_frame secondFrame] at same
  omega

/-- The fields of a directory entry that `__getpagedesc` stores. -/
theorem linked_fields (frame : isFrame paddr = true) :
    mkpte paddr (pteP ||| pteR ||| pteU) % 2 ^ 32 = mkpte paddr (pteP ||| pteR ||| pteU) ∧
      present (mkpte paddr (pteP ||| pteR ||| pteU)) = true ∧
      ptePaddr (mkpte paddr (pteP ||| pteR ||| pteU)) = paddr := by
  obtain ⟨aligned, below⟩ := isFrame_iff.mp frame
  have rounded : alignBelow 64 paddr pageSize = paddr := by
    unfold pageSize at aligned
    rw [show pageSize = 2 ^ 12 from rfl, alignBelow_two_pow 64 paddr 12 (by omega) (by decide)]
    omega
  rw [mkpte, rounded, show pteP ||| pteR ||| pteU = 7 from rfl, or_eq_add 12 aligned (by decide)]
  unfold pageSize at aligned
  rw [present_iff, ptePaddr_eq (by omega)]
  omega

/-! ### The page directory -/

/-- The entry of the page directory. -/
def pde (pgindex : Nat) (kernel : Kernel) (index : Nat) : Nat := kernel.word .ilp32 pgindex index

/-- The leaf table of an entry of the page directory. -/
def table (pgindex : Nat) (kernel : Kernel) (index : Nat) : Nat :=
  pa2kva (ptePaddr (pde pgindex kernel index))

/-- The directory and the leaf tables are different pages in use. -/
structure WellFormed (pgindex : Nat) (kernel : Kernel) : Prop where
  root : ∃ paddr ∈ kernel.frames.inUse, isFrame paddr = true ∧ pgindex = pa2kva paddr
  owned : ∀ index < 1024, present (pde pgindex kernel index) = true →
    ptePaddr (pde pgindex kernel index) ∈ kernel.frames.inUse ∧
      isFrame (ptePaddr (pde pgindex kernel index)) = true
  notRoot : ∀ index < 1024, present (pde pgindex kernel index) = true →
    table pgindex kernel index ≠ pgindex
  distinct : ∀ first < 1024, ∀ second < 1024, present (pde pgindex kernel first) = true →
    present (pde pgindex kernel second) = true →
    table pgindex kernel first = table pgindex kernel second → first = second

namespace WellFormed

variable {pgindex index : Nat} {kernel : Kernel}

theorem rootTable (wellFormed : WellFormed pgindex kernel) : IsTable .ilp32 pgindex := by
  obtain ⟨paddr, -, frame, rootIs⟩ := wellFormed.root
  rw [rootIs]
  exact isTable_pa2kva frame

theorem leafTable (wellFormed : WellFormed pgindex kernel) (bound : index < 1024)
    (there : present (pde pgindex kernel index) = true) :
    IsTable .ilp32 (table pgindex kernel index) := by
  rw [table]
  exact isTable_pa2kva (wellFormed.owned index bound there).2

end WellFormed

/-- No entry is new, and the pages in use are the same. -/
theorem WellFormed.shrink {pgindex : Nat} {before after : Kernel}
    (wellFormed : WellFormed pgindex before)
    (directory : ∀ index < 1024, present (pde pgindex after index) = true →
      pde pgindex after index = pde pgindex before index)
    (inUse : after.frames.inUse = before.frames.inUse) : WellFormed pgindex after := by
  refine ⟨inUse ▸ wellFormed.root, fun index bound there => ?_, fun index bound there => ?_,
    fun first firstBound second secondBound firstThere secondThere => ?_⟩
  · have same := directory index bound there
    rw [same, inUse]
    exact wellFormed.owned index bound (same ▸ there)
  · have same := directory index bound there
    rw [table, same]
    exact wellFormed.notRoot index bound (same ▸ there)
  · have firstSame := directory first firstBound firstThere
    have secondSame := directory second secondBound secondThere
    rw [table, table, firstSame, secondSame]
    exact wellFormed.distinct first firstBound second secondBound (firstSame ▸ firstThere)
      (secondSame ▸ secondThere)

/-- The same directory, the same pages in use: only words of leaf tables may differ. -/
theorem WellFormed.congr {pgindex : Nat} {before after : Kernel}
    (wellFormed : WellFormed pgindex before)
    (directory : ∀ index < 1024, pde pgindex after index = pde pgindex before index)
    (inUse : after.frames.inUse = before.frames.inUse) : WellFormed pgindex after :=
  wellFormed.shrink (fun index bound _ => directory index bound) inUse

/-! ### The walk by tables -/

/-- The walk of an entry of a leaf table. -/
def entryWalk (pte : Nat) : Option (Nat × Nat) :=
  if present pte then some (ptePaddr pte, pteFlags pte) else none

theorem walk_eq (pgindex : Nat) (kernel : Kernel) (va : Nat) :
    walk pgindex kernel va = if present (pde pgindex kernel (va / 2 ^ 22 % 1024)) then
        entryWalk (kernel.word .ilp32 (table pgindex kernel (va / 2 ^ 22 % 1024))
          (va / 2 ^ 12 % 1024))
      else none := by
  rw [walk, show 0x3ff = 2 ^ 10 - 1 from rfl, and_two_pow_sub_one_eq_mod,
    and_two_pow_sub_one_eq_mod, shiftRight_eq_div_pow, shiftRight_eq_div_pow]
  rfl

theorem walk_congr {pgindex : Nat} {before after : Kernel}
    (directory : pde pgindex after (va / 2 ^ 22 % 1024) = pde pgindex before (va / 2 ^ 22 % 1024))
    (leaf : present (pde pgindex before (va / 2 ^ 22 % 1024)) = true →
      after.word .ilp32 (table pgindex before (va / 2 ^ 22 % 1024)) (va / 2 ^ 12 % 1024) =
        before.word .ilp32 (table pgindex before (va / 2 ^ 22 % 1024)) (va / 2 ^ 12 % 1024)) :
    walk pgindex after va = walk pgindex before va := by
  rw [walk_eq, walk_eq, table, directory]
  split
  · rename_i there
    rw [← table, leaf there]
  · rfl

/-! ### Creating a leaf table -/

/-- The effect of `__getpagedesc` on the kernel when it creates a leaf table. -/
def linkTable (pgindex index paddr : Nat) (kernel : Kernel) : Kernel :=
  (kernel.clearPage (pa2kva paddr)).setWord .ilp32 pgindex index
    (mkpte paddr (pteP ||| pteR ||| pteU))

section Link

variable {pgindex index paddr : Nat} {kernel : Kernel} {frames : Pool}
  (wellFormed : WellFormed pgindex kernel) (bound : index < 1024)
  (absent : present (pde pgindex kernel index) = false) (frame : isFrame paddr = true)
  (fresh : paddr ∉ kernel.frames.inUse) (granted : frames.inUse = paddr :: kernel.frames.inUse)

include wellFormed fresh frame in
/-- The page of the new table is none of the tables there are. -/
theorem fresh_ne : pgindex ≠ pa2kva paddr ∧
    ∀ other < 1024, present (pde pgindex kernel other) = true →
      table pgindex kernel other ≠ pa2kva paddr := by
  constructor
  · obtain ⟨rootPage, member, rootFrame, rootIs⟩ := wellFormed.root
    intro same
    rw [rootIs] at same
    exact fresh (pa2kva_injective rootFrame frame same ▸ member)
  · intro other otherBound there same
    obtain ⟨member, otherFrame⟩ := wellFormed.owned other otherBound there
    exact fresh (pa2kva_injective otherFrame frame same ▸ member)

include wellFormed bound fresh frame in
theorem pde_linkTable {other : Nat} (otherBound : other < 1024) :
    pde pgindex (linkTable pgindex index paddr { kernel with frames }) other =
      if other = index then mkpte paddr (pteP ||| pteR ||| pteU) else pde pgindex kernel other := by
  have rootTable := wellFormed.rootTable
  unfold pde linkTable
  split
  · rename_i same
    rw [same, word_setWord_same]
    exact (linked_fields frame).1
  · rename_i different
    rw [word_setWord_of_ne (rootTable.slot_ne rootTable otherBound bound (Or.inr different)),
      word_clearPage_of_ne (isTable_pa2kva frame) rootTable (fresh_ne wellFormed frame fresh).1
        otherBound]
    rfl

include wellFormed bound fresh frame in
theorem word_linkTable_new {place : Nat} (placeBound : place < 1024) :
    (linkTable pgindex index paddr { kernel with frames }).word .ilp32 (pa2kva paddr) place =
      0 := by
  have newTable := isTable_pa2kva frame
  rw [linkTable, word_setWord_of_ne (newTable.slot_ne wellFormed.rootTable placeBound bound
    (Or.inl (fresh_ne wellFormed frame fresh).1.symm)), word_clearPage_same newTable placeBound]

include wellFormed bound fresh frame in
theorem word_linkTable_old {other place : Nat} (otherBound : other < 1024)
    (there : present (pde pgindex kernel other) = true) (placeBound : place < 1024) :
    (linkTable pgindex index paddr { kernel with frames }).word .ilp32 (table pgindex kernel other)
      place = kernel.word .ilp32 (table pgindex kernel other) place := by
  have oldTable := wellFormed.leafTable otherBound there
  rw [linkTable, word_setWord_of_ne (oldTable.slot_ne wellFormed.rootTable placeBound bound
    (Or.inl (wellFormed.notRoot other otherBound there))),
    word_clearPage_of_ne (isTable_pa2kva frame) oldTable
      ((fresh_ne wellFormed frame fresh).2 other otherBound there) placeBound]
  rfl

include wellFormed bound fresh frame granted in
theorem wellFormed_linkTable :
    WellFormed pgindex (linkTable pgindex index paddr { kernel with frames }) := by
  obtain ⟨notNew, oldNotNew⟩ := fresh_ne wellFormed frame fresh
  obtain ⟨-, -, address⟩ := linked_fields frame
  have entry := fun other (otherBound : other < 1024) =>
    @pde_linkTable _ _ _ _ frames wellFormed bound frame fresh _ otherBound
  have used : (linkTable pgindex index paddr { kernel with frames }).frames.inUse =
      paddr :: kernel.frames.inUse := granted
  obtain ⟨rootPage, member, rootFrame, rootIs⟩ := wellFormed.root
  refine ⟨⟨rootPage, used ▸ List.mem_cons_of_mem _ member, rootFrame, rootIs⟩,
    fun other otherBound there => ?_, fun other otherBound there => ?_,
    fun first firstBound second secondBound firstThere secondThere same => ?_⟩
  · rw [entry other otherBound] at there ⊢
    rw [used]
    split at there
    · rename_i here
      rw [if_pos here, address]
      exact ⟨List.mem_cons_self, frame⟩
    · rename_i elsewhere
      rw [if_neg elsewhere]
      obtain ⟨inUse, otherFrame⟩ := wellFormed.owned other otherBound there
      exact ⟨List.mem_cons_of_mem _ inUse, otherFrame⟩
  · rw [table, entry other otherBound]
    rw [entry other otherBound] at there
    split at there
    · rename_i here
      rw [if_pos here, address]
      exact notNew.symm
    · rename_i elsewhere
      rw [if_neg elsewhere]
      exact wellFormed.notRoot other otherBound there
  · rw [table, table, entry first firstBound, entry second secondBound] at same
    rw [entry first firstBound] at firstThere
    rw [entry second secondBound] at secondThere
    by_cases firstHere : first = index <;> by_cases secondHere : second = index
    · rw [firstHere, secondHere]
    · rw [if_pos firstHere, if_neg secondHere, address] at same
      rw [if_neg secondHere] at secondThere
      exact absurd same.symm (oldNotNew second secondBound secondThere)
    · rw [if_neg firstHere, if_pos secondHere, address] at same
      rw [if_neg firstHere] at firstThere
      exact absurd same (oldNotNew first firstBound firstThere)
    · rw [if_neg firstHere] at same firstThere
      rw [if_neg secondHere] at same secondThere
      exact wellFormed.distinct first firstBound second secondBound firstThere secondThere same

include wellFormed bound absent fresh frame in
theorem walk_linkTable (va : Nat) :
    walk pgindex (linkTable pgindex index paddr { kernel with frames }) va =
      walk pgindex kernel va := by
  have entryBound : va / 2 ^ 22 % 1024 < 1024 := mod_lt _ (by decide)
  have placeBound : va / 2 ^ 12 % 1024 < 1024 := mod_lt _ (by decide)
  have entry := @pde_linkTable _ _ _ _ frames wellFormed bound frame fresh _ entryBound
  by_cases here : va / 2 ^ 22 % 1024 = index
  · obtain ⟨-, there, address⟩ := linked_fields frame
    rw [if_pos here] at entry
    rw [walk_eq, walk_eq, table, entry, if_pos there, address,
      word_linkTable_new wellFormed bound frame fresh placeBound,
      here, absent]
    rfl
  · rw [if_neg here] at entry
    exact walk_congr entry fun there =>
      @word_linkTable_old _ _ _ _ _ wellFormed
      bound frame fresh _ _ entryBound there placeBound

end Link

/-! ### The first four megabytes -/

theorem access_of_lt (bound : index < 1024) : machine.access index = machine := by
  have inside : decide (nrPtentries ≤ index) = false :=
    decide_eq_false (show ¬ 1024 ≤ index by omega)
  rw [Machine.access, inside, Bool.or_false]

theorem next_page_low {vcur : Nat} (low : vcur < 2 ^ 22) :
    (vcur + pageSize) % 2 ^ 32 = vcur + 4096 := by
  exact mod_eq_of_lt ((Nat.add_lt_add_right low 4096).trans_le (by decide))

theorem indices_low (low : va < 2 ^ 22) : pdx va = 0 ∧ ptx va = va / 4096 ∧ va / 4096 < 1024 := by
  rw [pdx, ptx, shiftRight_eq_div_pow, shiftRight_eq_div_pow]
  show va / 2 ^ 22 = 0 ∧ va / 2 ^ 12 = va / 4096 ∧ va / 4096 < 1024
  omega

section Low

variable {pgindex va vcur pcur perm : Nat} {create : Bool} {desc : PageDesc} {machine : Machine}

theorem getpagedesc_there (bound : pdx va < 1024)
    (there : present (pde pgindex machine.kernel (pdx va)) = true) :
    getpagedesc pgindex va create desc machine =
      (0, ⟨table pgindex machine.kernel (pdx va), ptx va⟩, machine) := by
  have word : machine.word pgindex (pdx va) = pde pgindex machine.kernel (pdx va) := rfl
  simp only [getpagedesc, word, there, if_true, access_of_lt bound]
  rfl

/-- The lookup that creates the leaf table, or finds no page for it. -/
theorem getpagedesc_create (bound : pdx va < 1024)
    (absent : present (pde pgindex machine.kernel (pdx va)) = false) :
    (∃ paddr rest, isFrame paddr = true ∧ paddr ∉ machine.kernel.frames.inUse ∧
      machine.kernel.frames.answers = some paddr :: rest ∧
      getpagedesc pgindex va true desc machine = (0, ⟨pa2kva paddr, ptx va⟩, { machine with
          kernel := linkTable pgindex (pdx va) paddr { machine.kernel with
            frames := { machine.kernel.frames with
              inUse := paddr :: machine.kernel.frames.inUse, answers := rest } } })) ∨
    ∃ frames, (machine.kernel.frames.take isFrame).1 = none ∧
      frames.inUse = machine.kernel.frames.inUse ∧
      getpagedesc pgindex va true desc machine =
        (-enomem, desc, { machine with kernel := { machine.kernel with frames } }) := by
  have word : machine.word pgindex (pdx va) = pde pgindex machine.kernel (pdx va) := rfl
  have inside : ∀ other : Machine, other.access (pdx va) = other := fun _ => access_of_lt bound
  simp only [getpagedesc, word, absent, Bool.false_eq_true, if_false, Bool.not_true, inside,
    Machine.pgalloc]
  rcases machine.kernel.frames.take_cases isFrame with
    ⟨paddr, rest, frame, fresh, answer, taken⟩ | ⟨rest, refused⟩
  · refine Or.inl ⟨paddr, rest, frame, fresh, answer, ?_⟩
    rw [taken]
    simp only [Machine.setWord, Machine.clearPage, inside, linkTable]
  · rw [refused]
    exact Or.inr ⟨{ machine.kernel.frames with answers := rest, refused := true }, rfl, rfl, rfl⟩

theorem getpagedesc_low (low : va < 2 ^ 22)
    (there : present (pde pgindex machine.kernel 0) = true) :
    getpagedesc pgindex va create desc machine =
      (0, ⟨table pgindex machine.kernel 0, va / 4096⟩, machine) := by
  obtain ⟨entry, place, -⟩ := indices_low low
  rw [getpagedesc_there (entry ▸ (by decide)) (entry ▸ there), entry, place]

/-- The first pass when there is a leaf table: it changes nothing, and stops at the first page
that is mapped. -/
theorem mapFirst_open (pages : Nat) (there : present (pde pgindex machine.kernel 0) = true)
    (fits : vcur + pages * 4096 ≤ 2 ^ 22)
    (call : mapFirst pgindex pages vcur desc machine = (retcode, stop, found, after)) :
    after = machine ∧ (retcode = 0 ∨ retcode = -eexist ∧ ∃ page < pages, stop = vcur + page * 4096 ∧
      present (machine.kernel.word .ilp32 (table pgindex machine.kernel 0) (stop / 4096)) = true ∧
      (0 < page → present (machine.kernel.word .ilp32 (table pgindex machine.kernel 0)
        (vcur / 4096)) = false)) := by
  induction pages generalizing vcur desc with
  | zero =>
    cases call
    exact ⟨rfl, Or.inl rfl⟩
  | succ pages inductionHypothesis =>
    rw [succ_mul] at fits
    have low : vcur < 2 ^ 22 := by omega
    have next := next_page_low low
    unfold mapFirst at call
    rw [getpagedesc_low low there] at call
    simp only [if_neg (show ¬ (0 : Int) = -enomem by decide), next,
      access_of_lt (indices_low low).2.2] at call
    split at call
    · rename_i taken
      cases call
      exact ⟨rfl, Or.inr ⟨rfl, 0, succ_pos pages, by omega, taken,
        fun none => absurd none (lt_irrefl 0)⟩⟩
    · rename_i free
      obtain ⟨same, result⟩ := inductionHypothesis (by omega) call
      refine ⟨same, result.imp_right ?_⟩
      rintro ⟨code, page, bound, place, taken, -⟩
      exact ⟨code, page + 1, succ_lt_succ bound, by omega, taken,
        fun _ => Bool.eq_false_iff.mpr free⟩

/-- The first pass creates the leaf table if there is none. -/
theorem mapFirst_low {pages : Nat} (some : 0 < pages)
    (wellFormed : WellFormed pgindex machine.kernel) (fits : vcur + pages * 4096 ≤ 2 ^ 22)
    (call : mapFirst pgindex pages vcur desc machine = (0, stop, found, after)) :
    (present (pde pgindex machine.kernel 0) = true ∧ after = machine) ∨
    (present (pde pgindex machine.kernel 0) = false ∧
      ∃ paddr frames, isFrame paddr = true ∧ paddr ∉ machine.kernel.frames.inUse ∧
        frames.inUse = paddr :: machine.kernel.frames.inUse ∧
        after = { machine with
          kernel := linkTable pgindex 0 paddr { machine.kernel with frames } }) := by
  cases there : present (pde pgindex machine.kernel 0) with
  | true => exact Or.inl ⟨rfl, (mapFirst_open pages there fits call).1⟩
  | false =>
    refine Or.inr ⟨rfl, ?_⟩
    obtain ⟨more, rfl⟩ := exists_eq_succ_of_ne_zero (ne_of_gt some)
    rw [succ_mul] at fits
    have low : vcur < 2 ^ 22 := by omega
    have next := next_page_low low
    unfold mapFirst at call
    have entry := (indices_low low).1
    rcases @getpagedesc_create pgindex vcur desc machine (entry ▸ (by decide)) (entry ▸ there) with
      ⟨paddr, rest, frame, fresh, -, made⟩ | ⟨frames, -, -, refused⟩
    · rw [made, entry, (indices_low low).2.1] at call
      simp only [if_neg (show ¬ (0 : Int) = -enomem by decide), next,
        access_of_lt (indices_low low).2.2] at call
      split at call
      · cases call
      · have entry := fun frames => @pde_linkTable _ 0 _ _ frames wellFormed
          (by decide) frame fresh 0 (by decide)
        exact ⟨paddr, _, frame, fresh, rfl, (mapFirst_open more
          (by rw [entry]; exact (linked_fields frame).2.1) (by omega) call).1⟩
    · rw [refused] at call
      cases call

/-- How the second pass stores the entries of a range into the leaf table. -/
structure Stored (pgindex vaddr paddr size perm : Nat) (before after : Machine) : Prop where
  outside : after.outside = before.outside
  directory : ∀ index < 1024, pde pgindex after.kernel index = pde pgindex before.kernel index
  inside : ∀ place < 1024, after.kernel.word .ilp32 (table pgindex before.kernel 0) place =
    if vaddr ≤ place * 4096 ∧ place * 4096 < vaddr + size then
      ((paddr + (place * 4096 - vaddr)) ||| perm) % 2 ^ 32
    else before.kernel.word .ilp32 (table pgindex before.kernel 0) place
  others : ∀ index < 1024, index ≠ 0 → present (pde pgindex before.kernel index) = true →
    ∀ place < 1024, after.kernel.word .ilp32 (table pgindex before.kernel index) place =
      before.kernel.word .ilp32 (table pgindex before.kernel index) place
  frames : after.kernel.frames = before.kernel.frames

/-- Entries that are stored again are as they have been stored last. -/
theorem Stored.again {vaddr size other mode : Nat} {before middle : Machine}
    (first : Stored pgindex vaddr paddr size perm before middle)
    (second : Stored pgindex vaddr other size mode middle after) :
    Stored pgindex vaddr other size mode before after := by
  have sameTable : ∀ index < 1024, table pgindex middle.kernel index =
      table pgindex before.kernel index := by
    intro index bound
    rw [table, table, first.directory index bound]
  refine ⟨second.outside.trans first.outside, fun index bound =>
    (second.directory index bound).trans (first.directory index bound), fun place bound => ?_,
    fun index bound different there place placeBound => ?_, second.frames.trans first.frames⟩
  · have early := first.inside place bound
    have late := second.inside place bound
    rw [sameTable 0 (by decide), early] at late
    rw [late]
    split <;> rfl
  · have late := second.others index bound different
      (by rw [first.directory index bound]; exact there) place placeBound
    rw [sameTable index bound] at late
    exact late.trans (first.others index bound different there place placeBound)

/-- One store into the leaf table. -/
theorem stored_one (wellFormed : WellFormed pgindex machine.kernel)
    (there : present (pde pgindex machine.kernel 0) = true) (low : vcur < 2 ^ 22)
    (aligned : vcur % 4096 = 0) :
    Stored pgindex vcur pcur 4096 perm machine
      (machine.setWord (table pgindex machine.kernel 0) (vcur / 4096) (pcur ||| perm)) := by
  have bound := (indices_low low).2.2
  have leafTable := wellFormed.leafTable (by decide) there
  have rootTable := wellFormed.rootTable
  refine ⟨?_, fun index indexBound => ?_, fun place placeBound => ?_,
    fun index indexBound different otherThere place placeBound => ?_, rfl⟩
  · show (machine.access (vcur / 4096)).outside = machine.outside
    rw [access_of_lt bound]
  · exact word_setWord_of_ne (rootTable.slot_ne leafTable indexBound bound
      (Or.inl (wellFormed.notRoot 0 (by decide) there).symm))
  · by_cases here : place = vcur / 4096
    · have offset : place * 4096 - vcur = 0 := by omega
      rw [if_pos (by omega), offset, add_zero, here]
      exact word_setWord_same
    · rw [if_neg (by omega)]
      exact word_setWord_of_ne (leafTable.slot_ne leafTable placeBound bound (Or.inr here))
  · have apart : table pgindex machine.kernel index ≠ table pgindex machine.kernel 0 :=
      fun same => different
        (wellFormed.distinct index indexBound 0 (by decide) otherThere there same)
    exact word_setWord_of_ne
      ((wellFormed.leafTable indexBound otherThere).slot_ne leafTable placeBound
      bound (Or.inl apart))

theorem range_first {start address rest : Nat}
    (notLater : ¬ (start + 4096 ≤ address ∧ address < start + 4096 + rest)) :
    (start ≤ address ∧ address < start + (rest + 4096)) ↔
      start ≤ address ∧ address < start + 4096 := by
  omega

/-- The second pass stores the entries of the range. -/
theorem mapSecond_low (pages : Nat) (wellFormed : WellFormed pgindex machine.kernel)
    (there : present (pde pgindex machine.kernel 0) = true) (aligned : vcur % 4096 = 0)
    (fits : vcur + pages * 4096 ≤ 2 ^ 22) :
    Stored pgindex vcur pcur (pages * 4096) perm machine
      (mapSecond pgindex perm pages pcur vcur desc machine) := by
  induction pages generalizing pcur vcur desc machine with
  | zero =>
    refine ⟨rfl, fun _ _ => rfl, fun place _ => ?_, fun _ _ _ _ _ _ => rfl, rfl⟩
    rw [if_neg (by omega)]
    rfl
  | succ pages inductionHypothesis =>
    rw [succ_mul] at fits
    have low : vcur < 2 ^ 22 := by omega
    have next := next_page_low low
    unfold mapSecond
    rw [getpagedesc_low low there]
    simp only [next]
    have first := @stored_one _ _ pcur perm _ wellFormed there low aligned
    generalize machine.setWord (table pgindex machine.kernel 0) (vcur / 4096) (pcur ||| perm) =
      middle at first
    have sameEntry := first.directory 0 (by decide)
    have sameTable : ∀ index < 1024, table pgindex middle.kernel index =
        table pgindex machine.kernel index := by
      intro index bound
      rw [table, table, first.directory index bound]
    have rest := @inductionHypothesis (vcur + 4096) (pcur + pageSize)
      ⟨table pgindex machine.kernel 0, vcur / 4096⟩ _
      (wellFormed.congr first.directory (by rw [first.frames])) (by rw [sameEntry]; exact there)
      (by omega) (by omega)
    generalize mapSecond pgindex perm pages (pcur + pageSize) (vcur + 4096)
      ⟨table pgindex machine.kernel 0, vcur / 4096⟩ middle = after at rest
    refine ⟨rest.outside.trans first.outside, fun index bound =>
      (rest.directory index bound).trans (first.directory index bound), fun place bound => ?_,
      fun index bound different otherThere place placeBound => ?_, rest.frames.trans first.frames⟩
    · have early := first.inside place bound
      have late := rest.inside place bound
      rw [sameTable 0 (by decide), early] at late
      rw [late, succ_mul]
      by_cases later : vcur + 4096 ≤ place * 4096 ∧ place * 4096 < vcur + 4096 + pages * 4096
      · have offset : pcur + pageSize + (place * 4096 - (vcur + 4096)) =
            pcur + (place * 4096 - vcur) := by
          unfold pageSize
          omega
        rw [if_pos later, if_pos (by omega), offset]
      · rw [if_neg later]
        simp only [range_first later]
    · have late := rest.others index bound different (by rwa [first.directory index bound]) place
        placeBound
      rw [sameTable index bound] at late
      exact late.trans (first.others index bound different otherThere place placeBound)

end Low

/-! ### Indices inside of the tables -/

theorem access_inside
    (inside : (machine.access index).outside = false) : machine.outside = false ∧ index < 1024 := by
  obtain ⟨before, bound⟩ := Bool.or_eq_false_iff.mp inside
  exact ⟨before, not_le.mp (of_decide_eq_false bound)⟩

section Inside

variable {pgindex va vcur pcur perm : Nat} {create : Bool} {desc : PageDesc} {machine : Machine}

/-- What `__getpagedesc` leaves recorded, and the index it returns. -/
theorem getpagedesc_inside
    (call : getpagedesc pgindex va create desc machine = (retcode, found, after))
    (inside : after.outside = false) :
    machine.outside = false ∧ (retcode = 0 → found.ptx = ptx va) := by
  unfold getpagedesc at call
  dsimp only at call
  split at call
  · cases call
    exact ⟨(access_inside inside).1, fun _ => rfl⟩
  · split at call
    · cases call
      exact ⟨(access_inside inside).1, fun zero => absurd zero (by decide)⟩
    · split at call
      · rename_i taken
        cases call
        have same : (machine.access (pdx va)).outside = after.outside :=
          congrArg (·.2.outside) taken
        exact ⟨(access_inside (same.trans inside)).1, fun zero => absurd zero (by decide)⟩
      · rename_i middle taken
        cases call
        have same : (machine.access (pdx va)).outside = middle.outside :=
          congrArg (·.2.outside) taken
        exact ⟨(access_inside (same.trans (access_inside inside).1)).1, fun _ => rfl⟩

/-- A first pass that succeeds has used the index of every page. -/
theorem mapFirst_inside (pages : Nat)
    (call : mapFirst pgindex pages vcur desc machine = (0, stop, found, after))
    (fits : vcur + pages * pageSize ≤ 2 ^ 32) (inside : after.outside = false) :
    machine.outside = false ∧ ∀ page < pages, ptx (vcur + page * pageSize) < 1024 := by
  induction pages generalizing vcur desc machine with
  | zero =>
    cases call
    exact ⟨inside, fun page none => absurd none (not_lt_zero page)⟩
  | succ pages inductionHypothesis =>
    unfold mapFirst at call
    rcases lookup : getpagedesc pgindex vcur true desc machine with ⟨retcode, made, middle⟩
    rw [lookup] at call
    dsimp only at call
    split at call
    · rename_i memory
      cases call
      exact absurd memory (by decide)
    rename_i memory
    split at call
    · cases call
    rw [succ_mul] at fits
    obtain ⟨later, indices⟩ := inductionHypothesis call (by omega)
    obtain ⟨recorded, bound⟩ := access_inside later
    obtain ⟨before, index⟩ := getpagedesc_inside lookup recorded
    have done : retcode = 0 := by
      have codes := congrArg Prod.fst lookup
      unfold getpagedesc at codes
      dsimp only at codes
      split at codes
      · exact codes.symm
      · split at codes
        · cases ‹(!true) = true›
        · split at codes
          · exact absurd codes.symm memory
          · exact codes.symm
    refine ⟨before, fun page pageBound => ?_⟩
    cases page with
    | zero =>
      rw [zero_mul, add_zero, ← index done]
      exact bound
    | succ page =>
      have room : pageSize ≤ pages * pageSize := Nat.le_mul_of_pos_left _ (by omega)
      have positive : 0 < pageSize := by decide
      have place := indices page (by omega)
      rw [mod_eq_of_lt (by omega)] at place
      rwa [succ_mul, add_comm (page * pageSize), ← add_assoc]

theorem mapSecond_inside (pages : Nat)
    (inside : (mapSecond pgindex perm pages pcur vcur desc machine).outside = false) :
    machine.outside = false := by
  induction pages generalizing pcur vcur desc machine with
  | zero => exact inside
  | succ pages inductionHypothesis =>
    unfold mapSecond at inside
    rcases lookup : getpagedesc pgindex vcur false desc machine with ⟨retcode, made, middle⟩
    rw [lookup] at inside
    have later := inductionHypothesis inside
    exact (getpagedesc_inside lookup (access_inside later).1).1

end Inside

/-! ### The whole call -/

section Call

variable {pgindex vaddr paddr size flags : Nat} {machine after : Machine}

theorem mapPages_aligned (call : mapPages pgindex vaddr paddr size flags machine = (0, after)) :
    vaddr % 4096 = 0 ∧ paddr % 4096 = 0 ∧ size % 4096 = 0 := by
  unfold mapPages at call
  split at call
  · cases call
  rename_i accepted
  simp only [Bool.or_eq_true, Bool.not_eq_true', not_or, Bool.not_eq_false,
    show pageSize = 2 ^ 12 from rfl, isAligned_two_pow] at accepted
  exact ⟨accepted.2, accepted.1.1, accepted.1.2⟩

/-- A call of `map_pages` that returns 0 is its two passes. -/
theorem mapPages_zero (physicalFits : paddr + size < 2 ^ 64)
    (call : mapPages pgindex vaddr paddr size flags machine = (0, after)) :
    ∃ stop found middle,
      mapFirst pgindex (size / 4096) vaddr machine.freshDesc machine = (0, stop, found, middle) ∧
      after = mapSecond pgindex (pgtablePerm flags) (size / 4096) paddr vaddr found middle := by
  unfold mapPages at call
  split at call
  · cases call
  have count : (paddr + size) % 2 ^ 64 - paddr = size := by
    rw [mod_eq_of_lt physicalFits, Nat.add_sub_cancel_left]
  simp only [count] at call
  rcases first : mapFirst pgindex (size / 4096) vaddr machine.freshDesc machine with
    ⟨retcode, stop, found, middle⟩
  rw [show pageSize = 4096 from rfl, first] at call
  by_cases done : retcode = 0
  · simp only [if_pos done, Prod.mk.injEq, true_and] at call
    exact ⟨stop, found, middle, by rw [done], call.symm⟩
  · simp only [if_neg done, Prod.mk.injEq] at call
    exact absurd call.1 done

/-- The walk after the entries of a range in the first four megabytes have been stored. -/
theorem Stored.walk_eq {perm page : Nat}
    (stored : Stored pgindex vaddr paddr size perm machine after)
    (there : present (pde pgindex machine.kernel 0) = true) (fits : vaddr + size ≤ 2 ^ 22)
    (whole : page % 4096 = 0) (inside : page < 2 ^ 32) :
    walk pgindex after.kernel page = if vaddr ≤ page ∧ page < vaddr + size then
        entryWalk (((paddr + (page - vaddr)) ||| perm) % 2 ^ 32)
      else walk pgindex machine.kernel page := by
  have entryBound : page / 2 ^ 22 % 1024 < 1024 := mod_lt _ (by decide)
  have placeBound : page / 2 ^ 12 % 1024 < 1024 := mod_lt _ (by decide)
  have directory := stored.directory _ entryBound
  by_cases low : page < 2 ^ 22
  · have entry : page / 2 ^ 22 % 1024 = 0 := by omega
    have place : page / 2 ^ 12 % 1024 * 4096 = page := by omega
    have word := stored.inside _ placeBound
    rw [place] at word
    split
    · rename_i within
      rw [if_pos within] at word
      rw [entry] at directory
      rw [I386.walk_eq, table, entry, directory, if_pos there, ← table, word]
    · rename_i beyond
      rw [if_neg beyond] at word
      exact walk_congr directory fun _ => by rwa [entry]
  · have entry : page / 2 ^ 22 % 1024 ≠ 0 := by omega
    rw [if_neg (by omega)]
    exact walk_congr directory fun other =>
      stored.others _ entryBound entry other _ placeBound

/-- A call that returns 0 and has used no index outside of a table was for the first four
megabytes. -/
theorem mapPages_inside (fits : vaddr + size ≤ 2 ^ 32) (physicalFits : paddr + size < 2 ^ 64)
    (call : mapPages pgindex vaddr paddr size flags machine = (0, after))
    (inside : after.outside = false) : size = 0 ∨ vaddr + size ≤ 2 ^ 22 := by
  obtain ⟨aligned, -, whole⟩ := mapPages_aligned call
  obtain ⟨stop, found, middle, first, rfl⟩ := mapPages_zero physicalFits call
  obtain ⟨-, indices⟩ := mapFirst_inside (size / 4096) first
    (show vaddr + size / 4096 * 4096 ≤ 2 ^ 32 by omega) (mapSecond_inside _ inside)
  rcases Nat.eq_zero_or_pos size with none | some
  · exact Or.inl none
  · have last := indices (size / 4096 - 1) (by omega)
    rw [ptx, shiftRight_eq_div_pow] at last
    have bound : (vaddr + (size / 4096 - 1) * 4096) / 2 ^ 12 < 1024 := last
    exact Or.inr (by omega)

/-- A call that returns 0 for the first four megabytes: the leaf table may be new, and the entries
are stored into it. -/
theorem mapPages_low (wellFormed : WellFormed pgindex machine.kernel) (some : 0 < size)
    (low : vaddr + size ≤ 2 ^ 22) (physicalFits : paddr + size < 2 ^ 64)
    (call : mapPages pgindex vaddr paddr size flags machine = (0, after)) :
    ∃ middle, WellFormed pgindex middle.kernel ∧ present (pde pgindex middle.kernel 0) = true ∧
      Stored pgindex vaddr paddr size (pgtablePerm flags) middle after ∧
      ((present (pde pgindex machine.kernel 0) = true ∧ middle = machine) ∨
        (present (pde pgindex machine.kernel 0) = false ∧
          ∃ page frames, isFrame page = true ∧ page ∉ machine.kernel.frames.inUse ∧
            frames.inUse = page :: machine.kernel.frames.inUse ∧
            middle = { machine with
              kernel := linkTable pgindex 0 page { machine.kernel with frames } })) := by
  obtain ⟨aligned, -, whole⟩ := mapPages_aligned call
  obtain ⟨stop, found, middle, first, rfl⟩ := mapPages_zero physicalFits call
  have length : size / 4096 * 4096 = size := by omega
  have fits : vaddr + size / 4096 * 4096 ≤ 2 ^ 22 := by omega
  have cases := mapFirst_low (by omega) wellFormed fits first
  have opened : WellFormed pgindex middle.kernel ∧
      present (pde pgindex middle.kernel 0) = true := by
    rcases cases with ⟨there, rfl⟩ | ⟨-, page, frames, frame, fresh, granted, rfl⟩
    · exact ⟨wellFormed, there⟩
    · have entry := @pde_linkTable _ 0 _ _ frames wellFormed (by decide) frame fresh 0 (by decide)
      rw [if_pos rfl] at entry
      exact ⟨wellFormed_linkTable wellFormed (by decide) frame fresh granted,
        by rw [entry]; exact (linked_fields frame).2.1⟩
  have stored := @mapSecond_low _ _ paddr (pgtablePerm flags) found _ (size / 4096)
    opened.1 opened.2 aligned fits
  rw [length] at stored
  exact ⟨middle, opened.1, opened.2, stored, cases⟩

/-- A call of `map_pages` that returns 0 has mapped its range and nothing else, with every index
inside of its table, exactly when the range is in the first four megabytes. -/
theorem mapPages_correct_iff (wellFormed : WellFormed pgindex machine.kernel)
    (clean : machine.outside = false) (fits : vaddr + size ≤ 2 ^ 32)
    (physicalFits : paddr + size ≤ 2 ^ 32)
    (call : mapPages pgindex vaddr paddr size flags machine = (0, after)) :
    (after.outside = false ∧ ∀ page < 2 ^ 32, page % pageSize = 0 →
      (vaddr ≤ page ∧ page < vaddr + size →
        walk pgindex after.kernel page = some (paddr + (page - vaddr), pgtablePerm flags)) ∧
      (page < vaddr ∨ vaddr + size ≤ page →
        walk pgindex after.kernel page = walk pgindex machine.kernel page)) ↔
      size = 0 ∨ vaddr + size ≤ 2 ^ 22 := by
  obtain ⟨aligned, physicalAligned, -⟩ := mapPages_aligned call
  constructor
  · rintro ⟨inside, -⟩
    exact mapPages_inside fits (by omega) call inside
  · intro small
    rcases Nat.eq_zero_or_pos size with rfl | some
    · obtain ⟨stop, found, middle, passes, result⟩ := mapPages_zero (by omega) call
      cases passes
      cases result
      exact ⟨clean, fun page _ _ => ⟨fun within => absurd within (by omega), fun _ => rfl⟩⟩
    obtain ⟨middle, -, there, stored, first⟩ :=
      mapPages_low wellFormed some (small.resolve_left (by omega)) (by omega) call
    have same : middle.outside = false ∧
        ∀ va, walk pgindex middle.kernel va = walk pgindex machine.kernel va := by
      rcases first with ⟨-, rfl⟩ | ⟨absent, page, frames, frame, fresh, -, rfl⟩
      · exact ⟨clean, fun _ => rfl⟩
      · exact ⟨clean, walk_linkTable wellFormed (by decide) absent frame fresh⟩
    refine ⟨stored.outside.trans same.1, fun page pageFits pageWhole => ⟨fun within => ?_,
      fun beyond => ?_⟩⟩
    · obtain ⟨narrow, marked, address, mode⟩ := @mapped_fields (paddr + (page - vaddr)) flags
        (by unfold pageSize at *; omega) (by omega)
      rw [stored.walk_eq there (by omega) pageWhole pageFits, if_pos within, narrow, entryWalk,
        if_pos marked, address, mode]
    · rw [stored.walk_eq there (by omega) pageWhole pageFits, if_neg (by omega), same.2]

end Call

/-- A kernel with an empty page directory at physical page 0x1000 and one more page to grant. -/
def emptyDirectory : Machine :=
  ⟨⟨fun _ => 0, ⟨[0x1000], [some 0x2000], false, false⟩, 0⟩, false⟩

theorem emptyDirectory_wellFormed : WellFormed (pa2kva 0x1000) emptyDirectory.kernel := by
  have empty : ∀ index, present (pde (pa2kva 0x1000) emptyDirectory.kernel index) = false := by
    intro index
    show present (0 % Abi.ilp32.modulus) = false
    rw [zero_mod]
    rfl
  refine ⟨⟨0x1000, List.mem_cons_self, by decide, rfl⟩, fun index _ there => ?_,
    fun index _ there => ?_, fun index _ _ _ there => ?_⟩
  all_goals
    rw [empty] at there
    cases there

/-- A page in the first four megabytes. -/
theorem mapPages_correct_iff_low :
    (mapPages (pa2kva 0x1000) 0x3000 0x9000 0x1000 0 emptyDirectory).1 = 0 ∧
      walk (pa2kva 0x1000) (mapPages (pa2kva 0x1000) 0x3000 0x9000 0x1000 0 emptyDirectory).2.kernel
        0x3000 = some (0x9000, pgtablePerm 0) :=
  ⟨by decide +kernel, (((mapPages_correct_iff emptyDirectory_wellFormed rfl (by decide) (by decide)
      (Prod.ext (by decide +kernel) rfl)).mpr (by decide)).2 0x3000 (by decide) (by decide)).1
      (by decide)⟩

/-- A page behind the first four megabytes: the call returns 0, but it has stored the entry outside
of the leaf table, and the page is not mapped. -/
theorem mapPages_outside_table :
    (mapPages (pa2kva 0x1000) 0x400000 0x9000 0x1000 0 emptyDirectory).1 = 0 ∧
      (mapPages (pa2kva 0x1000) 0x400000 0x9000 0x1000 0 emptyDirectory).2.outside = true ∧
      walk (pa2kva 0x1000)
        (mapPages (pa2kva 0x1000) 0x400000 0x9000 0x1000 0 emptyDirectory).2.kernel
        0x400000 = none := by
  decide +kernel

end I386

end AIMv6
