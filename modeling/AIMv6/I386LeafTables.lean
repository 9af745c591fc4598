/-
This file follows the leaf tables of the i386 port through whole runs of `map_pages` and
`unmap_pages` on one page directory, from `init_pgindex` on.

`__free_intermediate_pgtable` is to return the leaf tables that have become empty. It has a
directory entry, which holds a physical address, and passes `kva2pa` of that to `pgfree`: what
is freed is never a page that `pgalloc` has granted. It also takes entries that are not present
for tables. So nothing is wrong in a run exactly as long as no pass of the loop meets an empty
table or an entry that is not present. This can be told before a call, from the memory and the
answers of `pgalloc`: `map_pages` has linked the tables that were missing, up to the page it
stops at, and `unmap_pages` has zeroed the entries up to the first that does not follow. Outside
of the first four megabytes an index leads out of its table, and what is read or zeroed there may
be any word of the memory, one of the directory included.
-/

import AIMv6.MapUnmap

namespace AIMv6

open Nat List

namespace I386

/-! ### Runs -/

/-- A call on the directory; `unmap_pages` has the value of `*paddr` before it. -/
inductive Call
  | map (vaddr paddr size flags : Nat)
  | unmap (vaddr size paddr : Nat)
  deriving DecidableEq, Repr

/-- The machine after a call; `none` is `panic`. -/
def Call.run (pgindex : Nat) : Call → Machine → Option Machine
  | .map vaddr paddr size flags, machine =>
    some (mapPages pgindex vaddr paddr size flags machine).2
  | .unmap vaddr size paddr, machine =>
    (unmapPages pgindex vaddr size paddr machine).map fun result => result.2.2

/-- How a call comes to `__free_intermediate_pgtable`, if it does: the range and the machine. -/
def Call.cleanUp (pgindex : Nat) : Call → Machine → Option (Nat × Nat × Machine)
  | .map vaddr paddr size _, machine =>
    if !isAligned paddr pageSize || !isAligned size pageSize || !isAligned vaddr pageSize then none
    else
      match mapFirst pgindex (((paddr + size) % 2 ^ 64 - paddr) / pageSize) vaddr
          machine.freshDesc machine with
      | (retcode, vcur, _, machine) =>
        if retcode = 0 then none else some (vaddr, wrapSub (2 ^ 32) vcur vaddr, machine)
  | .unmap vaddr size paddr, machine =>
    (unmapLoop pgindex (((vaddr + size) % 2 ^ 32 - vaddr + (pageSize - 1)) / pageSize) vaddr 0 0
      paddr ⟨0, 0⟩ machine).map fun result => (vaddr, result.1, result.2.2)

/-- The indices of the loop of `__free_intermediate_pgtable`. -/
def cleanedIndices (vaddr size : Nat) : List Nat :=
  List.range' (pdx vaddr)
    (pdx (wrapSub (2 ^ 32) ((vaddr + size) % 2 ^ 32) pageSize) + 1 - pdx vaddr)

variable {before : List Nat} {pgindex vaddr size stop index pages : Nat} {call : Call}
  {machine middle after : Machine} {desc found : PageDesc} {retcode : Int}

theorem Call.run_of_cleanUp (cleans : call.cleanUp pgindex machine = some (vaddr, size, middle)) :
    call.run pgindex machine = some ((cleanedIndices vaddr size).foldl
      (fun machine index => freeLeafTable pgindex index machine) middle) := by
  cases call with
  | map start paddr bytes flags =>
    simp only [cleanUp] at cleans
    split at cleans
    · cases cleans
    rename_i accepted
    rcases first : mapFirst pgindex (((paddr + bytes) % 2 ^ 64 - paddr) / pageSize) start
      machine.freshDesc machine with ⟨retcode, vcur, found, after⟩
    simp only [first] at cleans
    split at cleans
    · cases cleans
    rename_i failed
    cases cleans
    simp only [run, mapPages, if_neg accepted, first, if_neg failed]
    rfl
  | unmap start bytes paddr =>
    obtain ⟨⟨unmapped, stored, after⟩, loop, same⟩ := Option.map_eq_some_iff.mp cleans
    cases same
    simp only [run, unmapPages, loop, Option.map_some]
    rfl

/-- A property of every pass of a clean-up, with the machine the pass starts from. -/
def EachPass (holds : Nat → Machine → Prop) (pgindex : Nat) : List Nat → Machine → Prop
  | [], _ => True
  | index :: rest, machine =>
    holds index machine ∧ EachPass holds pgindex rest (freeLeafTable pgindex index machine)

/-- A property of every pass of a call. -/
def Call.EachPass (holds : Nat → Machine → Prop) (pgindex : Nat) (call : Call)
    (machine : Machine) : Prop :=
  ∀ vaddr size middle, call.cleanUp pgindex machine = some (vaddr, size, middle) →
    I386.EachPass holds pgindex (cleanedIndices vaddr size) middle

/-- A property of every call of a run, which ends when a call panics. -/
def EachCall (holds : Call → Machine → Prop) (pgindex : Nat) : List Call → Machine → Prop
  | [], _ => True
  | call :: rest, machine =>
    holds call machine ∧
      ∀ next, call.run pgindex machine = some next → EachCall holds pgindex rest next

/-- Two properties that agree, call by call, as long as an invariant of the state and the calls to
come holds: the invariant has to be kept by the calls that have the second. -/
theorem EachCall.congr {first second : Call → Machine → Prop}
    {invariant : List Call → Machine → Prop}
    (agree : ∀ call rest machine, invariant (call :: rest) machine →
      (first call machine ↔ second call machine) ∧
      (second call machine → ∀ next, call.run pgindex machine = some next → invariant rest next))
    (calls : List Call) (holds : invariant calls machine) :
    EachCall first pgindex calls machine ↔ EachCall second pgindex calls machine := by
  induction calls generalizing machine with
  | nil => exact Iff.rfl
  | cons call rest inductionHypothesis =>
    obtain ⟨here, keeps⟩ := agree call rest machine holds
    constructor
    · rintro ⟨done, others⟩
      refine ⟨here.mp done, fun next ran => ?_⟩
      exact (inductionHypothesis (keeps (here.mp done) next ran)).mp (others next ran)
    · rintro ⟨done, others⟩
      refine ⟨here.mpr done, fun next ran => ?_⟩
      exact (inductionHypothesis (keeps done next ran)).mpr (others next ran)

/-! ### What a pass should do -/

/-- The page a pass over an entry gives to `pgfree`. -/
def freedPage (pgindex index : Nat) (machine : Machine) : Nat :=
  kva2pa (ptePaddr (machine.word pgindex index))

/-- Whether the table of an entry holds an entry that is present. -/
def entryUsed (pgindex index : Nat) (machine : Machine) : Bool :=
  tableUsed machine (pa2kva (ptePaddr (machine.word pgindex index)))

/-- A pass is as it should be: the entry is present, and a page it frees is in use, was not in
use before the run, and is the page of a table that is present in the directory. -/
def Returns (before : List Nat) (pgindex index : Nat) (machine : Machine) : Prop :=
  present (machine.word pgindex index) = true ∧
    (entryUsed pgindex index machine = false →
      freedPage pgindex index machine ∈ machine.kernel.frames.inUse ∧
      freedPage pgindex index machine ∉ before ∧
      ∃ other < 1024, present (machine.word pgindex other) = true ∧
        ptePaddr (machine.word pgindex other) = freedPage pgindex index machine)

/-- The table of an entry of the directory is there and is not empty. -/
def Occupied (pgindex : Nat) (kernel : Kernel) (index : Nat) : Prop :=
  present (pde pgindex kernel index) = true ∧
    ∃ place < 1024, present (kernel.word .ilp32 (table pgindex kernel index) place) = true

theorem freeLeafTable_occupied (bound : index < 1024)
    (occupied : Occupied pgindex machine.kernel index) :
    freeLeafTable pgindex index machine = machine := by
  have used : tableUsed machine (pa2kva (ptePaddr (machine.word pgindex index))) = true :=
    tableUsed_iff.mpr occupied.2
  simp only [freeLeafTable, used, if_true]
  exact access_of_lt bound

/-- In a well-formed directory what a pass frees is not the page of a table. -/
theorem returns_iff (wellFormed : WellFormed pgindex machine.kernel) (bound : index < 1024) :
    Returns before pgindex index machine ↔ Occupied pgindex machine.kernel index := by
  constructor
  · rintro ⟨there, frees⟩
    refine ⟨there, tableUsed_iff.mp (Bool.of_not_eq_false fun unused => ?_)⟩
    obtain ⟨-, -, other, otherBound, otherThere, same⟩ := frees unused
    have small := (isFrame_iff.mp (wellFormed.owned other otherBound otherThere).2).2
    have frame := (isFrame_iff.mp (wellFormed.owned index bound there).2).2
    have large : freedPage pgindex index machine =
        0x80000000 + ptePaddr (pde pgindex machine.kernel index) :=
      mod_eq_of_lt (show 0x80000000 + ptePaddr (pde pgindex machine.kernel index) < 2 ^ 32 by
        omega)
    have address : ptePaddr (pde pgindex machine.kernel other) = freedPage pgindex index machine :=
      same
    omega
  · rintro ⟨there, used⟩
    exact ⟨there, fun unused => absurd ((tableUsed_iff.mpr used).symm.trans unused) (by decide)⟩

/-- A clean-up is as it should be exactly if it finds every table there and not empty, and then
it does nothing. -/
theorem eachPass_iff (wellFormed : WellFormed pgindex machine.kernel) (indices : List Nat)
    (bounds : ∀ index ∈ indices, index < 1024) :
    (EachPass (Returns before pgindex) pgindex indices machine ↔
      ∀ index ∈ indices, Occupied pgindex machine.kernel index) ∧
    ((∀ index ∈ indices, Occupied pgindex machine.kernel index) →
      indices.foldl (fun machine index => freeLeafTable pgindex index machine) machine =
        machine) := by
  induction indices with
  | nil => exact ⟨⟨fun _ => nofun, fun _ => trivial⟩, fun _ => rfl⟩
  | cons index rest inductionHypothesis =>
    obtain ⟨bound, laterBounds⟩ := forall_mem_cons.mp bounds
    obtain ⟨each, stays⟩ := inductionHypothesis laterBounds
    rw [forall_mem_cons, EachPass, returns_iff wellFormed bound]
    refine ⟨and_congr_right fun here => ?_, fun ⟨here, others⟩ => ?_⟩
    · rw [freeLeafTable_occupied bound here]
      exact each
    · rw [foldl_cons, freeLeafTable_occupied bound here]
      exact stays others

/-! ### Addresses -/

theorem pdx_lt {va : Nat} (inside : va < 2 ^ 32) : pdx va < 1024 := by
  rw [pdx, shiftRight_eq_div_pow]
  show va / 2 ^ 22 < 1024
  omega

theorem lt_of_mem_cleanedIndices (member : index ∈ cleanedIndices vaddr size) : index < 1024 := by
  have last : pdx (wrapSub (2 ^ 32) ((vaddr + size) % 2 ^ 32) pageSize) < 1024 :=
    pdx_lt (mod_lt _ (by decide))
  rw [cleanedIndices, mem_range'_1] at member
  omega

/-- The entry of an address, wherever its index leads. -/
def entryAt (pgindex : Nat) (kernel : Kernel) (va : Nat) : Nat :=
  kernel.word .ilp32 (table pgindex kernel (pdx va)) (ptx va)

theorem entryAt_congr {first second : Kernel} (memory : first.mem = second.mem) (va : Nat) :
    entryAt pgindex first va = entryAt pgindex second va := by
  simp only [entryAt, table, pde, Kernel.word, memory]

/-! ### What `map_pages` meets -/

/-- The entries of the directory that the first pages of a range need and that are not present, in
the order of the pages. -/
def missing (pgindex vaddr : Nat) (kernel : Kernel) : Nat → List Nat
  | 0 => []
  | page + 1 =>
    if present (pde pgindex kernel (pdx (pageAt vaddr page))) = true ∨
        pdx (pageAt vaddr page) ∈ missing pgindex vaddr kernel page then
      missing pgindex vaddr kernel page
    else missing pgindex vaddr kernel page ++ [pdx (pageAt vaddr page)]

/-- The memory with tables linked to the entries of the directory. -/
def linkTables (pgindex : Nat) (links : List (Nat × Nat)) (kernel : Kernel) : Kernel :=
  links.foldl (fun kernel link => linkTable pgindex link.1 link.2 kernel) kernel

/-- The memory in which the first pages of a range have their tables: those that are missing are
in the pages `pgalloc` is going to answer with. -/
def withTables (pgindex vaddr : Nat) (kernel : Kernel) (pages : Nat) : Kernel :=
  linkTables pgindex ((missing pgindex vaddr kernel pages).zip
    (kernel.frames.answers.filterMap id)) kernel

/-- A page at which `map_pages` fails: `pgalloc` does not grant the tables that are missing up to
it, or the entry of the page is present. -/
def StopsAt (pgindex vaddr : Nat) (kernel : Kernel) (page : Nat) : Prop :=
  ¬ kernel.frames.Grants isFrame (missing pgindex vaddr kernel (page + 1)).length ∨
    present (entryAt pgindex (withTables pgindex vaddr kernel (page + 1)) (pageAt vaddr page)) =
      true

theorem mem_linkTable {paddr : Nat} {first second : Kernel} (memory : first.mem = second.mem) :
    (linkTable pgindex index paddr first).mem = (linkTable pgindex index paddr second).mem := by
  simp only [linkTable, Kernel.setWord, Kernel.clearPage, memory]

/-- A new table is empty, and the others are as they were. -/
theorem occupied_linkTable {paddr other : Nat} {kernel : Kernel} {frames : Pool}
    (wellFormed : WellFormed pgindex kernel) (bound : index < 1024)
    (absent : present (pde pgindex kernel index) = false) (frame : isFrame paddr = true)
    (fresh : paddr ∉ kernel.frames.inUse) (otherBound : other < 1024) :
    Occupied pgindex (linkTable pgindex index paddr { kernel with frames }) other ↔
      Occupied pgindex kernel other := by
  have entry := @pde_linkTable _ _ _ _ frames wellFormed bound frame fresh _ otherBound
  unfold Occupied
  by_cases here : other = index
  · rw [here, absent]
    refine ⟨fun ⟨_, place, placeBound, marked⟩ => ?_, fun ⟨there, _⟩ => absurd there (by decide)⟩
    rw [if_pos here, here] at entry
    rw [table, entry, (linked_fields frame).2.2,
      word_linkTable_new wellFormed bound frame fresh placeBound] at marked
    exact absurd marked (by decide)
  · rw [if_neg here] at entry
    rw [table, entry, ← table]
    refine and_congr_right fun there => exists_congr fun place => and_congr_right fun small => ?_
    rw [word_linkTable_old wellFormed bound frame fresh otherBound there small]

/-- The first pass of `map_pages` after the given number of pages: their leaf tables are there, and
those that were missing are in the pages that were granted. -/
structure Passed (pgindex vaddr done : Nat) (granted : List Nat) (before kernel : Kernel) :
    Prop where
  formed : WellFormed pgindex kernel
  length : (missing pgindex vaddr before done).length = granted.length
  memory : kernel.mem =
    (linkTables pgindex ((missing pgindex vaddr before done).zip granted) before).mem
  answers : before.frames.answers = granted.map some ++ kernel.frames.answers
  entries : ∀ index < 1024, present (pde pgindex kernel index) = true ↔
    present (pde pgindex before index) = true ∨ index ∈ missing pgindex vaddr before done
  occupied : ∀ index < 1024, Occupied pgindex kernel index ↔ Occupied pgindex before index
  grants : ∀ count, before.frames.Grants isFrame (granted.length + count) ↔
    kernel.frames.Grants isFrame count

namespace Passed

variable {done : Nat} {granted : List Nat} {before kernel : Kernel}

theorem start (wellFormed : WellFormed pgindex kernel) : Passed pgindex vaddr 0 [] kernel kernel :=
  ⟨wellFormed, rfl, rfl, rfl, fun _ _ => (or_iff_left not_mem_nil).symm,
    fun _ _ => Iff.rfl, fun count => by rw [length_nil, Nat.zero_add]⟩

theorem memory_eq (passed : Passed pgindex vaddr done granted before kernel) :
    kernel.mem = (withTables pgindex vaddr before done).mem := by
  have pages : before.frames.answers.filterMap id =
      granted ++ kernel.frames.answers.filterMap id := by
    rw [passed.answers, filterMap_append, filterMap_map]
    exact congrArg (· ++ _) filterMap_some
  have zipped := @zip_append _ _ _ [] _ (kernel.frames.answers.filterMap id) passed.length
  rw [append_nil, zip_nil_left, append_nil] at zipped
  rw [passed.memory, withTables, pages, zipped]

theorem granted_all (passed : Passed pgindex vaddr done granted before kernel) :
    before.frames.Grants isFrame (missing pgindex vaddr before done).length := by
  have all := (passed.grants 0).mpr (Pool.grants_zero _ _)
  rwa [add_zero, ← passed.length] at all

/-- The next page has its table. -/
theorem next_there (passed : Passed pgindex vaddr done granted before kernel)
    (there : present (pde pgindex kernel (pdx (pageAt vaddr done))) = true) :
    Passed pgindex vaddr (done + 1) granted before kernel := by
  have same : missing pgindex vaddr before (done + 1) = missing pgindex vaddr before done :=
    if_pos ((passed.entries _ (pdx_lt (pageAt_lt vaddr done))).mp there)
  obtain ⟨formed, length, memory, answers, entries, occupied, grants⟩ := passed
  exact ⟨formed, same ▸ length, same ▸ memory, answers, same ▸ entries, occupied, grants⟩

theorem missing_next (passed : Passed pgindex vaddr done granted before kernel)
    (absent : present (pde pgindex kernel (pdx (pageAt vaddr done))) = false) :
    missing pgindex vaddr before (done + 1) =
      missing pgindex vaddr before done ++ [pdx (pageAt vaddr done)] := by
  refine if_neg fun there => ?_
  exact absurd (((passed.entries _ (pdx_lt (pageAt_lt vaddr done))).mpr there).symm.trans absent)
    (by decide)

/-- The next page gets its table. -/
theorem next_new (passed : Passed pgindex vaddr done granted before kernel)
    (absent : present (pde pgindex kernel (pdx (pageAt vaddr done))) = false)
    {paddr : Nat} {rest : List (Option Nat)} (frame : isFrame paddr = true)
    (fresh : paddr ∉ kernel.frames.inUse) (answer : kernel.frames.answers = some paddr :: rest) :
    Passed pgindex vaddr (done + 1) (granted ++ [paddr]) before
      (linkTable pgindex (pdx (pageAt vaddr done)) paddr { kernel with
        frames := { kernel.frames with
          inUse := paddr :: kernel.frames.inUse, answers := rest } }) := by
  have bound := pdx_lt (pageAt_lt vaddr done)
  have more := passed.missing_next absent
  refine ⟨wellFormed_linkTable passed.formed bound frame fresh rfl, ?_, ?_, ?_,
    fun index indexBound => ?_, fun index indexBound => ?_, fun count => ?_⟩
  · rw [more, length_append, length_append, passed.length]
    rfl
  · rw [more, zip_append passed.length, linkTables, foldl_append]
    exact mem_linkTable passed.memory
  · rw [passed.answers, answer, map_append, append_assoc]
    rfl
  · rw [pde_linkTable passed.formed bound frame fresh indexBound, more, mem_append, mem_singleton]
    split
    · rename_i here
      exact iff_of_true (linked_fields frame).2.1 (Or.inr (Or.inr here))
    · rename_i elsewhere
      rw [passed.entries index indexBound, or_iff_left elsewhere]
  · exact (occupied_linkTable passed.formed bound absent frame fresh indexBound).trans
      (passed.occupied index indexBound)
  · rw [length_append, Nat.add_assoc, passed.grants, length_singleton, Nat.add_comm 1,
      Pool.grants_succ_iff answer frame fresh]
    rfl

end Passed

variable {done : Nat} {granted : List Nat} {kernel : Kernel}

/-- The lookup of the next page: its table is there afterwards, or is refused. -/
theorem Passed.lookup (passed : Passed pgindex vaddr done granted kernel machine.kernel)
    (desc : PageDesc) :
    (∃ granted next, Passed pgindex vaddr (done + 1) granted kernel next ∧
      getpagedesc pgindex (pageAt vaddr done) true desc machine =
        (0, ⟨table pgindex next (pdx (pageAt vaddr done)), ptx (pageAt vaddr done)⟩,
          { machine with kernel := next })) ∨
    ¬ kernel.frames.Grants isFrame (missing pgindex vaddr kernel (done + 1)).length ∧
      ∃ frames, frames.inUse = machine.kernel.frames.inUse ∧
        getpagedesc pgindex (pageAt vaddr done) true desc machine =
          (-enomem, desc, { machine with kernel := { machine.kernel with frames } }) := by
  have bound := pdx_lt (pageAt_lt vaddr done)
  cases there : present (pde pgindex machine.kernel (pdx (pageAt vaddr done))) with
  | true =>
    exact Or.inl ⟨granted, machine.kernel, passed.next_there there, getpagedesc_there bound there⟩
  | false =>
    rcases @getpagedesc_create _ _ _ _ bound there with
      ⟨paddr, rest, frame, fresh, answer, made⟩ | ⟨frames, refused, inUse, made⟩
    · have next := passed.next_new there frame fresh answer
      have entry := @pde_linkTable _ _ _ _ { machine.kernel.frames with
        inUse := paddr :: machine.kernel.frames.inUse, answers := rest } passed.formed bound frame
        fresh _ bound
      rw [if_pos rfl] at entry
      refine Or.inl ⟨_, _, next, ?_⟩
      rw [made, table, entry, (linked_fields frame).2.2]
    · refine Or.inr ⟨?_, frames, inUse, made⟩
      rw [passed.missing_next there, length_append, passed.length, length_singleton, passed.grants]
      exact Pool.not_grants_of_refused refused

/-- The first pass of `map_pages` ends at the first page that stops it, and has not changed which
tables are there and not empty. -/
theorem Passed.mapFirst (passed : Passed pgindex vaddr done granted kernel machine.kernel)
    (clear : ∀ page < done, ¬ StopsAt pgindex vaddr kernel page) (pages : Nat)
    (call : mapFirst pgindex pages (pageAt vaddr done) desc machine =
      (retcode, stop, found, after)) :
    (retcode = 0 ∧ ∀ page < done + pages, ¬ StopsAt pgindex vaddr kernel page) ∨
    retcode ≠ 0 ∧ ∃ page < done + pages, stop = pageAt vaddr page ∧
      StopsAt pgindex vaddr kernel page ∧
      (∀ earlier < page, ¬ StopsAt pgindex vaddr kernel earlier) ∧
      WellFormed pgindex after.kernel ∧
      ∀ index < 1024, Occupied pgindex after.kernel index ↔ Occupied pgindex kernel index := by
  induction pages generalizing done granted desc machine with
  | zero =>
    cases call
    exact Or.inl ⟨rfl, clear⟩
  | succ pages inductionHypothesis =>
    unfold I386.mapFirst at call
    rcases passed.lookup desc with ⟨more, next, passedNext, lookup⟩ |
      ⟨refused, frames, inUse, lookup⟩
    · have entry : Machine.word { machine with kernel := next }
          (table pgindex next (pdx (pageAt vaddr done))) (ptx (pageAt vaddr done)) =
          entryAt pgindex (withTables pgindex vaddr kernel (done + 1)) (pageAt vaddr done) :=
        entryAt_congr passedNext.memory_eq _
      simp only [lookup, if_neg (show ¬ (0 : Int) = -enomem by decide), entry] at call
      split at call
      · rename_i marked
        cases call
        exact Or.inr ⟨by decide, done, by omega, rfl, Or.inr marked, clear, passedNext.formed,
          passedNext.occupied⟩
      · rename_i free
        have following : (pageAt vaddr done + pageSize) % 2 ^ 32 = pageAt vaddr (done + 1) :=
          pageAt_succ vaddr done
        rw [following] at call
        rw [show done + (pages + 1) = done + 1 + pages by omega]
        refine inductionHypothesis passedNext (fun page small => ?_) call
        rcases Nat.lt_succ_iff_lt_or_eq.mp small with earlier | rfl
        · exact clear page earlier
        · exact not_or.mpr ⟨not_not.mpr passedNext.granted_all, free⟩
    · rw [lookup] at call
      cases call
      exact Or.inr ⟨by decide, done, by omega, rfl, Or.inl refused, clear,
        passed.formed.congr (fun _ _ => rfl) inUse, passed.occupied⟩

/-! ### What `unmap_pages` does -/

/-- The memory with the entries of the first pages of a range zeroed. -/
def cleared (pgindex vaddr : Nat) (kernel : Kernel) : Nat → Kernel
  | 0 => kernel
  | page + 1 => (cleared pgindex vaddr kernel page).setWord .ilp32
      (table pgindex kernel (pdx (pageAt vaddr page))) (ptx (pageAt vaddr page)) 0

/-- The page has a leaf table once the entries before it are zeroed. -/
def HasTable (pgindex vaddr : Nat) (kernel : Kernel) (page : Nat) : Prop :=
  present (pde pgindex (cleared pgindex vaddr kernel page) (pdx (pageAt vaddr page))) = true

/-- The entry of the page follows the one of the first page, without mode bits. -/
def Follows (pgindex vaddr : Nat) (kernel : Kernel) (page : Nat) : Prop :=
  page = 0 ∨ entryAt pgindex (cleared pgindex vaddr kernel page) (pageAt vaddr page) =
    ptePaddr (entryAt pgindex kernel vaddr) + page * pageSize

/-- `unmap_pages` unmaps as many pages of a range and does not panic. -/
structure EndsAt (pgindex vaddr pages : Nat) (kernel : Kernel) (count : Nat) : Prop where
  bound : count ≤ pages
  unmapped : ∀ page < count, HasTable pgindex vaddr kernel page ∧ Follows pgindex vaddr kernel page
  stops : count = pages ∨ HasTable pgindex vaddr kernel count ∧ ¬ Follows pgindex vaddr kernel count

theorem EndsAt.unique {first second : Nat} (one : EndsAt pgindex vaddr pages kernel first)
    (other : EndsAt pgindex vaddr pages kernel second) : first = second := by
  have order : ∀ less more, EndsAt pgindex vaddr pages kernel less →
      EndsAt pgindex vaddr pages kernel more → ¬ less < more := by
    intro less more lessEnds moreEnds small
    rcases lessEnds.stops with all | ⟨-, ends⟩
    · exact absurd moreEnds.bound (by omega)
    · exact ends (moreEnds.unmapped less small).2
  exact le_antisymm (not_lt.mp (order _ _ other one)) (not_lt.mp (order _ _ one other))

theorem word_cleared (kernel : Kernel) (count leaf place : Nat) :
    (cleared pgindex vaddr kernel count).word .ilp32 leaf place = kernel.word .ilp32 leaf place ∨
      (cleared pgindex vaddr kernel count).word .ilp32 leaf place = 0 := by
  induction count with
  | zero => exact Or.inl rfl
  | succ page inductionHypothesis =>
    by_cases here : Kernel.slot .ilp32 leaf place = Kernel.slot .ilp32
      (table pgindex kernel (pdx (pageAt vaddr page))) (ptx (pageAt vaddr page))
    · right
      simp only [cleared, Kernel.word, Kernel.setWord, here, Function.update_self, zero_mod]
    · rw [cleared, word_setWord_of_ne here]
      exact inductionHypothesis

theorem pde_cleared {count : Nat}
    (there : present (pde pgindex (cleared pgindex vaddr kernel count) index) = true) :
    pde pgindex (cleared pgindex vaddr kernel count) index = pde pgindex kernel index := by
  refine (word_cleared kernel count pgindex index).resolve_right fun zero => ?_
  rw [pde, zero] at there
  exact absurd there (by decide)

theorem frames_cleared (kernel : Kernel) (count : Nat) :
    (cleared pgindex vaddr kernel count).frames = kernel.frames := by
  induction count with
  | zero => rfl
  | succ page inductionHypothesis => exact inductionHypothesis

theorem WellFormed.cleared (wellFormed : WellFormed pgindex kernel) (count : Nat) :
    WellFormed pgindex (cleared pgindex vaddr kernel count) :=
  wellFormed.shrink (fun _ _ there => pde_cleared there)
    (congrArg Pool.inUse (frames_cleared kernel count))

theorem getpagedesc_absent {va : Nat}
    (absent : present (pde pgindex machine.kernel (pdx va)) = false) :
    getpagedesc pgindex va false desc machine = (-enoent, desc, machine.access (pdx va)) := by
  have word : machine.word pgindex (pdx va) = pde pgindex machine.kernel (pdx va) := rfl
  simp only [getpagedesc, word, absent, Bool.false_eq_true, if_false, Bool.not_false, if_true]

/-- The loop of `unmap_pages` zeroes the entries of the pages it unmaps. -/
theorem unmapLoop_ends (pages : Nat) {pcur paddr : Nat} (inside : vaddr < 2 ^ 32)
    (memory : machine.kernel = cleared pgindex vaddr kernel done)
    (unmapped : ∀ page < done,
      HasTable pgindex vaddr kernel page ∧ Follows pgindex vaddr kernel page)
    (expected : done ≠ 0 → pcur = ptePaddr (entryAt pgindex kernel vaddr) + done * pageSize) :
    (unmapLoop pgindex pages (pageAt vaddr done) (done * pageSize) pcur paddr desc machine = none ∧
      ∀ count, ¬ EndsAt pgindex vaddr (done + pages) kernel count) ∨
    ∃ count stored after, unmapLoop pgindex pages (pageAt vaddr done) (done * pageSize) pcur paddr
        desc machine = some (count * pageSize, stored, after) ∧
      after.kernel = cleared pgindex vaddr kernel count ∧
      EndsAt pgindex vaddr (done + pages) kernel count := by
  induction pages generalizing done pcur paddr desc machine with
  | zero =>
    exact Or.inr ⟨done, paddr, machine, rfl, memory, le_refl done, unmapped, Or.inl rfl⟩
  | succ pages inductionHypothesis =>
    have bound := pdx_lt (pageAt_lt vaddr done)
    cases there : present (pde pgindex machine.kernel (pdx (pageAt vaddr done))) with
    | false =>
      have none : ¬ HasTable pgindex vaddr kernel done := by
        rw [HasTable, ← memory, there]
        decide
      refine Or.inl ⟨?_, fun count ends => ?_⟩
      · simp only [unmapLoop, getpagedesc_absent there, if_pos (show -enoent < 0 by decide)]
      · rcases lt_trichotomy count done with less | same | more
        · rcases ends.stops with all | ⟨-, stops⟩
          · omega
          · exact stops (unmapped count less).2
        · rcases ends.stops with all | ⟨found, -⟩
          · omega
          · exact none (same ▸ found)
        · exact none (ends.unmapped done more).1
    | true =>
      have found : HasTable pgindex vaddr kernel done := by rwa [HasTable, ← memory]
      have leaf : table pgindex machine.kernel (pdx (pageAt vaddr done)) =
          table pgindex kernel (pdx (pageAt vaddr done)) := by
        rw [memory] at there ⊢
        rw [table, pde_cleared there, table]
      have zeroed : (machine.setWord (table pgindex machine.kernel (pdx (pageAt vaddr done)))
          (ptx (pageAt vaddr done)) 0).kernel = cleared pgindex vaddr kernel (done + 1) := by
        rw [leaf, cleared, ← memory]
        rfl
      have later := fun follows pcur paddr => @inductionHypothesis _
        ⟨table pgindex machine.kernel (pdx (pageAt vaddr done)), ptx (pageAt vaddr done)⟩
        (done + 1) pcur paddr zeroed fun page small =>
          (Nat.lt_succ_iff_lt_or_eq.mp small).elim (unmapped page)
            fun same => same ▸ ⟨found, follows⟩
      have entry : machine.word (table pgindex machine.kernel (pdx (pageAt vaddr done)))
          (ptx (pageAt vaddr done)) =
          entryAt pgindex (cleared pgindex vaddr kernel done) (pageAt vaddr done) := by
        rw [← memory]
        rfl
      have following : (pageAt vaddr done + pageSize) % 2 ^ 32 = pageAt vaddr (done + 1) :=
        pageAt_succ vaddr done
      rw [show done + (pages + 1) = done + 1 + pages by omega]
      simp only [unmapLoop, getpagedesc_there bound there, if_neg (Int.lt_irrefl 0),
        entry, following]
      split
      · rename_i first
        have zero : done = 0 := (Nat.mul_eq_zero.mp first).resolve_right (by decide)
        subst zero
        exact later (Or.inl rfl) _ _ fun _ => by rw [pageAt_zero inside, cleared, Nat.one_mul]
      · rename_i begun
        have positive : done ≠ 0 := fun zero => begun (by rw [zero, Nat.zero_mul])
        split
        · rename_i different
          refine Or.inr ⟨done, paddr, _, rfl, memory, by omega, unmapped, Or.inr ⟨found, ?_⟩⟩
          exact not_or.mpr ⟨positive, expected positive ▸ different⟩
        · rename_i same
          rw [not_not, expected positive] at same
          rw [← succ_mul]
          exact later (Or.inr same) _ _ fun _ => by
            rw [expected positive, succ_mul, Nat.add_assoc]

/-! ### Calls -/

/-- A call for the first four megabytes. -/
def Call.Low : Call → Prop
  | .map vaddr _ size _ => vaddr < 2 ^ 22 ∧ vaddr + size ≤ 2 ^ 22
  | .unmap vaddr size _ => vaddr < 2 ^ 22 ∧ vaddr + size ≤ 2 ^ 22

/-- The first address of the range of a call. -/
def Call.address : Call → Nat
  | .map vaddr _ _ _ => vaddr
  | .unmap vaddr _ _ => vaddr

/-- What keeps a call from the errors of the clean-up, by the state before it. If a page stops
`map_pages`, all tables up to the page before it have been there and have not been empty. With
the entries zeroed that `unmap_pages` zeroes, all tables of the range it has unmapped are there
and are not empty. -/
def Call.Keeps (pgindex : Nat) : Call → Machine → Prop
  | .map vaddr paddr size _, machine =>
    isAligned paddr pageSize = true ∧ isAligned size pageSize = true ∧
        isAligned vaddr pageSize = true →
      ∀ page < ((paddr + size) % 2 ^ 64 - paddr) / pageSize,
        StopsAt pgindex vaddr machine.kernel page →
        (∀ earlier < page, ¬ StopsAt pgindex vaddr machine.kernel earlier) →
        ∀ index ∈ cleanedIndices vaddr (page * pageSize), Occupied pgindex machine.kernel index
  | .unmap vaddr size _, machine =>
    ∀ count, EndsAt pgindex vaddr (((vaddr + size) % 2 ^ 32 - vaddr + (pageSize - 1)) / pageSize)
        machine.kernel count →
      ∀ index ∈ cleanedIndices vaddr (count * pageSize),
        Occupied pgindex (cleared pgindex vaddr machine.kernel count) index

/-- The clean-up of a call is as it should be exactly if the call keeps clear of its errors, and
then the directory stays well formed if the call is for the first four megabytes. -/
def Call.Settled (before : List Nat) (pgindex : Nat) (call : Call) (machine : Machine) : Prop :=
  (call.EachPass (Returns before pgindex) pgindex machine ↔ call.Keeps pgindex machine) ∧
    (call.Keeps pgindex machine → call.Low →
      ∀ next, call.run pgindex machine = some next → WellFormed pgindex next.kernel)

theorem settled_of_cleanUp (formed : WellFormed pgindex middle.kernel)
    (cleans : call.cleanUp pgindex machine = some (vaddr, size, middle))
    (keeps : call.Keeps pgindex machine ↔
      ∀ index ∈ cleanedIndices vaddr size, Occupied pgindex middle.kernel index) :
    call.Settled before pgindex machine := by
  obtain ⟨each, stays⟩ := eachPass_iff formed (cleanedIndices vaddr size)
    fun _ => lt_of_mem_cleanedIndices
  constructor
  · rw [keeps, ← each]
    refine ⟨fun passes => passes vaddr size middle cleans, fun passes start bytes other same => ?_⟩
    rw [cleans] at same
    cases same
    exact passes
  · intro fine _ next ran
    rw [call.run_of_cleanUp cleans, stays (keeps.mp fine)] at ran
    cases ran
    exact formed

theorem settled_of_no_cleanUp (none : call.cleanUp pgindex machine = none)
    (keeps : call.Keeps pgindex machine)
    (formed : call.Low → ∀ next, call.run pgindex machine = some next →
      WellFormed pgindex next.kernel) : call.Settled before pgindex machine := by
  refine ⟨⟨fun _ => keeps, fun _ start bytes other cleans => ?_⟩, fun _ => formed⟩
  rw [none] at cleans
  cases cleans

/-- The range of the clean-up after a page that stops `map_pages`. -/
theorem cleanedIndices_pageAt (vaddr page : Nat) (inside : vaddr < 2 ^ 32) :
    cleanedIndices vaddr (wrapSub (2 ^ 32) (pageAt vaddr page) vaddr) =
      cleanedIndices vaddr (page * pageSize) := by
  have same : (vaddr + wrapSub (2 ^ 32) (pageAt vaddr page) vaddr) % 2 ^ 32 =
      (vaddr + page * pageSize) % 2 ^ 32 := by
    unfold wrapSub pageAt
    omega
  rw [cleanedIndices, same, cleanedIndices]

theorem wellFormed_map {paddr flags : Nat} {next : Machine}
    (wellFormed : WellFormed pgindex machine.kernel) (fits : vaddr + size ≤ 2 ^ 22)
    (call : mapPages pgindex vaddr paddr size flags machine = (0, next)) :
    WellFormed pgindex next.kernel := by
  by_cases work : 0 < size ∧ paddr + size < 2 ^ 64
  · obtain ⟨middle, formed, -, stored, -⟩ := mapPages_low wellFormed work.1 fits work.2 call
    exact formed.congr stored.directory (congrArg Pool.inUse stored.frames)
  · have none : ((paddr + size) % 2 ^ 64 - paddr) / pageSize = 0 := by
      unfold pageSize
      omega
    unfold mapPages at call
    split at call
    · cases call
    · simp only [none, mapFirst, mapSecond, if_true] at call
      cases call
      exact wellFormed

theorem settled_map {paddr flags : Nat} (wellFormed : WellFormed pgindex machine.kernel)
    (inside : vaddr < 2 ^ 32) :
    (Call.map vaddr paddr size flags).Settled before pgindex machine := by
  by_cases refused :
    (!isAligned paddr pageSize || !isAligned size pageSize || !isAligned vaddr pageSize) = true
  · refine settled_of_no_cleanUp (by rw [Call.cleanUp, if_pos refused]) ?_ fun _ next ran => ?_
    · rintro ⟨physical, whole, aligned⟩
      rw [physical, whole, aligned] at refused
      exact absurd refused (by decide)
    · rw [Call.run, mapPages, if_pos refused] at ran
      cases ran
      exact wellFormed
  rcases first : mapFirst pgindex (((paddr + size) % 2 ^ 64 - paddr) / pageSize) vaddr
    machine.freshDesc machine with ⟨retcode, stop, found, after⟩
  have pass := (Passed.start wellFormed).mapFirst (fun page none => absurd none (by omega)) _
    ((pageAt_zero inside).symm ▸ first)
  rw [zero_add] at pass
  rcases pass with ⟨rfl, passes⟩ | ⟨failed, page, bound, rfl, stops, clear, formed, occupied⟩
  · refine settled_of_no_cleanUp ?_ ?_ fun low next ran => ?_
    · simp only [Call.cleanUp, if_neg refused, first, if_true]
    · exact fun _ page bound stops => absurd stops (passes page bound)
    · refine wellFormed_map wellFormed low.2 (Prod.ext ?_ (Option.some.inj ran))
      simp only [mapPages, if_neg refused, first, if_true]
  · have cleans : (Call.map vaddr paddr size flags).cleanUp pgindex machine =
        some (vaddr, wrapSub (2 ^ 32) (pageAt vaddr page) vaddr, after) := by
      simp only [Call.cleanUp, if_neg refused, first, if_neg failed]
    refine settled_of_cleanUp formed cleans ?_
    rw [cleanedIndices_pageAt vaddr page inside]
    constructor
    · intro fine index member
      refine (occupied index (lt_of_mem_cleanedIndices member)).mpr
        (fine ?_ page bound stops clear index member)
      simpa only [Bool.or_eq_true, Bool.not_eq_true', not_or, Bool.not_eq_false, and_assoc]
        using refused
    · intro all _ other _ otherStops otherClear index member
      have same : other = page := by
        rcases lt_trichotomy other page with less | same | more
        · exact absurd otherStops (clear other less)
        · exact same
        · exact absurd stops (otherClear page more)
      exact (occupied index (lt_of_mem_cleanedIndices member)).mp (all index (same ▸ member))

theorem settled_unmap {paddr : Nat} (wellFormed : WellFormed pgindex machine.kernel)
    (inside : vaddr < 2 ^ 32) :
    (Call.unmap vaddr size paddr).Settled before pgindex machine := by
  have loop := @unmapLoop_ends pgindex _ machine ⟨0, 0⟩ _ machine.kernel
    (((vaddr + size) % 2 ^ 32 - vaddr + (pageSize - 1)) / pageSize) 0 paddr inside rfl
    (fun page none => absurd none (by omega)) (absurd rfl)
  rw [pageAt_zero inside, zero_mul, zero_add] at loop
  rcases loop with ⟨panics, never⟩ | ⟨count, stored, after, ran, memory, ends⟩
  · refine settled_of_no_cleanUp (by rw [Call.cleanUp, panics]; rfl)
      (fun count ends => absurd ends (never count)) fun _ next run => ?_
    rw [Call.run, unmapPages, panics] at run
    cases run
  · refine settled_of_cleanUp (memory ▸ wellFormed.cleared count)
      (by rw [Call.cleanUp, ran]; rfl) ?_
    rw [memory]
    exact ⟨fun fine => fine count ends, fun all other otherEnds => otherEnds.unique ends ▸ all⟩

/-! ### From `init_pgindex` on -/

theorem initPgindex_wellFormed {start : Machine}
    (created : initPgindex machine = (some pgindex, start)) : WellFormed pgindex start.kernel := by
  unfold initPgindex Machine.pgalloc at created
  rcases machine.kernel.frames.take_cases isFrame with
    ⟨paddr, rest, frame, fresh, -, taken⟩ | ⟨rest, refused⟩
  · rw [taken] at created
    cases created
    have empty : ∀ index < 1024, present (Kernel.word .ilp32 (Kernel.clearPage (pa2kva paddr)
        { machine.kernel with frames := { machine.kernel.frames with
          inUse := paddr :: machine.kernel.frames.inUse, answers := rest } })
        (pa2kva paddr) index) = false := by
      intro index bound
      rw [word_clearPage_same (isTable_pa2kva frame) bound]
      rfl
    refine ⟨⟨paddr, mem_cons_self, frame, rfl⟩, fun index bound there => ?_,
      fun index bound there => ?_, fun first bound second _ there => ?_⟩
    all_goals exact absurd (there.symm.trans (empty _ bound)) (by decide)
  · rw [refused] at created
    cases created

/-- The leaf tables are returned to where they came from exactly in the runs in which every call
keeps clear of the errors of the clean-up. The directory has to be well formed before every call,
which it is when all calls are for the first four megabytes. -/
theorem leaf_tables_returned_iff {pgindex : Nat} {machine start : Machine}
    (created : initPgindex machine = (some pgindex, start)) (calls : List Call)
    (typed : ∀ call ∈ calls, call.address < 2 ^ 32)
    (formed : (∀ call ∈ calls, call.Low) ∨
      EachCall (fun _ machine => WellFormed pgindex machine.kernel) pgindex calls start) :
    EachCall (Call.EachPass (Returns start.kernel.frames.inUse pgindex) pgindex) pgindex calls
        start ↔
      EachCall (Call.Keeps pgindex) pgindex calls start := by
  have settled : ∀ (call : Call) (machine : Machine), call.address < 2 ^ 32 →
      WellFormed pgindex machine.kernel →
      call.Settled start.kernel.frames.inUse pgindex machine := by
    intro call machine inside wellFormed
    cases call with
    | map vaddr paddr size flags => exact settled_map wellFormed inside
    | unmap vaddr size paddr => exact settled_unmap wellFormed inside
  rcases formed with low | each
  · refine @EachCall.congr _ _ _ _ (fun calls machine =>
      (∀ call ∈ calls, call.address < 2 ^ 32 ∧ call.Low) ∧ WellFormed pgindex machine.kernel) ?_
      calls ⟨fun call member => ⟨typed call member, low call member⟩,
        initPgindex_wellFormed created⟩
    rintro call rest machine ⟨all, wellFormed⟩
    obtain ⟨⟨inside, small⟩, later⟩ := forall_mem_cons.mp all
    obtain ⟨exactly, stays⟩ := settled call machine inside wellFormed
    exact ⟨exactly, fun fine next ran => ⟨later, stays fine small next ran⟩⟩
  · refine @EachCall.congr _ _ _ _ (fun calls machine =>
      (∀ call ∈ calls, call.address < 2 ^ 32) ∧
        EachCall (fun _ machine => WellFormed pgindex machine.kernel) pgindex calls machine) ?_
      calls ⟨typed, each⟩
    rintro call rest machine ⟨all, wellFormed, others⟩
    obtain ⟨inside, later⟩ := forall_mem_cons.mp all
    exact ⟨(settled call machine inside wellFormed).1, fun _ next ran => ⟨later, others next ran⟩⟩

/-- A machine before `init_pgindex`, with two pages to grant. -/
def newMachine : Machine := ⟨⟨fun _ => 0, ⟨[], [some 0x1000, some 0x2000], false, false⟩, 0⟩, false⟩

/-- Two pages are mapped and the first is unmapped: the table stays. -/
theorem leaf_tables_returned_second :
    (initPgindex newMachine).1 = some 0x80001000 ∧
      EachCall (Call.EachPass (Returns [0x1000] 0x80001000) 0x80001000) 0x80001000
        [.map 0x3000 0x9000 0x2000 0, .unmap 0x3000 0x1000 0] (initPgindex newMachine).2 := by
  refine ⟨by decide, (leaf_tables_returned_iff (show initPgindex newMachine =
    (some 0x80001000, (initPgindex newMachine).2) from rfl) _ ?_ (Or.inl ?_)).mpr ⟨?_, ?_⟩⟩
  · decide
  · intro call member
    rcases mem_pair.mp member with rfl | rfl
    · exact ⟨by decide, by decide⟩
    · exact ⟨by decide, by decide⟩
  · intro _ page bound stops
    have grants : (initPgindex newMachine).2.kernel.frames.Grants isFrame 1 :=
      ⟨[0x2000], [], rfl, by decide, by decide, by decide⟩
    have free : ∀ page < 2,
        (missing 0x80001000 0x3000 (initPgindex newMachine).2.kernel (page + 1)).length = 1 ∧
        present (entryAt 0x80001000 (withTables 0x80001000 0x3000
          (initPgindex newMachine).2.kernel (page + 1)) (pageAt 0x3000 page)) = false := by
      decide +kernel
    obtain ⟨count, absent⟩ := free page bound
    rcases stops with refused | marked
    · rw [count] at refused
      exact absurd grants refused
    · exact absurd (absent.symm.trans marked) (by decide)
  · intro next ran
    obtain rfl := Option.some.inj ran
    refine ⟨fun count ends => ?_, fun _ _ => trivial⟩
    have all : count = 1 := by
      have most : count ≤ 1 := ends.bound
      rcases ends.stops with whole | ⟨-, stops⟩
      · exact whole
      · have positive : count ≠ 0 := fun zero => stops (Or.inl zero)
        omega
    intro index member
    have first : index = 0 := by
      rw [all] at member
      exact mem_singleton.mp member
    rw [all, first]
    exact ⟨by decide +kernel, 4, by decide, by decide +kernel⟩

/-- A page is mapped and unmapped: the page of the leaf table is 0x2000, and 0x80002000 is
freed. -/
theorem leaf_table_lost :
    ((Call.unmap 0x3000 0x1000 0).cleanUp 0x80001000
      (mapPages 0x80001000 0x3000 0x9000 0x1000 0 (initPgindex newMachine).2).2).map
      (fun range => (freedPage 0x80001000 0 range.2.2, range.2.2.kernel.frames.inUse)) =
        some (0x80002000, [0x2000, 0x1000]) ∧
    ¬ EachCall (Call.EachPass (Returns [0x1000] 0x80001000) 0x80001000) 0x80001000
      [.map 0x3000 0x9000 0x1000 0, .unmap 0x3000 0x1000 0] (initPgindex newMachine).2 := by
  refine ⟨by decide +kernel, fun each => ?_⟩
  obtain ⟨passes, -⟩ := each.2 _ rfl
  have facts : ((Call.unmap 0x3000 0x1000 0).cleanUp 0x80001000
      (mapPages 0x80001000 0x3000 0x9000 0x1000 0 (initPgindex newMachine).2).2).map
      (fun range => (range.1, range.2.1, entryUsed 0x80001000 0 range.2.2,
        decide (freedPage 0x80001000 0 range.2.2 ∈ range.2.2.kernel.frames.inUse))) =
        some (0x3000, 0x1000, false, false) := by decide +kernel
  obtain ⟨⟨vaddr, size, middle⟩, cleans, same⟩ := Option.map_eq_some_iff.mp facts
  simp only [Prod.mk.injEq] at same
  obtain ⟨rfl, rfl, unused, freed⟩ := same
  have first := (passes _ _ _ cleans).1.2 unused
  exact of_decide_eq_false freed first.1

end I386

end AIMv6
