/-
This file follows the directories of the 64-bit page table through whole runs of `map_pages` and
`unmap_pages` that start at `init_pgindex`.

Two things in `kern/arch/mips/pgtable.c` keep the directories from being managed as they should
be: `__del_empty_pgdir` gives up at the first entry that is zero, so that an empty directory is
never released, and the code after a failed `pgalloc` reads directories it has not stored. A run
in which neither shows is one whose calls keep to `DirectoryCall.Fine`: a call of `map_pages`
finds its range free and gets every directory it lacks, or meets a mapped page before it lacks a
directory; a call of `unmap_pages` leaves another entry in the leaf table. In such a run every
directory leads to a mapped page, so none has to be released and none is.
-/

import AIMv6.DirectoryGrowth

namespace AIMv6

open Kernel Radix Nat Option

/-! ### The directories of a run -/

/-- The state of a page table without a directory to release: every directory leads to a mapped
page, and an entry that is not zero carries mode bits. -/
structure Leading (pgindex : Nat) (others : List Nat) (kernel : Kernel) : Prop where
  wellFormed : WellFormed .lp64 pgindex kernel
  accounted : Accounted pgindex others kernel
  leads : ∀ path table, path ≠ [] → path.length ≤ Abi.lp64.depth →
    walk (child .lp64 kernel) pgindex path = some table →
      ∃ va, path <+: dirPath .lp64 va ∧ entry .lp64 pgindex kernel va ≠ 0
  marked : ∀ va, entry .lp64 pgindex kernel va ≠ 0 → entry .lp64 pgindex kernel va % pageSize ≠ 0

/-- A PUD, PMD or PTE page that the tree consists of. -/
def Directory (pgindex : Nat) (kernel : Kernel) (table : Nat) : Prop :=
  Reached (child .lp64 kernel) pgindex Abi.lp64.depth table ∧ table ≠ pgindex

/-- The page of a table is in use. -/
def Allocated (kernel : Kernel) (table : Nat) : Prop :=
  ∃ paddr ∈ kernel.frames.inUse, isFrame .lp64 paddr = true ∧ table = pa2kva .lp64 paddr

variable {table paddr : Nat}

namespace Leading

variable {pgindex : Nat} {others : List Nat} {kernel : Kernel}
  (leading : Leading pgindex others kernel)

include leading

/-- Every directory holds an entry. -/
theorem live (directory : Directory pgindex kernel table) :
    ∃ index : Fin Abi.lp64.nrPtentries, kernel.word .lp64 table index ≠ 0 := by
  obtain ⟨⟨path, within, arrives⟩, below⟩ := directory
  have nonempty : path ≠ [] := by
    rintro rfl
    exact below (Option.some.inj arrives).symm
  obtain ⟨va, ⟨rest, whole⟩, nonzero⟩ := leading.leads path table nonempty within arrives
  cases found : leaf .lp64 pgindex kernel va with
  | none => exact absurd (entry_of_no_leaf found) nonzero
  | some last =>
    cases rest with
    | nil =>
      rw [List.append_nil] at whole
      rw [leaf, ← whole, arrives] at found
      cases found
      rw [entry, leaf, ← whole, arrives] at nonzero
      exact ⟨⟨ptx .lp64 va, ptx_lt .lp64 va⟩, nonzero⟩
    | cons index rest =>
      rw [leaf, ← whole, walk_append, arrives, bind_some, walk] at found
      obtain ⟨next, present, -⟩ := bind_eq_some_iff.mp found
      obtain ⟨nextNonzero, word⟩ := child_eq_some.mp present
      exact ⟨index, by rwa [word]⟩

theorem only_root (unmapped : ∀ va, entry .lp64 pgindex kernel va = 0)
    (inUse : paddr ∈ kernel.frames.inUse) : paddr ∈ others ∨ pa2kva .lp64 paddr = pgindex := by
  refine (leading.accounted paddr inUse).imp_right ?_
  rintro ⟨path, within, arrives⟩
  cases path with
  | nil => exact (Option.some.inj arrives).symm
  | cons index rest =>
    obtain ⟨va, -, nonzero⟩ := leading.leads _ _ (List.cons_ne_nil _ _) within arrives
    exact absurd (unmapped va) nonzero

/-- Storing mapping entries on all new paths of a tree that has grown. -/
theorem of_grows_stores {paths : Finset (List (Fin Abi.lp64.nrPtentries))} {middle after : Kernel}
    (grows : Grows pgindex others paths kernel middle) (stores : Stores pgindex middle after)
    (mapped : ∀ path ∈ paths, ∃ va, path <+: dirPath .lp64 va ∧
      entry .lp64 pgindex after va ≠ 0) : Leading pgindex others after := by
  have kept : ∀ va, entry .lp64 pgindex kernel va ≠ 0 → entry .lp64 pgindex after va ≠ 0 := by
    intro va nonzero
    refine stores.entry_ne_zero ?_
    rwa [grows.extension.entry_eq]
  refine ⟨stores.wellFormed, fun paddr inUse => ?_, fun path table nonempty within arrives => ?_,
    fun va nonzero => ?_⟩
  · rw [stores.frames_eq] at inUse
    refine (grows.supplied.accounted paddr inUse).imp_right ?_
    rintro ⟨path, within, arrives⟩
    exact ⟨path, within, (stores.walk_eq path within).trans arrives⟩
  · rw [stores.walk_eq path within] at arrives
    rcases grows.onlyPaths path within (by rw [arrives]; exact some_ne_none table) with
      before | member
    · obtain ⟨old, oldArrives⟩ := ne_none_iff_exists'.mp before
      obtain ⟨va, inside, nonzero⟩ := leading.leads path old nonempty within oldArrives
      exact ⟨va, inside, kept va nonzero⟩
    · exact mapped path member
  · rcases stores.entry_or va with same | marked
    · rw [same, grows.extension.entry_eq] at nonzero ⊢
      exact leading.marked va nonzero
    · exact marked

/-- Clearing one entry of a leaf table that holds another. -/
theorem of_clear {va : Nat} (found : leaf .lp64 pgindex kernel va = some table)
    {index : Fin Abi.lp64.nrPtentries} (different : index.val ≠ ptx .lp64 va)
    (nonzero : kernel.word .lp64 table index ≠ 0) :
    Leading pgindex others (kernel.setWord .lp64 table (ptx .lp64 va) 0) := by
  have wellFormed := leading.wellFormed
  have walks := @walk_setWord _ _ _ _ _ 0 _ wellFormed found (ptx_lt .lp64 va)
  have entries := entry_setWord_ptx wellFormed 0 found
  refine ⟨wellFormed_setWord wellFormed found (ptx_lt .lp64 va), fun paddr inUse => ?_,
    fun path target nonempty within arrives => ?_, fun page present => ?_⟩
  · refine (leading.accounted paddr inUse).imp_right ?_
    rintro ⟨path, within, arrives⟩
    exact ⟨path, within, (walks path within).trans arrives⟩
  · rw [walks path within] at arrives
    obtain ⟨page, inside, present⟩ := leading.leads path target nonempty within arrives
    by_cases here : leaf .lp64 pgindex kernel page = some table ∧ ptx .lp64 page = ptx .lp64 va
    · obtain ⟨other, samePath, place⟩ := exists_address page index
      have otherLeaf : leaf .lp64 pgindex kernel other = some table := by
        rw [leaf, samePath]
        exact here.1
      refine ⟨other, by rwa [samePath], ?_⟩
      rw [entries, if_neg (fun both => different (place.symm.trans both.2)),
        entry_of_leaf otherLeaf, place]
      exact nonzero
    · exact ⟨page, inside, by rwa [entries, if_neg here]⟩
  · rw [entries] at present ⊢
    split at present
    · exact absurd (zero_mod _) present
    · rename_i elsewhere
      rw [if_neg elsewhere]
      exact leading.marked page present

end Leading

/-! ### The calls -/

/-- The pages that the loops of `map_pages` go over. -/
def mapCount (paddr size : Nat) : Nat := ((paddr + size) % 2 ^ 64 - paddr) / pageSize

/-- The pages that the loop of `unmap_pages` goes over at most. -/
def unmapCount (vaddr size : Nat) : Nat :=
  ((vaddr + size) % 2 ^ 64 - vaddr + (pageSize - 1)) / pageSize

/-- A call on a page table; `paddr` of `unmap` is what the caller's variable holds before. -/
inductive DirectoryCall where
  | map (vaddr paddr size : UInt64) (flags : UInt32)
  | unmap (vaddr size paddr : UInt64)

namespace DirectoryCall

/-- What a call returns and the kernel after it; `none` is `panic`. -/
def run (pgindex : Nat) : DirectoryCall → Kernel → Option (Int × Kernel)
  | map vaddr paddr size flags, kernel =>
    some (mapPages .lp64 pgindex vaddr.toNat paddr.toNat size.toNat flags.toNat kernel)
  | unmap vaddr size paddr, kernel =>
    (unmapPages .lp64 pgindex vaddr.toNat size.toNat paddr.toNat kernel).map fun result =>
      (result.1, result.2.2)

/-- The calls in which no directory has to be released: `map_pages` is given what is not aligned, or
meets a mapped page while all tables are there, or finds its range free and is granted the tables
it lacks; `unmap_pages` leaves another entry in the leaf table. -/
def Fine (pgindex : Nat) (kernel : Kernel) : DirectoryCall → Prop
  | map vaddr paddr size _ =>
    ¬ (vaddr.toNat % pageSize = 0 ∧ paddr.toNat % pageSize = 0 ∧ size.toNat % pageSize = 0) ∨
    (∃ page < mapCount paddr.toNat size.toNat,
      entry .lp64 pgindex kernel (vaddr.toNat + page * pageSize) ≠ 0 ∧
      ∀ earlier ≤ page, ∃ table,
        leaf .lp64 pgindex kernel (vaddr.toNat + earlier * pageSize) = some table) ∨
    (∀ page < mapCount paddr.toNat size.toNat,
      entry .lp64 pgindex kernel (vaddr.toNat + page * pageSize) = 0) ∧
    kernel.frames.Grants (isFrame .lp64)
      (lacking pgindex kernel (rangePaths vaddr.toNat (mapCount paddr.toNat size.toNat))).card
  | unmap vaddr size _ =>
    unmapCount vaddr.toNat size.toNat = 0 ∨
    ∃ (table : Nat) (index : Fin Abi.lp64.nrPtentries),
      leaf .lp64 pgindex kernel vaddr.toNat = some table ∧ index.val ≠ ptx .lp64 vaddr.toNat ∧
      kernel.word .lp64 table index ≠ 0

end DirectoryCall

/-- What one call does to the directories: a directory is released exactly when it holds no entry
any more, and a call of `map_pages` that fails for lack of memory or at a mapped page leaves all
directories as they were. -/
structure DirectoriesExact (pgindex : Nat) (before after : Kernel) (retcode : Int) : Prop where
  released : ∀ table, Directory pgindex before table →
    (¬ Allocated after table ↔ ∀ index : Fin Abi.lp64.nrPtentries, after.word .lp64 table index = 0)
  undone : retcode = -enomem ∨ retcode = -eexist →
    after.mem = before.mem ∧ after.frames.inUse = before.frames.inUse

/-- What holds of the directories between two calls: each holds an entry, no page is in use that
is not in the tree, and without a mapped page the tree is the root. -/
structure DirectoriesManaged (pgindex : Nat) (others : List Nat) (kernel : Kernel) : Prop where
  live : ∀ table, Directory pgindex kernel table →
    ∃ index : Fin Abi.lp64.nrPtentries, kernel.word .lp64 table index ≠ 0
  accounted : Accounted pgindex others kernel
  onlyRoot : (∀ va, entry .lp64 pgindex kernel va = 0) →
    ∀ paddr ∈ kernel.frames.inUse, paddr ∈ others ∨ pa2kva .lp64 paddr = pgindex

variable {start : Kernel}

section Steps

variable {pgindex : Nat} {others : List Nat} {kernel after : Kernel}

/-- A call that keeps every table of the tree, and leads each to a mapped page. -/
structure Keeps (pgindex : Nat) (others : List Nat) (before after : Kernel) : Prop where
  leading : Leading pgindex others after
  reached : ∀ table, Reached (child .lp64 before) pgindex Abi.lp64.depth table →
    Reached (child .lp64 after) pgindex Abi.lp64.depth table

theorem Keeps.refl (leading : Leading pgindex others kernel) : Keeps pgindex others kernel kernel :=
  ⟨leading, fun _ reached => reached⟩

theorem Keeps.released (keeps : Keeps pgindex others kernel after)
    (directory : Directory pgindex kernel table) :
    ¬ Allocated after table ↔
      ∀ index : Fin Abi.lp64.nrPtentries, after.word .lp64 table index = 0 := by
  have stays := keeps.reached table directory.1
  obtain ⟨index, nonzero⟩ := keeps.leading.live ⟨stays, directory.2⟩
  exact ⟨fun no => absurd (keeps.leading.wellFormed.owned table stays) no,
    fun empty => absurd (empty index) nonzero⟩

variable {vaddr size pages flags : Nat} {result : Nat × Nat × Kernel}

theorem mem_rangePaths {path : List (Fin Abi.lp64.nrPtentries)} :
    path ∈ rangePaths vaddr pages ↔
      ∃ page < pages, path <+: dirPath .lp64 (vaddr + page * pageSize) := by
  rw [rangePaths, Finset.mem_biUnion]
  simp only [Finset.mem_range, List.mem_toFinset, List.mem_inits]

theorem mapPages_unaligned
    (unaligned : ¬ (vaddr % pageSize = 0 ∧ paddr % pageSize = 0 ∧ size % pageSize = 0)) :
    mapPages .lp64 pgindex vaddr paddr size flags kernel = (-einval, kernel) := by
  refine if_pos ?_
  by_contra accepted
  simp only [Bool.or_eq_true, Bool.not_eq_true', not_or, Bool.not_eq_false,
    show pageSize = 2 ^ 12 from rfl, isAligned_two_pow] at accepted
  exact unaligned ⟨accepted.2, accepted.1.1, accepted.1.2⟩

/-- A call of `map_pages` on a free range with enough memory. -/
theorem mapPages_free {vaddr paddr size flags : Nat} (leading : Leading pgindex others kernel)
    (free : ∀ page < mapCount paddr size, entry .lp64 pgindex kernel (vaddr + page * pageSize) = 0)
    (grants : kernel.frames.Grants (isFrame .lp64)
      (lacking pgindex kernel (rangePaths vaddr (mapCount paddr size))).card) :
    Keeps pgindex others kernel (mapPages .lp64 pgindex vaddr paddr size flags kernel).2 ∧
      ((mapPages .lp64 pgindex vaddr paddr size flags kernel).1 = 0 ∨
        (mapPages .lp64 pgindex vaddr paddr size flags kernel).1 = -einval) := by
  have short : ∀ path ∈ rangePaths vaddr (mapCount paddr size), path.length ≤ Abi.lp64.depth := by
    intro path member
    obtain ⟨page, -, inside⟩ := mem_rangePaths.mp member
    exact inside.length_le.trans (le_of_eq (length_dirPath .lp64 _))
  obtain ⟨stop, found, middle, first, grows, leaves⟩ := @mapFirst_grows _ _ _ short
    (mapCount paddr size) _ kernel.freshDesc _
    ⟨leading.wellFormed, leading.accounted, grants⟩
    (fun page bound path inside => mem_rangePaths.mpr ⟨page, bound, inside⟩) free
  obtain ⟨stores, entries⟩ :=
    @mapSecond_stores _ _ (mapCount paddr size) _ _ found
    middle grows.supplied.wellFormed leaves
  unfold mapPages
  split
  · exact ⟨Keeps.refl leading, Or.inr rfl⟩
  rw [show ((paddr + size) % 2 ^ 64 - paddr) / pageSize = mapCount paddr size from rfl]
  simp only [first, if_true]
  refine ⟨⟨leading.of_grows_stores grows stores fun path member => ?_, ?_⟩, Or.inl trivial⟩
  · obtain ⟨page, bound, inside⟩ := mem_rangePaths.mp member
    exact ⟨_, inside, entries page bound⟩
  · rintro table ⟨path, within, arrives⟩
    exact ⟨path, within, (stores.walk_eq path within).trans
      (grows.extension.walk_some path within table arrives)⟩

/-- A call of `map_pages` that meets a mapped page while all tables are there changes nothing. -/
theorem mapPages_blocked {page : Nat} (fits : vaddr < 2 ^ 64) (inside : page < mapCount paddr size)
    (mapped : entry .lp64 pgindex kernel (vaddr + page * pageSize) ≠ 0)
    (leaves : ∀ earlier ≤ page, ∃ table,
      leaf .lp64 pgindex kernel (vaddr + earlier * pageSize) = some table) :
    (mapPages .lp64 pgindex vaddr paddr size flags kernel).2 = kernel := by
  obtain ⟨reached, stop, found, bound, first, place, free⟩ :=
    mapFirst_blocked (mapCount paddr size) kernel.freshDesc inside mapped leaves
  have back : wrapSub Abi.lp64.modulus stop vaddr / pageSize ≤ reached := by
    show (stop + (2 ^ 64 - vaddr)) % 2 ^ 64 / 4096 ≤ reached
    unfold pageSize at place
    omega
  unfold mapPages
  split
  · rfl
  rw [show ((paddr + size) % 2 ^ 64 - paddr) / pageSize = mapCount paddr size from rfl]
  simp only [first, if_neg (show ¬ -eexist = 0 by decide)]
  refine freeIntermediate_keeps fun earlier sooner => ?_
  obtain ⟨table, there⟩ := leaves earlier (by omega)
  refine ⟨table, _, there, ptx_lt .lp64 (vaddr + earlier * pageSize), ?_⟩
  rw [← entry_of_leaf there]
  exact free earlier (by omega)

theorem ptePaddr_lp64_aligned (pte : Nat) : ptePaddr .lp64 pte % pageSize = 0 := by
  rw [ptePaddr, show pageSize = 2 ^ 12 from rfl, and_mod_two_pow,
    show (Abi.lp64.modulus - 1 - pteLowMask) % 2 ^ 12 = 0 from rfl, and_zero]

/-- The loop of `unmap_pages` clears the entry of its first page and stops: a later entry carries
mode bits, so it is never the physical address the loop compares it with. -/
theorem unmapLoop_clears_first (leading : Leading pgindex others kernel)
    (found : leaf .lp64 pgindex kernel vaddr = some table) (desc : PageDesc)
    (call : unmapLoop .lp64 pgindex (pages + 1) vaddr 0 0 paddr desc kernel = some result) :
    result.1 = pageSize ∧ result.2.2 = kernel.setWord .lp64 table (ptx .lp64 vaddr) 0 := by
  have entries := entry_setWord_ptx leading.wellFormed 0 found
  unfold unmapLoop at call
  rcases getpagedesc_find .lp64 pgindex vaddr desc kernel with ⟨missing, -⟩ |
    ⟨made, there, index, done⟩
  · rw [missing] at found
    cases found
  rw [there] at found
  cases found
  simp only [done, index, if_neg (Int.lt_irrefl 0), if_true] at call
  generalize kernel.setWord .lp64 made.ptev (ptx .lp64 vaddr) 0 = cleared at call entries ⊢
  cases pages with
  | zero =>
    cases call
    exact ⟨rfl, rfl⟩
  | succ pages =>
    unfold unmapLoop at call
    rcases getpagedesc_find .lp64 pgindex ((vaddr + pageSize) % Abi.lp64.modulus) made cleared with
      ⟨-, other, failed⟩ | ⟨other, otherThere, otherIndex, otherDone⟩
    · simp only [failed, if_pos (show -enoent < 0 by decide)] at call
      cases call
    · have different : cleared.word .lp64 other.ptev other.ptx ≠
          ptePaddr .lp64 (kernel.word .lp64 made.ptev (ptx .lp64 vaddr)) + pageSize := by
        rw [otherIndex, ← entry_of_leaf otherThere, entries]
        have aligned := ptePaddr_lp64_aligned (kernel.word .lp64 made.ptev (ptx .lp64 vaddr))
        generalize ptePaddr .lp64 (kernel.word .lp64 made.ptev (ptx .lp64 vaddr)) = start at aligned
        split
        · exact Nat.ne_of_lt (Nat.add_pos_right start (by decide : 0 < pageSize))
        · intro same
          have marked := leading.marked ((vaddr + pageSize) % Abi.lp64.modulus)
          rw [same, add_mod_right] at marked
          exact marked (Nat.ne_of_gt (Nat.add_pos_right start (by decide : 0 < pageSize))) aligned
      simp only [otherDone, if_neg (Int.lt_irrefl 0),
        if_neg (show ¬ pageSize = 0 by decide), if_pos different] at call
      cases call
      exact ⟨rfl, rfl⟩

/-- A call of `unmap_pages` that leaves another entry in the leaf table. -/
theorem unmapPages_keeps (leading : Leading pgindex others kernel)
    (fine : unmapCount vaddr size = 0 ∨ ∃ (table : Nat) (index : Fin Abi.lp64.nrPtentries),
      leaf .lp64 pgindex kernel vaddr = some table ∧ index.val ≠ ptx .lp64 vaddr ∧
      kernel.word .lp64 table index ≠ 0)
    (call : unmapPages .lp64 pgindex vaddr size paddr kernel = some result) :
    Keeps pgindex others kernel result.2.2 := by
  unfold unmapPages at call
  rw [show ((vaddr + size) % Abi.lp64.modulus - vaddr + (pageSize - 1)) / pageSize =
    unmapCount vaddr size from rfl] at call
  cases count : unmapCount vaddr size with
  | zero =>
    rw [count] at call
    cases call
    rw [freeIntermediate_keeps fun page bound => absurd bound (by decide +revert)]
    exact Keeps.refl leading
  | succ pages =>
    obtain ⟨table, index, found, different, nonzero⟩ :=
      fine.resolve_left (by rw [count]; exact succ_ne_zero pages)
    rw [count] at call
    cases loop : unmapLoop .lp64 pgindex (pages + 1) vaddr 0 0 paddr kernel.freshDesc kernel with
    | none =>
      rw [loop] at call
      cases call
    | some out =>
      obtain ⟨unmapped, place, cleared⟩ := out
      rw [loop] at call
      cases call
      obtain ⟨one, same⟩ := unmapLoop_clears_first leading found kernel.freshDesc loop
      dsimp only at one same ⊢
      have later := leading.of_clear found different nonzero
      have walks := @walk_setWord _ _ _ _ _ 0 _ leading.wellFormed found (ptx_lt .lp64 vaddr)
      have zero : (kernel.setWord .lp64 table (ptx .lp64 vaddr) 0).word .lp64 table
          (ptx .lp64 vaddr) = 0 := word_setWord_same
      rw [← same] at later walks zero
      rw [freeIntermediate_keeps fun page bound => ?_]
      · exact ⟨later, fun target ⟨path, within, arrives⟩ =>
          ⟨path, within, (walks path within).trans arrives⟩⟩
      · rw [one, Nat.div_self (by decide), lt_one_iff] at bound
        rw [bound, zero_mul, add_zero]
        exact ⟨table, _, (walks _ (le_of_eq (length_dirPath .lp64 vaddr))).trans found,
          ptx_lt .lp64 vaddr, zero⟩

theorem DirectoryCall.step {call : DirectoryCall} {retcode : Int}
    (leading : Leading pgindex others kernel) (fine : call.Fine pgindex kernel)
    (done : call.run pgindex kernel = some (retcode, after)) :
    Keeps pgindex others kernel after ∧
      (retcode = -enomem ∨ retcode = -eexist → after = kernel) := by
  cases call with
  | map vaddr paddr size flags =>
    have result := Option.some.inj done
    rcases fine with unaligned | ⟨page, inside, mapped, leaves⟩ | ⟨free, grants⟩
    · rw [mapPages_unaligned unaligned] at result
      cases result
      exact ⟨Keeps.refl leading, fun _ => rfl⟩
    · have same : after = kernel := by
        rw [← mapPages_blocked vaddr.toNat_lt inside mapped leaves, result]
      subst same
      exact ⟨Keeps.refl leading, fun _ => rfl⟩
    · obtain ⟨keeps, code⟩ :=
        @mapPages_free _ _ _ _ _ _
        flags.toNat leading free grants
      rw [result] at keeps code
      refine ⟨keeps, fun failed => ?_⟩
      rcases code with rfl | rfl <;> exact absurd failed (by decide)
  | unmap vaddr size paddr =>
    obtain ⟨result, call, same⟩ := map_eq_some_iff.mp done
    cases same
    refine ⟨unmapPages_keeps leading fine call, fun failed => ?_⟩
    have positive := Int.natCast_nonneg result.1
    rcases failed with failed | failed <;> rw [failed] at positive <;>
      exact absurd positive (by decide)

/-- The page table that `init_pgindex` makes. -/
theorem initPgindex_leading {before : Kernel}
    (init : initPgindex .lp64 before = (some pgindex, start)) :
    Leading pgindex before.frames.inUse start := by
  rcases pgalloc_cases .lp64 before with ⟨paddr, frames, frame, fresh, granted, taken⟩ |
    ⟨frames, refused⟩
  · rw [initPgindex, taken] at init
    cases init
    have empty : ∀ index : Fin Abi.lp64.nrPtentries,
        (Kernel.clearPage (pa2kva .lp64 paddr) { before with frames }).word .lp64
          (pa2kva .lp64 paddr) index = 0 :=
      fun index => word_clearPage_same (isTable_pa2kva frame) index.isLt
    have inUse : (Kernel.clearPage (pa2kva .lp64 paddr) { before with frames }).frames.inUse =
        paddr :: before.frames.inUse := granted
    have noPath : ∀ (path : List (Fin Abi.lp64.nrPtentries)), path ≠ [] →
        walk (child .lp64 (Kernel.clearPage (pa2kva .lp64 paddr) { before with frames }))
          (pa2kva .lp64 paddr) path = none := by
      intro path nonempty
      cases path with
      | nil => exact absurd rfl nonempty
      | cons index rest =>
        rw [walk, child_eq_none.mpr (empty index)]
        rfl
    have noEntry : ∀ va, entry .lp64 (pa2kva .lp64 paddr)
        (Kernel.clearPage (pa2kva .lp64 paddr) { before with frames }) va = 0 :=
      fun va => entry_of_no_leaf (noPath _ (List.cons_ne_nil _ _))
    refine ⟨wellFormed_of_empty frame (by rw [inUse]; exact List.mem_cons_self) empty,
      fun used member => ?_, fun path table nonempty _ arrives => ?_,
      fun va nonzero => absurd (noEntry va) nonzero⟩
    · rw [inUse] at member
      rcases List.mem_cons.mp member with rfl | old
      · exact Or.inr ⟨[], zero_le _, rfl⟩
      · exact Or.inl old
    · rw [noPath path nonempty] at arrives
      cases arrives
  · rw [initPgindex, refused] at init
    cases init

end Steps

/-! ### Runs -/

/-- The states that calls on a page table lead to, each of them one in which no directory has to be
released. -/
inductive FineRun (pgindex : Nat) (start : Kernel) : Kernel → Prop
  | start : FineRun pgindex start start
  | call {kernel after : Kernel} {call : DirectoryCall} {retcode : Int}
      (run : FineRun pgindex start kernel) (fine : call.Fine pgindex kernel)
      (done : call.run pgindex kernel = some (retcode, after)) : FineRun pgindex start after

theorem FineRun.leading {pgindex : Nat} {others : List Nat} {kernel : Kernel}
    (run : FineRun pgindex start kernel) (leading : Leading pgindex others start) :
    Leading pgindex others kernel := by
  induction run with
  | start => exact leading
  | call _ fine done inductionHypothesis =>
    exact (DirectoryCall.step inductionHypothesis fine done).1.leading

/-- In a run of such calls the directories are managed as they should be: between the calls each
directory holds an entry and nothing but the tables of the tree is in use, and each call releases
a directory exactly when it is empty and undoes what it did when it fails. -/
theorem directories_managed {pgindex : Nat} {before start kernel : Kernel}
    (init : initPgindex .lp64 before = (some pgindex, start))
    (run : FineRun pgindex start kernel) :
    DirectoriesManaged pgindex before.frames.inUse kernel ∧
      ∀ call retcode after, DirectoryCall.Fine pgindex kernel call →
        call.run pgindex kernel = some (retcode, after) →
          DirectoriesExact pgindex kernel after retcode := by
  have leading := run.leading (initPgindex_leading init)
  refine ⟨⟨fun table directory => leading.live directory, leading.accounted,
    fun unmapped paddr inUse => leading.only_root unmapped inUse⟩,
    fun call retcode after fine done => ?_⟩
  obtain ⟨keeps, undone⟩ := DirectoryCall.step leading fine done
  exact ⟨fun table directory => keeps.released directory, fun failed => by
    rw [undone failed]
    exact ⟨rfl, rfl⟩⟩

/-- A kernel whose memory is zero and which has four pages to grant. -/
def fourPages : Kernel :=
  { mem := fun _ => 0
    frames := ⟨[], [some 0x1000, some 0x2000, some 0x3000, some 0x4000], false, false⟩
    junk := 0 }

/-- Two pages are mapped, then one of them is unmapped. -/
theorem directories_managed_twoPages :
    ∃ start mapped, initPgindex .lp64 fourPages = (some (pa2kva .lp64 0x1000), start) ∧
      (DirectoryCall.map 0x7000 0x9000 0x2000 0).run (pa2kva .lp64 0x1000) start =
        some (0, mapped) ∧
      DirectoriesManaged (pa2kva .lp64 0x1000) [] mapped ∧
      ∃ after, (DirectoryCall.unmap 0x7000 0x1000 0).run (pa2kva .lp64 0x1000) mapped =
          some (4096, after) ∧
        DirectoriesExact (pa2kva .lp64 0x1000) mapped after 4096 := by
  have fine : DirectoryCall.Fine (pa2kva .lp64 0x1000) (initPgindex .lp64 fourPages).2
      (.map 0x7000 0x9000 0x2000 0) :=
    Or.inr <| Or.inr ⟨by decide +kernel, [0x2000, 0x3000, 0x4000], [], by decide +kernel, by decide,
      by decide +kernel, by decide +kernel⟩
  have maps : (DirectoryCall.map 0x7000 0x9000 0x2000 0).run (pa2kva .lp64 0x1000)
      (initPgindex .lp64 fourPages).2 = some (0, (mapPages .lp64 (pa2kva .lp64 0x1000) 0x7000 0x9000
        0x2000 0 (initPgindex .lp64 fourPages).2).2) :=
    congrArg some (Prod.ext (by decide +kernel) rfl)
  have init : initPgindex .lp64 fourPages =
      (some (pa2kva .lp64 0x1000), (initPgindex .lp64 fourPages).2) :=
    Prod.ext (by decide +kernel) rfl
  obtain ⟨managed, exactly⟩ := directories_managed init (FineRun.call FineRun.start fine maps)
  have unmaps : ((DirectoryCall.unmap 0x7000 0x1000 0).run (pa2kva .lp64 0x1000)
      (mapPages .lp64 (pa2kva .lp64 0x1000) 0x7000 0x9000 0x2000 0
        (initPgindex .lp64 fourPages).2).2).map Prod.fst = some 4096 := by decide +kernel
  obtain ⟨⟨retcode, after⟩, done, rfl⟩ := map_eq_some_iff.mp unmaps
  refine ⟨_, _, init, maps, managed, after, done, exactly (.unmap 0x7000 0x1000 0) 4096 after
      (Or.inr ⟨pa2kva .lp64 0x4000, ⟨8, by decide⟩, ?_⟩) done⟩
  decide +kernel

/-- One page is mapped and unmapped again: its leaf table is empty and stays allocated. -/
theorem unmap_leaves_empty_directory :
    ∃ start mapped after, initPgindex .lp64 fourPages = (some (pa2kva .lp64 0x1000), start) ∧
      (DirectoryCall.map 0x7000 0x9000 0x1000 0).run (pa2kva .lp64 0x1000) start =
        some (0, mapped) ∧
      (DirectoryCall.unmap 0x7000 0x1000 0).run (pa2kva .lp64 0x1000) mapped = some (4096, after) ∧
      after.frames.inUse = [0x4000, 0x3000, 0x2000, 0x1000] ∧
      ¬ DirectoriesManaged (pa2kva .lp64 0x1000) [] after ∧
      ¬ DirectoriesExact (pa2kva .lp64 0x1000) mapped after 4096 := by
  have maps : (DirectoryCall.map 0x7000 0x9000 0x1000 0).run (pa2kva .lp64 0x1000)
      (initPgindex .lp64 fourPages).2 = some (0, (mapPages .lp64 (pa2kva .lp64 0x1000) 0x7000 0x9000
        0x1000 0 (initPgindex .lp64 fourPages).2).2) :=
    congrArg some (Prod.ext (by decide +kernel) rfl)
  have unmaps : ((DirectoryCall.unmap 0x7000 0x1000 0).run (pa2kva .lp64 0x1000)
      (mapPages .lp64 (pa2kva .lp64 0x1000) 0x7000 0x9000 0x1000 0
        (initPgindex .lp64 fourPages).2).2).map (fun result => (result.1, result.2.frames.inUse,
          walk (child .lp64 result.2) (pa2kva .lp64 0x1000) (dirPath .lp64 0x7000),
          decide (∀ index : Fin Abi.lp64.nrPtentries,
            result.2.word .lp64 (pa2kva .lp64 0x4000) index = 0))) =
      some (4096, [0x4000, 0x3000, 0x2000, 0x1000], some (pa2kva .lp64 0x4000), true) := by
    decide +kernel
  obtain ⟨⟨retcode, after⟩, done, same⟩ := map_eq_some_iff.mp unmaps
  simp only [Prod.mk.injEq, decide_eq_true_eq] at same
  obtain ⟨rfl, inUse, arrives, empty⟩ := same
  have short : (dirPath .lp64 0x7000).length ≤ Abi.lp64.depth := by decide
  have below : pa2kva .lp64 0x4000 ≠ pa2kva .lp64 0x1000 := by decide
  refine ⟨_, _, after, Prod.ext (by decide +kernel) rfl, maps, done, inUse, fun managed => ?_,
    fun exactly => ?_⟩
  · obtain ⟨index, nonzero⟩ := managed.live _ ⟨⟨_, short, arrives⟩, below⟩
    exact nonzero (empty index)
  · refine (exactly.released (pa2kva .lp64 0x4000) ⟨⟨_, short, ?_⟩, below⟩).mpr empty
      ⟨0x4000, by rw [inUse]; decide, by decide, rfl⟩
    decide +kernel

end AIMv6
