/-
This file proves when a call of `map_pages` that fails is undone, in the 32-bit build and for
any number of pages.

The first pass of the call links empty leaf tables into the directory (`Linked`) until a page is
taken or there is no page for a table. `__free_intermediate_pgtable` then looks at the entries
of the directory between the one of the first page and the one of the page before the failure,
and unlinks the tables that are empty; it takes every entry it looks at for a table.
-/

import AIMv6.PageTablePages

namespace AIMv6

open List Kernel Nat

/-! ### The entries the clean-up looks at -/

/-- The indices of the loop of `__free_intermediate_pgtable`. -/
def cleanedIndices (vaddr size : Nat) : List Nat :=
  List.range' (pdx vaddr)
    (pdx (wrapSub (2 ^ 32) ((vaddr + size) % 2 ^ 32) pageSize) + 1 - pdx vaddr)

/-- The directory entries that the passes of the loop take for leaf tables and read. -/
def tablesRead (pgindex : Nat) : List Nat → Kernel → List Nat
  | [], _ => []
  | index :: rest, kernel =>
    kernel.word .ilp32 pgindex index :: tablesRead pgindex rest (freeLeafTable pgindex index kernel)

/-- The first pass of a call of `map_pages`. -/
def firstPass (pgindex vaddr paddr size : Nat) (kernel : Kernel) : Int × Nat × PageDesc × Kernel :=
  mapFirst .ilp32 pgindex (((paddr + size) % 2 ^ 64 - paddr) / pageSize) vaddr kernel.freshDesc
    kernel

/-- The tables that `map_pages` reads on the rollback path. -/
def rollbackReads (pgindex vaddr paddr size : Nat) (kernel : Kernel) : List Nat :=
  match firstPass pgindex vaddr paddr size kernel with
  | (retcode, vcur, _, kernel) =>
    if retcode = 0 then []
    else tablesRead pgindex (cleanedIndices vaddr (wrapSub (2 ^ 32) vcur vaddr)) kernel

/-- `__free_intermediate_pgtable` makes one pass for each of these indices. -/
theorem freeIntermediate_ilp32 (pgindex vaddr size : Nat) (kernel : Kernel) :
    freeIntermediate .ilp32 pgindex vaddr size kernel = (cleanedIndices vaddr size).foldl
        (fun kernel index => freeLeafTable pgindex index kernel) kernel := rfl

variable {vaddr size index place page paddr va pgindex vcur : Nat} {made : List (Nat × Nat)}
  {before kernel : Kernel}

theorem mem_cleanedIndices :
    index ∈ cleanedIndices vaddr size ↔
      pdx vaddr ≤ index ∧ index ≤ pdx (wrapSub (2 ^ 32) ((vaddr + size) % 2 ^ 32) pageSize) := by
  rw [cleanedIndices, mem_range'_1]
  omega

theorem cleanedIndices_lt {vaddr size index : Nat} (member : index ∈ cleanedIndices vaddr size) :
    index < 1024 :=
  (mem_cleanedIndices.mp member).2.trans_lt (pdx_lt _)

theorem cleanedIndices_nodup (vaddr size : Nat) : (cleanedIndices vaddr size).Nodup :=
  nodup_range'

section FreeLeafTable

variable {pgindex : Nat} (root : IsTable .ilp32 pgindex)

include root

/-- A pass of the loop writes nothing but its own entry of the directory. -/
theorem word_freeLeafTable {table : Nat} (kernel : Kernel) (isTable : IsTable .ilp32 table)
    (bound : index < 1024) (placeBound : place < 1024)
    (elsewhere : table ≠ pgindex ∨ place ≠ index) :
    (freeLeafTable pgindex index kernel).word .ilp32 table place =
      kernel.word .ilp32 table place := by
  unfold freeLeafTable
  split
  · rw [word_setWord_of_ne (isTable.slot_ne root placeBound bound elsewhere), pgfree_eq]
    rfl
  · rfl

variable {other : Nat}

theorem pde_freeLeafTable (kernel : Kernel) (bound : index < 1024) (otherBound : other < 1024)
    (different : other ≠ index) :
    pde pgindex (freeLeafTable pgindex index kernel) other = pde pgindex kernel other :=
  word_freeLeafTable root kernel root bound otherBound (Or.inr different)

variable (indices : List Nat)

theorem pde_freeLeafTables (kernel : Kernel) (bounds : ∀ index ∈ indices, index < 1024)
    (otherBound : other < 1024) (outside : other ∉ indices) :
    pde pgindex (indices.foldl (fun kernel index => freeLeafTable pgindex index kernel) kernel)
      other = pde pgindex kernel other := by
  induction indices generalizing kernel with
  | nil => rfl
  | cons index rest inductionHypothesis =>
    obtain ⟨different, outside⟩ := ne_and_not_mem_of_not_mem_cons outside
    rw [foldl_cons, inductionHypothesis _
      (fun other member => bounds other (mem_cons_of_mem _ member)) outside,
      pde_freeLeafTable root kernel (bounds index mem_cons_self) otherBound different]

/-- Every pass reads the entry that was there before the loop. -/
theorem tablesRead_eq (kernel : Kernel) (nodup : indices.Nodup)
    (bounds : ∀ index ∈ indices, index < 1024) :
    tablesRead pgindex indices kernel = indices.map (pde pgindex kernel) := by
  induction indices generalizing kernel with
  | nil => rfl
  | cons index rest inductionHypothesis =>
    obtain ⟨notLater, nodup⟩ := nodup_cons.mp nodup
    rw [tablesRead, inductionHypothesis _ nodup
      fun other member => bounds other (mem_cons_of_mem _ member), map_cons]
    refine congrArg _ (map_congr_left fun other member => ?_)
    exact pde_freeLeafTable root kernel (bounds index mem_cons_self)
      (bounds other (mem_cons_of_mem _ member)) (ne_of_mem_of_not_mem member notLater)

/-- A page stays in use when no pass passes its address to `pgfree`. -/
theorem mem_inUse_freeLeafTables (kernel : Kernel) (nodup : indices.Nodup)
    (bounds : ∀ index ∈ indices, index < 1024)
    (kept : ∀ index ∈ indices, kva2pa .ilp32 (pde pgindex kernel index) ≠ page ∨
      IsTable .ilp32 (pde pgindex kernel index) ∧ pde pgindex kernel index ≠ pgindex ∧
        ∃ place < 1024, kernel.word .ilp32 (pde pgindex kernel index) place ≠ 0)
    (member : page ∈ kernel.frames.inUse) :
    page ∈ (indices.foldl (fun kernel index => freeLeafTable pgindex index kernel)
      kernel).frames.inUse := by
  induction indices generalizing kernel with
  | nil => exact member
  | cons index rest inductionHypothesis =>
    obtain ⟨notLater, nodup⟩ := nodup_cons.mp nodup
    have bound := bounds index mem_cons_self
    rw [foldl_cons]
    refine inductionHypothesis _ nodup
      (fun other later => bounds other (mem_cons_of_mem _ later)) (fun other later => ?_) ?_
    · rw [pde_freeLeafTable root kernel bound (bounds other (mem_cons_of_mem _ later))
        (ne_of_mem_of_not_mem later notLater)]
      refine (kept other (mem_cons_of_mem _ later)).imp_right ?_
      rintro ⟨isTable, notRoot, place, placeBound, nonzero⟩
      exact ⟨isTable, notRoot, place, placeBound, by
        rwa [word_freeLeafTable root kernel isTable bound placeBound (Or.inl notRoot)]⟩
    · unfold freeLeafTable
      split
      · rename_i empty
        rcases kept index mem_cons_self with other | ⟨-, -, place, placeBound, nonzero⟩
        · show page ∈ (kernel.pgfree _).frames.inUse
          unfold pgfree
          split
          · exact Pool.mem_give_of_ne member (Ne.symm other)
          · exact member
        · exact absurd (tableEmpty_iff.mp empty place placeBound) nonzero
      · exact member

end FreeLeafTable

/-! ### The tables that a call has linked -/

theorem Invertible.ne_zero (invertible : Invertible paddr) : paddr ≠ 0 := by
  rintro rfl
  exact absurd invertible (by decide)

/-- Linking a fresh table writes into no other leaf table. -/
theorem word_linked {pgindex va : Nat} {kernel : Kernel} {paddr : Nat} {frames : Pool}
    (wellFormed : WellFormed .ilp32 pgindex kernel) (frame : isFrame .ilp32 paddr = true)
    (fresh : paddr ∉ kernel.frames.inUse) {index : Nat} (bound : index < 1024)
    (present : pde pgindex kernel index ≠ 0) {place : Nat} (placeBound : place < 1024) :
    (linkTable .ilp32 pgindex (pdx va) paddr { kernel with frames }).word .ilp32
        (pde pgindex kernel index) place =
      kernel.word .ilp32 (pde pgindex kernel index) place := by
  obtain ⟨-, -, others⟩ := @child_linkTable .ilp32 _ _ _ _ _
    [] ⟨pdx va, pdx_lt va⟩ wellFormed rfl zero_lt_one frame fresh
  have there : leaf .ilp32 pgindex kernel (index * 2 ^ 22) = some (pde pgindex kernel index) :=
    leaf_eq_some.mpr ⟨present, by rw [pdx_shift bound]⟩
  have notRoot := ((wellFormed_ilp32_iff.mp wellFormed).2 index bound present).1
  exact others _ ⟨place, placeBound⟩ (WellFormed.leaf_reached there) (Or.inl notRoot)

/-- The kernel after empty leaf tables were linked into the directory: the entries, each with
the page of its table, the table linked last first. -/
structure Linked (pgindex : Nat) (made : List (Nat × Nat)) (before after : Kernel) : Prop where
  wellFormed : WellFormed .ilp32 pgindex after
  fresh : ∀ link ∈ made, link.1 < 1024 ∧ pde pgindex before link.1 = 0 ∧
    isFrame .ilp32 link.2 = true ∧ link.2 ∉ before.frames.inUse
  indices : (made.map Prod.fst).Nodup
  pages : (made.map Prod.snd).Nodup
  tables : ∀ link ∈ made, pde pgindex after link.1 = pa2kva .ilp32 link.2
  empty : ∀ link ∈ made, ∀ place < 1024, after.word .ilp32 (pa2kva .ilp32 link.2) place = 0
  others : ∀ index < 1024, index ∉ made.map Prod.fst →
    pde pgindex after index = pde pgindex before index
  leaves : ∀ index < 1024, pde pgindex before index ≠ 0 → ∀ place < 1024,
    after.word .ilp32 (pde pgindex before index) place =
      before.word .ilp32 (pde pgindex before index) place
  inUse : after.frames.inUse = made.map Prod.snd ++ before.frames.inUse
  stray : after.frames.stray = before.frames.stray
  junk : after.junk = before.junk

namespace Linked

variable {pgindex : Nat} {made : List (Nat × Nat)} {before middle after : Kernel}

theorem refl (wellFormed : WellFormed .ilp32 pgindex before) : Linked pgindex [] before before where
  wellFormed
  fresh := nofun
  indices := nodup_nil
  pages := nodup_nil
  tables := nofun
  empty := nofun
  others := fun _ _ _ => rfl
  leaves := fun _ _ _ _ _ => rfl
  inUse := rfl
  stray := rfl
  junk := rfl

theorem unchanged (linked : Linked pgindex [] before after) : Unchanged pgindex before after :=
  ⟨fun index bound => linked.others index bound not_mem_nil, linked.leaves, linked.inUse,
    linked.stray, linked.junk⟩

theorem table_ne_zero (linked : Linked pgindex made before after) {link : Nat × Nat}
    (member : link ∈ made) : pa2kva .ilp32 link.2 ≠ 0 :=
  pos_iff_ne_zero.mp (isTable_pa2kva (linked.fresh link member).2.2.1).nonzero

theorem pde_kept (linked : Linked pgindex made before after) (bound : index < 1024)
    (present : pde pgindex before index ≠ 0) :
    pde pgindex after index = pde pgindex before index := by
  refine linked.others index bound fun new => ?_
  obtain ⟨link, member, rfl⟩ := mem_map.mp new
  exact present (linked.fresh link member).2.1

/-- The links are the entries that were zero and no longer are. -/
theorem mem_indices_iff (linked : Linked pgindex made before after) (bound : index < 1024) :
    index ∈ made.map Prod.fst ↔ pde pgindex before index = 0 ∧ pde pgindex after index ≠ 0 := by
  constructor
  · intro new
    obtain ⟨link, member, rfl⟩ := mem_map.mp new
    refine ⟨(linked.fresh link member).2.1, ?_⟩
    rw [linked.tables link member]
    exact linked.table_ne_zero member
  · rintro ⟨absent, present⟩
    by_contra old
    exact present ((linked.others index bound old).trans absent)

variable (linked : Linked pgindex made before middle)

include linked

/-- Steps that write no leaf table keep the new tables empty. -/
theorem empty_of_words (words : ∀ index < 1024, pde pgindex middle index ≠ 0 → ∀ place < 1024,
      after.word .ilp32 (pde pgindex middle index) place =
        middle.word .ilp32 (pde pgindex middle index) place)
    {link : Nat × Nat} (member : link ∈ made) (bound : place < 1024) :
    after.word .ilp32 (pa2kva .ilp32 link.2) place = 0 := by
  have table := linked.tables link member
  have kept := words link.1 (linked.fresh link member).1
    (by rw [table]; exact linked.table_ne_zero member) place bound
  rw [table] at kept
  exact kept.trans (linked.empty link member place bound)

/-- And the tables that were there before. -/
theorem leaves_of_words (words : ∀ index < 1024, pde pgindex middle index ≠ 0 → ∀ place < 1024,
      after.word .ilp32 (pde pgindex middle index) place =
        middle.word .ilp32 (pde pgindex middle index) place)
    (bound : index < 1024) (present : pde pgindex before index ≠ 0) (placeBound : place < 1024) :
    after.word .ilp32 (pde pgindex before index) place =
      before.word .ilp32 (pde pgindex before index) place := by
  have here := linked.pde_kept bound present
  have kept := words index bound (by rwa [here]) place placeBound
  rw [here] at kept
  exact kept.trans (linked.leaves index bound present place placeBound)

/-- Steps that change no table keep the links. -/
theorem trans_unchanged
    (same : Unchanged pgindex middle after) : Linked pgindex made before after where
  wellFormed := same.wellFormed linked.wellFormed
  fresh := linked.fresh
  indices := linked.indices
  pages := linked.pages
  tables := fun link member =>
    (same.directory _ (linked.fresh link member).1).trans (linked.tables link member)
  empty := fun _ member _ => linked.empty_of_words same.leaves member
  others := fun index bound old =>
    (same.directory index bound).trans (linked.others index bound old)
  leaves := fun _ bound present _ => linked.leaves_of_words same.leaves bound present
  inUse := same.inUse.trans linked.inUse
  stray := same.stray.trans linked.stray
  junk := same.junk.trans linked.junk

/-- One more table is linked. -/
theorem link {frames : Pool} (absent : pde pgindex middle (pdx va) = 0)
    (frame : isFrame .ilp32 paddr = true) (fresh : paddr ∉ middle.frames.inUse)
    (granted : frames.inUse = paddr :: middle.frames.inUse)
    (stray : frames.stray = middle.frames.stray) :
    Linked pgindex ((pdx va, paddr) :: made) before
      (linkTable .ilp32 pgindex (pdx va) paddr { middle with frames }) := by
  obtain ⟨extension, -⟩ := @link_extends .ilp32 _ _ _ _ _ []
    ⟨pdx va, pdx_lt va⟩ linked.wellFormed rfl zero_lt_one absent frame fresh granted
  obtain ⟨-, cleared, -⟩ := @child_linkTable .ilp32 _ _ _ _ _
    [] ⟨pdx va, pdx_lt va⟩ linked.wellFormed rfl zero_lt_one frame fresh
  have pdes := fun index bound =>
    @pde_linked _ index va _ linked.wellFormed _ frames frame fresh bound
  have words := fun index bound present place =>
    @word_linked _ va _ _ frames linked.wellFormed frame fresh index bound present place
  have new : pdx va ∉ made.map Prod.fst := fun old =>
    ((linked.mem_indices_iff (pdx_lt va)).mp old).2 absent
  have unused : paddr ∉ made.map Prod.snd ∧ paddr ∉ before.frames.inUse := by
    rw [linked.inUse, mem_append] at fresh
    exact not_or.mp fresh
  refine ⟨extension.wellFormed, ?_, ?_, ?_, ?_, ?_, ?_, ?_, ?_, stray.trans linked.stray,
    linked.junk⟩
  · rintro link (_ | ⟨_, member⟩)
    · refine ⟨pdx_lt va, ?_, frame, unused.2⟩
      exact (linked.others _ (pdx_lt va) new).symm.trans absent
    · exact linked.fresh link member
  · exact nodup_cons.mpr ⟨new, linked.indices⟩
  · exact nodup_cons.mpr ⟨unused.1, linked.pages⟩
  · rintro link (_ | ⟨_, member⟩)
    · rw [pdes _ (pdx_lt va), if_pos rfl]
    · rw [pdes _ (linked.fresh link member).1, if_neg, linked.tables link member]
      exact fun same => new (mem_map.mpr ⟨link, member, same⟩)
  · rintro link (_ | ⟨_, member⟩) place bound
    · exact (cleared ⟨place, bound⟩).1
    · exact linked.empty_of_words words member bound
  · intro index bound old
    obtain ⟨different, old⟩ := ne_and_not_mem_of_not_mem_cons old
    rw [pdes index bound, if_neg different, linked.others index bound old]
  · exact fun index bound present place => linked.leaves_of_words words bound present
  · show frames.inUse = _
    rw [granted, linked.inUse]
    rfl

/-- Entries and pages determine each other. -/
theorem pages_without {link : Nat × Nat} (member : link ∈ made) :
    (made.map Prod.snd).erase link.2 =
      (made.filter fun other => other.1 ≠ link.1).map Prod.snd := by
  rw [linked.pages.erase_eq_filter, filter_map]
  refine congrArg (List.map Prod.snd) (filter_congr fun other otherMember => ?_)
  have pairs : other.2 = link.2 ↔ other.1 = link.1 :=
    ⟨fun same => congrArg Prod.fst (inj_on_of_nodup_map linked.pages otherMember member same),
      fun same => congrArg Prod.snd (inj_on_of_nodup_map linked.indices otherMember member same)⟩
  exact Bool.eq_iff_iff.mpr (by simpa using not_congr pairs)

/-- The pass over the entry of a linked table unlinks it, and gives its page back. -/
theorem unlink {link : Nat × Nat} (member : link ∈ made) (invertible : Invertible link.2) :
    Linked pgindex (made.filter fun other => other.1 ≠ link.1) before
      (freeLeafTable pgindex link.1 middle) := by
  obtain ⟨bound, absent, frame, -⟩ := linked.fresh link member
  have table := linked.tables link member
  have word : middle.word .ilp32 pgindex link.1 = pa2kva .ilp32 link.2 := table
  have present : pde pgindex middle link.1 ≠ 0 := table ▸ linked.table_ne_zero member
  have inUse : link.2 ∈ middle.frames.inUse := by
    rw [linked.inUse]
    exact mem_append_left _ (mem_map_of_mem member)
  have returnable : Returnable link.2 := Or.inr invertible
  have step : freeLeafTable pgindex link.1 middle = AIMv6.unlink pgindex link.1 link.2 middle := by
    rw [freeLeafTable, word, if_pos (tableEmpty_iff.mpr (linked.empty link member))]
    rfl
  have pdes : ∀ other < 1024, pde pgindex (AIMv6.unlink pgindex link.1 link.2 middle) other =
      if other = link.1 then 0 else pde pgindex middle other := by
    rw [unlink_eq]
    exact fun other otherBound => pde_clear linked.wellFormed bound otherBound
  have words : ∀ index < 1024, pde pgindex middle index ≠ 0 → ∀ place < 1024,
      (AIMv6.unlink pgindex link.1 link.2 middle).word .ilp32 (pde pgindex middle index) place =
        middle.word .ilp32 (pde pgindex middle index) place := by
    rw [unlink_eq]
    exact fun index indexBound there place => word_clear linked.wellFormed bound indexBound there
  rw [step]
  have kept : ∀ other ∈ made.filter (fun other => other.1 ≠ link.1),
      other ∈ made ∧ other.1 ≠ link.1 := by
    intro other left
    simpa using mem_filter.mp left
  refine ⟨wellFormed_unlink linked.wellFormed bound present table returnable frame inUse, ?_, ?_,
    ?_, ?_, ?_, ?_, ?_, ?_, ?_, by rw [unlink_eq]; exact linked.junk⟩
  · exact fun other left => linked.fresh other (kept other left).1
  · exact linked.indices.sublist (filter_sublist.map _)
  · exact linked.pages.sublist (filter_sublist.map _)
  · intro other left
    obtain ⟨otherMember, different⟩ := kept other left
    rw [pdes _ (linked.fresh other otherMember).1, if_neg different,
      linked.tables other otherMember]
  · exact fun other left place => linked.empty_of_words words (kept other left).1
  · intro index indexBound old
    rw [pdes index indexBound]
    split
    · rename_i here
      rw [here, absent]
    · rename_i different
      refine linked.others index indexBound fun new => old ?_
      obtain ⟨other, otherMember, rfl⟩ := mem_map.mp new
      exact mem_map_of_mem (mem_filter.mpr ⟨otherMember, by simpa using different⟩)
  · exact fun index indexBound there place => linked.leaves_of_words words indexBound there
  · rw [unlink_frames returnable frame, if_neg invertible.ne_zero, Pool.give_of_mem inUse]
    rw [linked.inUse, erase_append_left _ (mem_map_of_mem member), linked.pages_without member]
  · rw [unlink_frames returnable frame, if_neg invertible.ne_zero, Pool.give_of_mem inUse]
    exact linked.stray

theorem pass (populated : Populated pgindex before) (bound : index < 1024)
    (invertible : ∀ link ∈ made, link.1 = index → Invertible link.2) :
    Linked pgindex (made.filter fun link => link.1 ≠ index) before
      (freeLeafTable pgindex index middle) := by
  by_cases new : index ∈ made.map Prod.fst
  · obtain ⟨link, member, rfl⟩ := mem_map.mp new
    exact linked.unlink member (invertible link member rfl)
  · have all : made.filter (fun link => link.1 ≠ index) = made := by
      refine filter_eq_self.mpr fun link member => decide_eq_true fun same => new ?_
      exact same ▸ mem_map_of_mem member
    rw [all]
    refine linked.trans_unchanged
      (unchanged_freeLeafTable linked.wellFormed bound fun present => ?_)
    rw [linked.others index bound new] at present ⊢
    obtain ⟨place, placeBound, nonzero⟩ := populated index bound present
    exact ⟨place, placeBound, by rwa [linked.leaves index bound present place placeBound]⟩

/-- The passes of the clean-up unlink the tables at the indices they have. -/
theorem passes (populated : Populated pgindex before) (indices : List Nat)
    (bounds : ∀ index ∈ indices, index < 1024) (invertible : ∀ link ∈ made, Invertible link.2) :
    Linked pgindex (made.filter fun link => link.1 ∉ indices) before
      (indices.foldl (fun kernel index => freeLeafTable pgindex index kernel) middle) := by
  induction indices generalizing made middle with
  | nil => simpa using linked
  | cons index rest inductionHypothesis =>
    have first := linked.pass populated (bounds index mem_cons_self)
      fun link member _ => invertible link member
    have later := inductionHypothesis first
      (fun other member => bounds other (mem_cons_of_mem _ member))
      fun link member => invertible link (mem_filter.mp member).1
    rw [filter_filter] at later
    rw [foldl_cons]
    convert later using 2
    funext link
    simp [Bool.and_comm]

end Linked

/-! ### The first pass -/

/-- The entries of the directory that the first pages of a range need and that are zero. -/
def missingTables (pgindex vaddr : Nat) (kernel : Kernel) (count : Nat) : Finset Nat :=
  ((Finset.range count).image fun page => pdx (pageAt vaddr page)).filter
    fun index => pde pgindex kernel index = 0

/-- A page cannot be mapped, by the state before the call: it has an entry, or `pgalloc` does not
grant all the tables that are missing up to it. -/
def FailsAt (pgindex vaddr : Nat) (kernel : Kernel) (page : Nat) : Prop :=
  entry .ilp32 pgindex kernel (pageAt vaddr page) ≠ 0 ∨
    ¬ kernel.frames.Grants (isFrame .ilp32) (missingTables pgindex vaddr kernel (page + 1)).card

theorem mem_missingTables {count : Nat} :
    index ∈ missingTables pgindex vaddr kernel count ↔
      (∃ page < count, pdx (pageAt vaddr page) = index) ∧ pde pgindex kernel index = 0 := by
  simp only [missingTables, Finset.mem_filter, Finset.mem_image, Finset.mem_range]

theorem missingTables_succ (count : Nat) :
    missingTables pgindex vaddr kernel (count + 1) =
      if pde pgindex kernel (pdx (pageAt vaddr count)) = 0 then
        insert (pdx (pageAt vaddr count)) (missingTables pgindex vaddr kernel count)
      else missingTables pgindex vaddr kernel count := by
  rw [missingTables, Finset.range_add_one, Finset.image_insert, Finset.filter_insert]
  rfl

/-- The first pass after the given number of pages: their leaf tables are there, and those that
were missing are the links, for which the first answers were taken. -/
structure Passed (pgindex vaddr done : Nat) (made : List (Nat × Nat)) (before kernel : Kernel) :
    Prop where
  linked : Linked pgindex made before kernel
  indices : (made.map Prod.fst).toFinset = missingTables pgindex vaddr before done
  present : ∀ page < done, pde pgindex kernel (pdx (pageAt vaddr page)) ≠ 0
  answers : before.frames.answers =
    made.reverse.map (fun link => some link.2) ++ kernel.frames.answers
  grants : ∀ count, before.frames.Grants (isFrame .ilp32) (made.length + count) ↔
    kernel.frames.Grants (isFrame .ilp32) count

/-- The entry of a page whose table is there by now. -/
theorem Linked.entry_before (linked : Linked pgindex made before kernel)
    (present : pde pgindex kernel (pdx va) ≠ 0) :
    entry .ilp32 pgindex before va =
      kernel.word .ilp32 (pde pgindex kernel (pdx va)) (ptx .ilp32 va) := by
  by_cases absent : pde pgindex before (pdx va) = 0
  · obtain ⟨link, member, same⟩ :=
      mem_map.mp ((linked.mem_indices_iff (pdx_lt va)).mpr ⟨absent, present⟩)
    rw [entry_of_no_leaf (leaf_eq_none.mpr absent), ← same, linked.tables link member,
      linked.empty link member _ (ptx_lt .ilp32 va)]
  · rw [entry_of_pde absent, linked.pde_kept (pdx_lt va) absent,
      linked.leaves _ (pdx_lt va) absent _ (ptx_lt .ilp32 va)]

namespace Passed

variable {done : Nat}

theorem card (passed : Passed pgindex vaddr done made before kernel) :
    (missingTables pgindex vaddr before done).card = made.length := by
  rw [← passed.indices, toFinset_card_of_nodup passed.linked.indices, length_map]

theorem mem_indices (passed : Passed pgindex vaddr done made before kernel) :
    index ∈ made.map Prod.fst ↔ index ∈ missingTables pgindex vaddr before done := by
  rw [← passed.indices, mem_toFinset]

/-- The next page is mapped, or needs a table that is missing and not granted, or is passed as
well. -/
theorem step (passed : Passed pgindex vaddr done made before kernel) (pages : Nat)
    (desc : PageDesc) :
    (FailsAt pgindex vaddr before done ∧ ∃ retcode found after, Unchanged pgindex kernel after ∧
      mapFirst .ilp32 pgindex (pages + 1) (pageAt vaddr done) desc kernel =
        (retcode, pageAt vaddr done, found, after)) ∨
    (¬ FailsAt pgindex vaddr before done ∧ ∃ made found after,
      Passed pgindex vaddr (done + 1) made before after ∧
      mapFirst .ilp32 pgindex (pages + 1) (pageAt vaddr done) desc kernel =
        mapFirst .ilp32 pgindex pages (pageAt vaddr (done + 1)) found after) := by
  have card := passed.card
  have members : ∀ index, index ∈ made.map Prod.fst ↔ _ := fun _ => passed.mem_indices
  obtain ⟨linked, indices, present, answers, grants⟩ := passed
  have more := @missingTables_succ vaddr pgindex before done
  rw [AIMv6.mapFirst, pageAt_succ]
  by_cases absent : pde pgindex kernel (pdx (pageAt vaddr done)) = 0
  · have new : pdx (pageAt vaddr done) ∉ made.map Prod.fst := fun old =>
      ((linked.mem_indices_iff (pdx_lt _)).mp old).2 absent
    have zero := (linked.others _ (pdx_lt _) new).symm.trans absent
    rw [if_pos zero] at more
    have needed : (missingTables pgindex vaddr before (done + 1)).card = made.length + 1 := by
      rw [more, Finset.card_insert_of_notMem (mt (members _).mpr new), card]
    rcases kernel.frames.take_cases (isFrame .ilp32) with
      ⟨paddr, rest, frame, fresh, answer, won⟩ | ⟨rest, lost⟩
    · obtain ⟨frames, isFrames⟩ : ∃ frames, frames = { kernel.frames with
        inUse := paddr :: kernel.frames.inUse, answers := rest } := ⟨_, rfl⟩
      have taken : pgalloc .ilp32 kernel = (some paddr, { kernel with frames }) := by
        rw [pgalloc, won, isFrames]
      have granted : frames.inUse = paddr :: kernel.frames.inUse := by rw [isFrames]
      have longer := linked.link absent frame fresh granted (by rw [isFrames])
      have cleared := longer.empty _ mem_cons_self (ptx .ilp32 (pageAt vaddr done))
        (ptx_lt .ilp32 _)
      rw [getpagedesc32_granted absent taken]
      simp only [if_neg (show ¬ (0 : Int) = -enomem by decide)]
      rw [if_neg (not_not.mpr cleared)]
      have succ := fun count => @Pool.grants_succ_iff _ _ _ count
        _ answer frame fresh
      rw [← isFrames] at succ
      refine Or.inr ⟨?_, _, _, _, ⟨longer, ?_, fun page bound => ?_, ?_, fun count => ?_⟩, rfl⟩
      · rw [FailsAt, needed, grants, succ, entry_of_no_leaf (leaf_eq_none.mpr zero), not_or]
        exact ⟨not_not.mpr rfl, not_not.mpr (Pool.grants_zero _ _)⟩
      · rw [more, map_cons, toFinset_cons, indices]
      · rw [pde_linked linked.wellFormed frame fresh (pdx_lt _)]
        split
        · exact longer.table_ne_zero mem_cons_self
        · rename_i different
          refine present page (lt_of_le_of_ne (le_of_lt_succ bound) ?_)
          rintro rfl
          exact different rfl
      · rw [answers, answer, reverse_cons, map_append, append_assoc, isFrames]
        rfl
      · rw [length_cons, add_assoc, add_comm 1, grants, succ]
        rfl
    · have none : (pgalloc .ilp32 kernel).1 = none := by rw [pgalloc, lost]
      rw [getpagedesc32_refused absent none]
      refine Or.inl ⟨Or.inr ?_, _, _, _, unchanged_refused none, rfl⟩
      rw [needed, grants]
      exact Pool.not_grants_of_refused (by rw [lost])
  · have same : missingTables pgindex vaddr before (done + 1) =
        missingTables pgindex vaddr before done := by
      rw [more]
      split
      · rename_i zero
        exact Finset.insert_eq_of_mem
          ((members _).mp ((linked.mem_indices_iff (pdx_lt _)).mpr ⟨zero, absent⟩))
      · rfl
    have exactly : FailsAt pgindex vaddr before done ↔
        kernel.word .ilp32 (pde pgindex kernel (pdx (pageAt vaddr done)))
          (ptx .ilp32 (pageAt vaddr done)) ≠ 0 := by
      rw [FailsAt, linked.entry_before absent, same, card, ← add_zero made.length, grants,
        or_iff_left (not_not.mpr (Pool.grants_zero _ _))]
    rw [exactly, getpagedesc32_present absent]
    simp only [if_neg (show ¬ (0 : Int) = -enomem by decide)]
    by_cases free : kernel.word .ilp32 (pde pgindex kernel (pdx (pageAt vaddr done)))
        (ptx .ilp32 (pageAt vaddr done)) = 0
    · rw [if_neg (not_not.mpr free)]
      refine Or.inr ⟨not_not.mpr free, made, _, _, ⟨linked, indices.trans same.symm,
        fun page bound => ?_, answers, grants⟩, rfl⟩
      rcases Nat.lt_succ_iff_lt_or_eq.mp bound with before | rfl
      · exact present page before
      · exact absent
    · rw [if_pos free]
      exact Or.inl ⟨free, _, _, _, Unchanged.refl kernel, rfl⟩

/-- The first pass, from any page on: when it fails, it has passed the pages before the first one
that cannot be mapped. -/
theorem mapFirst {after : Kernel} (passed : Passed pgindex vaddr done made before kernel)
    (pages : Nat) {desc found : PageDesc} {retcode : Int}
    (call : mapFirst .ilp32 pgindex pages (pageAt vaddr done) desc kernel =
      (retcode, vcur, found, after))
    (failed : retcode ≠ 0) :
    ∃ count made middle, count < done + pages ∧ vcur = pageAt vaddr count ∧
      FailsAt pgindex vaddr before count ∧
      (∀ page < count, done ≤ page → ¬ FailsAt pgindex vaddr before page) ∧
      Passed pgindex vaddr count made before middle ∧ Unchanged pgindex middle after := by
  induction pages generalizing done made kernel desc with
  | zero =>
    cases call
    exact absurd rfl failed
  | succ pages inductionHypothesis =>
    rcases passed.step pages desc with
      ⟨fails, stopped, last, final, same, run⟩ | ⟨fine, more, next, further, there, run⟩
    · rw [run] at call
      cases call
      exact ⟨done, made, kernel, by omega, rfl, fails,
        fun page less reached => absurd less (not_lt.mpr reached), passed, same⟩
    · rw [run] at call
      obtain ⟨count, links, middle, bound, place, fails, earlier, rest⟩ :=
        inductionHypothesis there call
      refine ⟨count, links, middle, by omega, place, fails, fun page less reached => ?_, rest⟩
      rcases eq_or_lt_of_le reached with rfl | later
      · exact fine
      · exact earlier page less later

end Passed

/-! ### What the clean-up undoes -/

theorem invertible_iff (frame : isFrame .ilp32 paddr = true) :
    Invertible paddr ↔ 0 < paddr ∧ paddr ≤ lowramTop := by
  rw [Invertible, kva2pa_pa2kva_ilp32 (isFrame_iff.mp frame).2, lowramTop]
  split
  · omega
  · split <;> omega

/-- Through its kernel address, a page gives back itself, a larger page that is not found again,
or no page. -/
theorem kva2pa_frame (frame : isFrame .ilp32 paddr = true) (isPage : isFrame .ilp32 page = true)
    (same : kva2pa .ilp32 (pa2kva .ilp32 paddr) = page) :
    Invertible page ∨ paddr < page ∧ ¬ Invertible paddr := by
  rw [invertible_iff isPage, invertible_iff frame, lowramTop]
  rw [kva2pa_pa2kva_ilp32 (isFrame_iff.mp frame).2] at same
  split at same
  · omega
  · split at same <;> omega

/-- The clean-up undoes the links when it passes over all of them, and finds their pages again. -/
theorem Linked.undone_iff {middle : Kernel} (linked : Linked pgindex made before middle)
    (populated : Populated pgindex before) {indices : List Nat} (nodup : indices.Nodup)
    (bounds : ∀ index ∈ indices, index < 1024) :
    Unchanged pgindex before
        (indices.foldl (fun kernel index => freeLeafTable pgindex index kernel) middle) ↔
      (∀ link ∈ made, link.1 ∈ indices) ∧ ∀ link ∈ made, Invertible link.2 := by
  have root := linked.wellFormed.root_isTable
  constructor
  · intro same
    refine ⟨fun link member => ?_, ?_⟩
    · by_contra outside
      obtain ⟨bound, absent, -⟩ := linked.fresh link member
      have there := pde_freeLeafTables root indices middle bounds bound outside
      rw [same.directory link.1 bound, absent, linked.tables link member] at there
      exact linked.table_ne_zero member there.symm
    · by_contra lost
      push Not at lost
      -- the least of the pages that are not found again is given back by no pass
      have some : ∃ page, ∃ link ∈ made, link.2 = page ∧ ¬ Invertible page :=
        let ⟨link, member, not⟩ := lost
        ⟨link.2, link, member, rfl, not⟩
      obtain ⟨link, member, isPage, not⟩ := Nat.find_spec some
      obtain ⟨-, -, frame, fresh⟩ := linked.fresh link member
      rw [isPage] at frame fresh
      refine fresh (same.inUse ▸ mem_inUse_freeLeafTables root indices middle nodup bounds ?_ ?_)
      · intro index visited
        by_cases new : index ∈ made.map Prod.fst
        · obtain ⟨other, otherMember, rfl⟩ := mem_map.mp new
          rw [linked.tables other otherMember]
          refine Or.inl fun gives => ?_
          rcases kva2pa_frame (linked.fresh other otherMember).2.2.1 frame gives with
            found | ⟨less, otherLost⟩
          · exact not found
          · exact Nat.find_min some less ⟨other, otherMember, rfl, otherLost⟩
        · rw [linked.others index (bounds index visited) new]
          by_cases present : pde pgindex before index = 0
          · rw [present]
            refine Or.inl fun gives => ?_
            have below : Nat.find some < 0x40000000 := (isFrame_iff.mp frame).2
            rw [← gives] at below
            exact absurd below (by decide)
          · obtain ⟨place, placeBound, nonzero⟩ := populated index (bounds index visited) present
            have kept := linked.pde_kept (bounds index visited) present
            obtain ⟨notRoot, -, owner, -, ownerFrame, ownerIs⟩ :=
              (wellFormed_ilp32_iff.mp linked.wellFormed).2 index (bounds index visited)
                (by rwa [kept])
            rw [kept] at notRoot ownerIs
            refine Or.inr ⟨ownerIs ▸ isTable_pa2kva ownerFrame, notRoot, place, placeBound, ?_⟩
            rwa [linked.leaves index (bounds index visited) present place placeBound]
      · rw [linked.inUse, ← isPage]
        exact mem_append_left _ (mem_map_of_mem member)
  · rintro ⟨inside, invertible⟩
    have left := linked.passes populated indices bounds invertible
    have none : made.filter (fun link => link.1 ∉ indices) = [] :=
      filter_eq_nil_iff.mpr fun link member => by simpa using inside link member
    rw [none] at left
    exact left.unchanged

/-! ### The range of the clean-up -/

theorem pdx_eq (fits : va < 2 ^ 32) : pdx va = va / 2 ^ 22 := by
  rw [pdx, levelIndex_eq]
  show va / 2 ^ 22 % 1024 = va / 2 ^ 22
  omega

/-- After a failure at an address the clean-up goes up to the entry of the page before it. -/
theorem mem_rollback (fits : vaddr < 2 ^ 32) (inside : vcur < 2 ^ 32) :
    index ∈ cleanedIndices vaddr (wrapSub (2 ^ 32) vcur vaddr) ↔
      vaddr / 2 ^ 22 ≤ index ∧ index ≤ (vcur + (2 ^ 32 - 4096)) % 2 ^ 32 / 2 ^ 22 := by
  have back : (vaddr + wrapSub (2 ^ 32) vcur vaddr) % 2 ^ 32 = vcur := by
    unfold wrapSub
    omega
  rw [mem_cleanedIndices, back, pdx_eq fits, wrapSub, pageSize, pdx_eq (mod_lt _ (by decide))]

/-- What makes a failure at a page recoverable, by the state before the call. At the first page,
the entry of the page has to be there unless the page is the first of its table, and at address
zero all entries have to be there. Past the end of the address space no table may be missing but
that of the first page, where the range ends as well. The pages granted for the missing tables have
to be ones that `kva2pa` finds. -/
structure Recoverable (pgindex vaddr : Nat) (kernel : Kernel) (page : Nat) : Prop where
  first : page = 0 → vaddr % 2 ^ 22 ≠ 0 → pde pgindex kernel (pdx vaddr) ≠ 0
  zero : page = 0 → vaddr = 0 → ∀ index < 1024, pde pgindex kernel index ≠ 0
  wrapped : 2 ^ 32 < vaddr + page * pageSize → ∀ index ∈ missingTables pgindex vaddr kernel page,
    index = pdx vaddr ∧ index = pdx (pageAt vaddr (page - 1))
  pages : ∀ paddr,
    some paddr ∈ kernel.frames.answers.take (missingTables pgindex vaddr kernel page).card →
      0 < paddr ∧ paddr ≤ lowramTop

/-- The clean-up after a failure at an address passes over all links, and over no entry that is
zero. -/
def Covers (pgindex vaddr vcur : Nat) (made : List (Nat × Nat)) (after : Kernel) : Prop :=
  (∀ link ∈ made, link.1 ∈ cleanedIndices vaddr (wrapSub (2 ^ 32) vcur vaddr)) ∧
    ∀ index ∈ cleanedIndices vaddr (wrapSub (2 ^ 32) vcur vaddr), pde pgindex after index ≠ 0

section Range

variable {pgindex vaddr count : Nat} {made : List (Nat × Nat)} {before after : Kernel}
  (passed : Passed pgindex vaddr count made before after) (aligned : vaddr % pageSize = 0)
  (fits : vaddr < 2 ^ 32) (short : count < 2 ^ 20)

include passed

theorem Passed.pages_iff :
    (∀ paddr, some paddr ∈
        before.frames.answers.take (missingTables pgindex vaddr before count).card →
      0 < paddr ∧ paddr ≤ lowramTop) ↔ ∀ link ∈ made, Invertible link.2 := by
  have taken : before.frames.answers.take (missingTables pgindex vaddr before count).card =
      made.reverse.map fun link => some link.2 := by
    rw [passed.answers, passed.card, take_left' (by rw [length_map, length_reverse])]
  rw [taken]
  simp only [mem_map, mem_reverse, Option.some.injEq]
  constructor
  · intro low link member
    exact (invertible_iff (passed.linked.fresh link member).2.2.1).mpr
      (low link.2 ⟨link, member, rfl⟩)
  · rintro invertible _ ⟨link, member, rfl⟩
    exact (invertible_iff (passed.linked.fresh link member).2.2.1).mp (invertible link member)

include aligned fits

omit short in
theorem Passed.covers_first (none : count = 0) :
    Covers pgindex vaddr vaddr made after ↔
      (vaddr % 2 ^ 22 ≠ 0 → pde pgindex before (pdx vaddr) ≠ 0) ∧
        (vaddr = 0 → ∀ index < 1024, pde pgindex before index ≠ 0) := by
  subst none
  have noLink : made = [] := length_eq_zero_iff.mp passed.card.symm
  subst noLink
  have same := fun index bound => passed.linked.others index bound not_mem_nil
  have range : ∀ index, index ∈ cleanedIndices vaddr (wrapSub (2 ^ 32) vaddr vaddr) ↔
      vaddr = 0 ∧ index < 1024 ∨ vaddr % 2 ^ 22 ≠ 0 ∧ index = pdx vaddr := by
    intro index
    rw [mem_rollback fits fits, pdx_eq fits]
    unfold pageSize at aligned
    omega
  constructor
  · rintro ⟨-, present⟩
    refine ⟨fun inner => ?_, fun zero index bound => ?_⟩
    · rw [← same _ (pdx_lt vaddr)]
      exact present _ ((range _).mpr (Or.inr ⟨inner, rfl⟩))
    · rw [← same index bound]
      exact present index ((range index).mpr (Or.inl ⟨zero, bound⟩))
  · rintro ⟨first, all⟩
    refine ⟨nofun, fun index member => ?_⟩
    rw [same index (cleanedIndices_lt member)]
    rcases (range index).mp member with ⟨zero, bound⟩ | ⟨inner, rfl⟩
    · exact all zero index bound
    · exact first inner

omit short in
/-- A failure at a later page, with no page passed beyond the end of the address space. -/
theorem Passed.covers_inside (some : 0 < count) (room : vaddr + count * pageSize ≤ 2 ^ 32) :
    Covers pgindex vaddr (pageAt vaddr count) made after := by
  have range : ∀ index, index ∈ cleanedIndices vaddr (wrapSub (2 ^ 32) (pageAt vaddr count) vaddr) ↔
      ∃ page < count, pdx (pageAt vaddr page) = index := by
    intro index
    rw [mem_rollback fits (pageAt_lt vaddr count)]
    unfold pageAt pageSize at *
    constructor
    · rintro ⟨low, high⟩
      refine ⟨(index * 2 ^ 22 - vaddr) / 4096, by omega, ?_⟩
      rw [pdx_eq (mod_lt _ (by decide))]
      omega
    · rintro ⟨page, bound, rfl⟩
      rw [pdx_eq (mod_lt _ (by decide))]
      omega
  refine ⟨fun link member => (range link.1).mpr
    (mem_missingTables.mp (passed.mem_indices.mp (mem_map_of_mem member))).1,
    fun index member => ?_⟩
  obtain ⟨page, bound, rfl⟩ := (range index).mp member
  exact passed.present page bound

include short

theorem Passed.covers_wrapped (wraps : 2 ^ 32 < vaddr + count * pageSize) :
    Covers pgindex vaddr (pageAt vaddr count) made after ↔
      ∀ index ∈ missingTables pgindex vaddr before count,
        index = pdx vaddr ∧ index = pdx (pageAt vaddr (count - 1)) := by
  have range : ∀ index, index ∈ cleanedIndices vaddr (wrapSub (2 ^ 32) (pageAt vaddr count) vaddr) ↔
      index = pdx vaddr ∧ index = pdx (pageAt vaddr (count - 1)) := by
    intro index
    rw [mem_rollback fits (pageAt_lt vaddr count), pdx_eq fits, pdx_eq (pageAt_lt vaddr _)]
    unfold pageAt pageSize at *
    omega
  constructor
  · rintro ⟨inside, -⟩ index absent
    obtain ⟨link, member, rfl⟩ := mem_map.mp (passed.mem_indices.mpr absent)
    exact (range link.1).mp (inside link member)
  · intro only
    refine ⟨fun link member => (range link.1).mpr ?_, fun index member => ?_⟩
    · exact only link.1 (passed.mem_indices.mp (mem_map_of_mem member))
    · have here := passed.present 0 (by unfold pageSize at wraps; omega)
      rw [pageAt_zero fits] at here
      rwa [((range index).mp member).1]

/-- The failures after which the clean-up has the right range and finds the pages again. -/
theorem Passed.recoverable_iff :
    Recoverable pgindex vaddr before count ↔
      Covers pgindex vaddr (pageAt vaddr count) made after ∧ ∀ link ∈ made, Invertible link.2 := by
  rw [← passed.pages_iff]
  rcases Nat.eq_zero_or_pos count with none | some
  · have here : pageAt vaddr count = vaddr := by rw [none, pageAt_zero fits]
    rw [here, passed.covers_first aligned fits none]
    constructor
    · intro fine
      exact ⟨⟨fine.first none, fine.zero none⟩, fine.pages⟩
    · rintro ⟨⟨first, zero⟩, pages⟩
      refine ⟨fun _ => first, fun _ => zero, fun wraps => ?_, pages⟩
      rw [none] at wraps
      omega
  · by_cases room : vaddr + count * pageSize ≤ 2 ^ 32
    · have covers := passed.covers_inside aligned fits some room
      exact ⟨fun fine => ⟨covers, fine.pages⟩, fun ⟨_, pages⟩ => ⟨fun none => by omega,
        fun none => by omega, fun wraps => by omega, pages⟩⟩
    · rw [passed.covers_wrapped aligned fits short (Nat.lt_of_not_le room)]
      exact ⟨fun fine => ⟨fine.wrapped (Nat.lt_of_not_le room), fine.pages⟩,
        fun ⟨wrapped, pages⟩ => ⟨fun none => by omega, fun none => by omega, fun _ => wrapped,
          pages⟩⟩

end Range

/-! ### Failing calls -/

/-- A failed call of `map_pages` has left nothing behind, and has taken no entry that is zero
for a leaf table. -/
structure RolledBack (pgindex vaddr paddr size flags : Nat) (kernel : Kernel) : Prop where
  unchanged : Unchanged pgindex kernel (mapPages .ilp32 pgindex vaddr paddr size flags kernel).2
  tables : ∀ table ∈ rollbackReads pgindex vaddr paddr size kernel, table ≠ 0

theorem mapPages_failed {flags : Nat} (aligned : vaddr % pageSize = 0)
    (paddrAligned : paddr % pageSize = 0) (sizeAligned : size % pageSize = 0)
    (failed : (mapPages .ilp32 pgindex vaddr paddr size flags kernel).1 ≠ 0) :
    ∃ retcode vcur found after,
      firstPass pgindex vaddr paddr size kernel = (retcode, vcur, found, after) ∧ retcode ≠ 0 ∧
      mapPages .ilp32 pgindex vaddr paddr size flags kernel =
        (retcode, freeIntermediate .ilp32 pgindex vaddr (wrapSub (2 ^ 32) vcur vaddr) after) := by
  have unfolded : mapPages .ilp32 pgindex vaddr paddr size flags kernel =
      match firstPass pgindex vaddr paddr size kernel with
      | (retcode, vcur, desc, kernel) =>
        if retcode = 0 then
          (0, mapSecond .ilp32 pgindex (pgtablePerm flags)
            (((paddr + size) % 2 ^ 64 - paddr) / pageSize) paddr vaddr desc kernel)
        else (retcode,
          freeIntermediate .ilp32 pgindex vaddr (wrapSub (2 ^ 32) vcur vaddr) kernel) := by
    have bits : ∀ {value : Nat}, value % pageSize = 0 → isAligned value pageSize = true :=
      fun {value} whole => (isAligned_two_pow value 12).mpr whole
    unfold mapPages
    rw [bits aligned, bits paddrAligned, bits sizeAligned]
    rfl
  rw [unfolded] at failed ⊢
  revert failed
  rcases firstPass pgindex vaddr paddr size kernel with ⟨retcode, vcur, found, after⟩
  intro failed
  by_cases zero : retcode = 0
  · rw [zero] at failed
    exact absurd rfl failed
  · exact ⟨retcode, vcur, found, after, rfl, zero, if_neg zero⟩

/-- `map_pages` is undone when it fails exactly if the failure at the first page that cannot be
mapped is recoverable. -/
theorem map_pages_rolled_back_iff {pgindex vaddr paddr size flags : Nat} {kernel : Kernel}
    (wellFormed : WellFormed .ilp32 pgindex kernel) (populated : Populated pgindex kernel)
    (aligned : vaddr % pageSize = 0) (fits : vaddr < 2 ^ 32) (paddrAligned : paddr % pageSize = 0)
    (sizeAligned : size % pageSize = 0) (sizeFits : size < 2 ^ 32)
    (failed : (mapPages .ilp32 pgindex vaddr paddr size flags kernel).1 = -eexist ∨
      (mapPages .ilp32 pgindex vaddr paddr size flags kernel).1 = -enomem) :
    RolledBack pgindex vaddr paddr size flags kernel ↔
      ∃ page < size / pageSize, FailsAt pgindex vaddr kernel page ∧
        (∀ earlier < page, ¬ FailsAt pgindex vaddr kernel earlier) ∧
        Recoverable pgindex vaddr kernel page := by
  have nonzero : (mapPages .ilp32 pgindex vaddr paddr size flags kernel).1 ≠ 0 := by
    rcases failed with code | code <;>
      · rw [code]
        decide
  obtain ⟨retcode, vcur, found, after, pass, negative, call⟩ :=
    mapPages_failed aligned paddrAligned sizeAligned nonzero
  have start : Passed pgindex vaddr 0 [] kernel kernel :=
    ⟨Linked.refl wellFormed, rfl, fun page no => absurd no (not_lt_zero page), rfl,
      fun count => by rw [length_nil, zero_add]⟩
  have run := pass
  rw [firstPass, ← pageAt_zero fits] at run
  obtain ⟨count, made, middle, bound, rfl, fails, earlier, passed, same⟩ :=
    start.mapFirst _ run negative
  have short : count < size / pageSize := by
    unfold pageSize at bound sizeAligned ⊢
    omega
  have linked := passed.linked.trans_unchanged same
  have nodup := cleanedIndices_nodup vaddr (wrapSub (2 ^ 32) (pageAt vaddr count) vaddr)
  have bounds := fun index => @cleanedIndices_lt vaddr
    (wrapSub (2 ^ 32) (pageAt vaddr count) vaddr) index
  have undone := linked.undone_iff populated nodup bounds
  have reads : rollbackReads pgindex vaddr paddr size kernel =
      (cleanedIndices vaddr (wrapSub (2 ^ 32) (pageAt vaddr count) vaddr)).map
        (pde pgindex middle) := by
    rw [rollbackReads, pass]
    refine ((if_neg negative).trans
      (tablesRead_eq linked.wellFormed.root_isTable _ after nodup bounds)).trans ?_
    exact map_congr_left fun index member => same.directory index (bounds index member)
  have exactly : RolledBack pgindex vaddr paddr size flags kernel ↔
      Recoverable pgindex vaddr kernel count := by
    rw [passed.recoverable_iff aligned fits (by unfold pageSize at short; omega)]
    constructor
    · rintro ⟨unchanged, tables⟩
      rw [call, freeIntermediate_ilp32] at unchanged
      obtain ⟨inside, invertible⟩ := undone.mp unchanged
      refine ⟨⟨inside, fun index member => ?_⟩, invertible⟩
      exact tables _ (reads ▸ mem_map_of_mem member)
    · rintro ⟨⟨inside, present⟩, invertible⟩
      refine ⟨?_, fun table read => ?_⟩
      · rw [call, freeIntermediate_ilp32]
        exact undone.mpr ⟨inside, invertible⟩
      · rw [reads] at read
        obtain ⟨index, member, rfl⟩ := mem_map.mp read
        exact present index member
  rw [exactly]
  constructor
  · exact fun recoverable => ⟨count, short, fails,
      fun page less => earlier page less (zero_le page), recoverable⟩
  · rintro ⟨page, -, stops, before, recoverable⟩
    obtain rfl : page = count := le_antisymm
      (Nat.le_of_not_lt fun later => before count later fails)
      (Nat.le_of_not_lt fun sooner => earlier page sooner (Nat.zero_le page) stops)
    exact recoverable

/-- A kernel with an empty directory, in the page after page 0. -/
def emptyDirectory (answers : List (Option Nat)) : Kernel :=
  ⟨fun _ => 0, ⟨[0x1000], answers, false, false⟩, 0⟩

theorem emptyDirectory_wellFormed (answers : List (Option Nat)) :
    WellFormed .ilp32 0x80001000 (emptyDirectory answers) ∧
      Populated 0x80001000 (emptyDirectory answers) :=
  ⟨wellFormed_ilp32_iff.mpr ⟨⟨0x1000, mem_singleton_self _, by decide, by decide⟩,
        fun _ _ there => absurd rfl there⟩,
    fun _ _ there => absurd rfl there⟩

/-- The second page is in the next table, for which there is no page: the table of the first
page is given back. -/
theorem map_pages_rolled_back_second :
    (mapPages .ilp32 0x80001000 0x3ff000 0 0x2000 0 (emptyDirectory [some 0x2000])).1 = -enomem ∧
      RolledBack 0x80001000 0x3ff000 0 0x2000 0 (emptyDirectory [some 0x2000]) := by
  have code :
      (mapPages .ilp32 0x80001000 0x3ff000 0 0x2000 0 (emptyDirectory [some 0x2000])).1 = -enomem :=
    by decide +kernel
  obtain ⟨wellFormed, populated⟩ := emptyDirectory_wellFormed [some 0x2000]
  have one : missingTables 0x80001000 0x3ff000 (emptyDirectory [some 0x2000]) 1 = {0} := by
    decide +kernel
  have two : (missingTables 0x80001000 0x3ff000 (emptyDirectory [some 0x2000]) 2).card = 2 := by
    decide +kernel
  have fails : FailsAt 0x80001000 0x3ff000 (emptyDirectory [some 0x2000]) 1 := by
    refine Or.inr fun grants => ?_
    rw [two] at grants
    obtain ⟨_, _, taken, -, -, -, later⟩ := grants.take
    cases taken
    exact Pool.not_grants_of_refused rfl later
  have passes : ∀ earlier < 1,
      ¬ FailsAt 0x80001000 0x3ff000 (emptyDirectory [some 0x2000]) earlier := by
    intro earlier first
    obtain rfl : earlier = 0 := by omega
    rw [FailsAt, one, not_or]
    exact ⟨not_not.mpr (by decide +kernel), not_not.mpr ⟨[0x2000], [], by decide +kernel⟩⟩
  refine ⟨code, (map_pages_rolled_back_iff wellFormed populated (by decide) (by decide) (by decide)
    (by decide) (by decide) (Or.inr code)).mpr ⟨1, by decide, fails, passes, nofun, nofun,
    fun wraps => absurd wraps (by decide), fun paddr granted => ?_⟩⟩
  rw [one] at granted
  cases mem_singleton.mp granted
  decide

/-- There is no page for the table of the first page: the clean-up takes the null entry of the
directory for a table. -/
theorem map_pages_reads_null :
    WellFormed .ilp32 0x80001000 (emptyDirectory []) ∧ Populated 0x80001000 (emptyDirectory []) ∧
      (mapPages .ilp32 0x80001000 0x1000 0 0x1000 0 (emptyDirectory [])).1 = -enomem ∧
      rollbackReads 0x80001000 0x1000 0 0x1000 (emptyDirectory []) = [0] ∧
      ¬ RolledBack 0x80001000 0x1000 0 0x1000 0 (emptyDirectory []) := by
  have reads : rollbackReads 0x80001000 0x1000 0 0x1000 (emptyDirectory []) = [0] := by
    decide +kernel
  refine ⟨(emptyDirectory_wellFormed []).1, (emptyDirectory_wellFormed []).2, by decide +kernel,
    reads, fun rolled => ?_⟩
  exact rolled.tables 0 (reads ▸ mem_singleton_self 0) rfl

end AIMv6
