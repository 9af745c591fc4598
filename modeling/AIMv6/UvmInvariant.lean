/-
This file states what holds between an address space, its page table and the pages and
objects in use, whatever calls have been made, and proves that each piece of `uvm.c` keeps it.

`Consistent` says that every area is one page with its own `struct pages` of reference count
one, that the page table maps exactly the pages of the areas, and that the pages and objects
in use are those of the areas, the leaf tables, the page directory, the `struct mm` and what
was in use outside. Nothing in it depends on the order of the areas. Page 0 of the RAM is
special: `kva2pa` does not give it back, so a leaf table there stays in use for ever and is
counted as outside from then on.
-/

import AIMv6.Uvm
import AIMv6.PageTablePages

namespace AIMv6

open List Kernel World

/-! ### The invariant -/

/-- An area as `create_uvm` makes it. -/
structure Vma.Fine (vma : Vma) : Prop where
  aligned : vma.start % pageSize = 0
  inside : vma.start < 2 ^ 32
  size : vma.size = pageSize
  pagesSize : vma.pages.size = pageSize
  refs : vma.pages.refs = 1
  frame : isFrame .ilp32 vma.pages.paddr = true

/-- The entry an area has in the page table. -/
def Vma.pte (vma : Vma) : Nat := vma.pages.paddr ||| pgtablePerm vma.flags

/-- The pages of the page table: the page directory and the leaf tables. -/
structure TableFrames (usable : Nat → Prop) (pgindex : Nat) (kernel : Kernel) (root : Nat)
    (leaves : List Nat) : Prop where
  directory : pgindex = pa2kva .ilp32 root
  rootFrame : isFrame .ilp32 root = true
  rootUsable : usable root
  mem_leaves : ∀ paddr, paddr ∈ leaves ↔ isFrame .ilp32 paddr = true ∧
    ∃ index < 1024, pde pgindex kernel index = pa2kva .ilp32 paddr
  leavesUsable : ∀ paddr ∈ leaves, usable paddr

/-- What holds of an address space, with the pages and objects that are in use outside. -/
structure Consistent (usable : Nat → Prop) (outsideFrames outsideObjs : List Nat) (mm : Mm)
    (world : World) : Prop where
  table : WellFormed .ilp32 mm.pgindex world.kernel
  populated : Populated mm.pgindex world.kernel
  fine : ∀ vma ∈ mm.areas, vma.Fine
  starts : (mm.areas.map Vma.start).Nodup
  mapped : ∀ vma ∈ mm.areas, entry .ilp32 mm.pgindex world.kernel vma.start = vma.pte
  covered : ∀ page < 2 ^ 32, page % pageSize = 0 →
    entry .ilp32 mm.pgindex world.kernel page ≠ 0 → ∃ vma ∈ mm.areas, vma.start = page
  frames : ∃ root leaves, TableFrames usable mm.pgindex world.kernel root leaves ∧
    world.kernel.frames.inUse.Perm
      (mm.areas.map (fun vma => vma.pages.paddr) ++ leaves ++ root :: outsideFrames)
  framesNodup : world.kernel.frames.inUse.Nodup
  framesStray : world.kernel.frames.stray = false
  objs : world.heap.inUse.Perm
    (mm.areas.map Vma.obj ++ mm.areas.map Vma.pagesObj ++ mm.obj :: outsideObjs)
  objsNodup : world.heap.inUse.Nodup
  heapStray : world.heap.stray = false

/-- The part of it that is about the areas and the tables in memory. -/
structure Laid (mm : Mm) (kernel : Kernel) : Prop where
  shaped : Shaped mm.pgindex kernel
  populated : Populated mm.pgindex kernel
  fine : ∀ vma ∈ mm.areas, vma.Fine
  starts : (mm.areas.map Vma.start).Nodup
  mapped : ∀ vma ∈ mm.areas, entry .ilp32 mm.pgindex kernel vma.start = vma.pte
  covered : ∀ page < 2 ^ 32, page % pageSize = 0 →
    entry .ilp32 mm.pgindex kernel page ≠ 0 → ∃ vma ∈ mm.areas, vma.start = page

variable {usable : Nat → Prop} {outsideFrames outsideObjs : List Nat} {mm : Mm} {world : World}
  {pgindex : Nat} {kernel : Kernel}

theorem Consistent.laid (consistent : Consistent usable outsideFrames outsideObjs mm world) :
    Laid mm world.kernel :=
  ⟨consistent.table.shaped, consistent.populated, consistent.fine, consistent.starts,
    consistent.mapped, consistent.covered⟩

variable {areas rest : List Vma}

theorem Laid.perm (laid : Laid mm kernel)
    (same : mm.areas.Perm areas) : Laid { mm with areas } kernel := by
  refine ⟨laid.shaped, laid.populated, fun vma member => laid.fine vma (same.mem_iff.mpr member),
    (same.map Vma.start).nodup_iff.mp laid.starts,
    fun vma member => laid.mapped vma (same.mem_iff.mpr member),
    fun page inside whole nonzero => ?_⟩
  obtain ⟨vma, member, start⟩ := laid.covered page inside whole nonzero
  exact ⟨vma, same.mem_iff.mp member, start⟩

namespace Consistent

theorem perm (consistent : Consistent usable outsideFrames outsideObjs mm world)
    (same : mm.areas.Perm areas) :
    Consistent usable outsideFrames outsideObjs { mm with areas } world := by
  obtain ⟨root, leaves, tables, inUse⟩ := consistent.frames
  have laid := consistent.laid.perm same
  exact ⟨consistent.table, laid.populated, laid.fine, laid.starts, laid.mapped, laid.covered,
    ⟨root, leaves, tables, inUse.trans (((same.map _).append_right _).append_right _)⟩,
    consistent.framesNodup, consistent.framesStray,
    consistent.objs.trans (((same.map _).append (same.map _)).append_right _),
    consistent.objsNodup, consistent.heapStray⟩

theorem eq_of_start (consistent : Consistent usable outsideFrames outsideObjs mm world)
    {first second : Vma} (firstMember : first ∈ mm.areas) (secondMember : second ∈ mm.areas)
    (same : first.start = second.start) : first = second :=
  inj_on_of_nodup_map consistent.starts firstMember secondMember same

end Consistent

variable {before : Kernel} {after : World} {abi : Abi} {frames : Pool} {vma : Vma} {pre : List Vma}

theorem Laid.unchanged {after : Kernel} (laid : Laid mm before)
    (same : Unchanged mm.pgindex before after) : Laid mm after := by
  obtain ⟨frames, formed⟩ := laid.shaped
  have tables : Unchanged mm.pgindex { before with frames } { after with frames } :=
    ⟨same.directory, same.leaves, rfl, rfl, same.junk⟩
  refine ⟨⟨frames, tables.wellFormed formed⟩, same.populated laid.populated, laid.fine, laid.starts,
    fun vma member => (same.entry_eq _).trans (laid.mapped vma member),
    fun page inside whole nonzero => laid.covered page inside whole ?_⟩
  rwa [same.entry_eq] at nonzero

theorem laid_of_no_tables (shaped : Shaped mm.pgindex kernel) (none : mm.areas = [])
    (empty : ∀ index < 1024, pde mm.pgindex kernel index = 0) : Laid mm kernel := by
  refine ⟨shaped, fun index bound there => absurd (empty index bound) there, ?_, ?_, ?_,
    fun page _ _ nonzero => ?_⟩
  · simp [none]
  · simp [none]
  · simp [none]
  · exact absurd (entry_of_no_leaf (leaf_eq_none.mpr (empty (pdx page) (pdx_lt page)))) nonzero

theorem Laid.no_tables (laid : Laid mm kernel) (none : mm.areas = []) :
    ∀ index < 1024, pde mm.pgindex kernel index = 0 := by
  intro index bound
  by_contra present
  obtain ⟨page, inside, -, mapped⟩ := populated_iff.mp laid.populated index bound present
  have whole : entry .ilp32 mm.pgindex kernel (page / pageSize * pageSize) ≠ 0 := by
    rwa [entry_of_same_page (Nat.mul_div_cancel _ (by decide))]
  obtain ⟨vma, member, -⟩ := laid.covered _ (lt_of_le_of_lt (Nat.div_mul_le_self _ _) inside)
    (Nat.mul_mod_left _ _) whole
  rw [none] at member
  cases member

/-- The page table, the pages and the objects are as they were. -/
structure Restored (pgindex : Nat) (before after : World) : Prop where
  kernel : Unchanged pgindex before.kernel after.kernel
  objs : after.heap.inUse = before.heap.inUse
  heapStray : after.heap.stray = before.heap.stray

theorem Restored.trans {first second third : World} (before : Restored pgindex first second)
    (after : Restored pgindex second third) : Restored pgindex first third :=
  ⟨before.kernel.trans after.kernel, after.objs.trans before.objs,
    after.heapStray.trans before.heapStray⟩

theorem Consistent.restored {before : World}
    (consistent : Consistent usable outsideFrames outsideObjs mm before)
    (restored : Restored mm.pgindex before after) :
    Consistent usable outsideFrames outsideObjs mm after := by
  obtain ⟨kernel, objs, stray⟩ := restored
  obtain ⟨root, leaves, tables, inUse⟩ := consistent.frames
  have laid := consistent.laid.unchanged kernel
  refine ⟨kernel.wellFormed consistent.table, laid.populated, laid.fine, laid.starts, laid.mapped,
    laid.covered, ⟨root, leaves, ⟨tables.directory, tables.rootFrame, tables.rootUsable,
      fun paddr => ?_, tables.leavesUsable⟩, kernel.inUse ▸ inUse⟩,
    kernel.inUse ▸ consistent.framesNodup, kernel.stray.trans consistent.framesStray,
    objs ▸ consistent.objs, objs ▸ consistent.objsNodup, stray.trans consistent.heapStray⟩
  rw [tables.mem_leaves]
  refine and_congr_right fun _ => exists_congr fun index => and_congr_right fun bound => ?_
  rw [kernel.directory index bound]

/-! ### Setting up one page -/

theorem WellFormed.more_frames (wellFormed : WellFormed abi pgindex kernel)
    (more : ∀ paddr ∈ kernel.frames.inUse, paddr ∈ frames.inUse) :
    WellFormed abi pgindex { kernel with frames } := by
  refine ⟨wellFormed.proper, fun table reached => ?_⟩
  obtain ⟨paddr, member, owned⟩ := wellFormed.owned table reached
  exact ⟨paddr, more paddr member, owned⟩

/-- `kmalloc` returns an object that is not in use, or `NULL`. -/
theorem kmalloc_cases (world : World) :
    (∃ obj heap, world.heap.answers = some obj :: heap.answers ∧ obj ∉ world.heap.inUse ∧
      heap.inUse = obj :: world.heap.inUse ∧ heap.stray = world.heap.stray ∧
      world.kmalloc = (some obj, { world with heap })) ∨
    ∃ heap, heap.inUse = world.heap.inUse ∧ heap.stray = world.heap.stray ∧
      world.kmalloc = (none, { world with heap }) := by
  rcases world.heap.take_cases (· ≠ 0) with ⟨obj, rest, -, fresh, answers, taken⟩ | ⟨rest, refused⟩
  · refine Or.inl ⟨obj, (world.heap.take (· ≠ 0)).2, ?_, fresh, ?_, ?_, ?_⟩
    · rw [taken]
      exact answers
    · rw [taken]
    · rw [taken]
    · rw [kmalloc, taken]
  · refine Or.inr ⟨(world.heap.take (· ≠ 0)).2, ?_, ?_, ?_⟩
    · rw [refused]
    · rw [refused]
    · rw [kmalloc, refused]

theorem allocPage_cases (abi : Abi) (world : World) :
    (∃ paddr frames, isFrame abi paddr = true ∧ paddr ∉ world.kernel.frames.inUse ∧
      frames.inUse = paddr :: world.kernel.frames.inUse ∧
      world.kernel.frames.answers = some paddr :: frames.answers ∧
      frames.stray = world.kernel.frames.stray ∧
      world.allocPage abi = (some paddr, { world with kernel := { world.kernel with frames } })) ∨
    ∃ frames, frames.inUse = world.kernel.frames.inUse ∧
      frames.stray = world.kernel.frames.stray ∧
      world.allocPage abi = (none, { world with kernel := { world.kernel with frames } }) := by
  rcases world.kernel.frames.take_cases (isFrame abi) with
    ⟨paddr, rest, frame, fresh, answers, taken⟩ | ⟨rest, refused⟩
  · refine Or.inl ⟨paddr, (world.kernel.frames.take (isFrame abi)).2, frame, fresh, ?_, ?_, ?_, ?_⟩
    · rw [taken]
    · rw [taken]
      exact answers
    · rw [taken]
    · rw [allocPage, pgalloc, taken]
  · refine Or.inr ⟨(world.kernel.frames.take (isFrame abi)).2, ?_, ?_, ?_⟩
    · rw [refused]
    · rw [refused]
    · rw [allocPage, pgalloc, refused]

theorem Pool.give_head {item : Nat} {rest : List Nat} {pool : Pool}
    (head : pool.inUse = item :: rest) : pool.give item = { pool with inUse := rest } := by
  rw [Pool.give_of_mem (by rw [head]; exact mem_cons_self), head, erase_cons_head]

/-- What setting up one page did, with the kernel as it was after `alloc_pages`. -/
structure Created (pgindex vcur flags : Nat) (before : World) (vma : Vma) (after : World) :
    Prop where
  start : vma.start = vcur
  size : vma.size = pageSize
  flags : vma.flags = flags
  pages : vma.pages = ⟨vma.pages.paddr, pageSize, 0, 1⟩
  frame : isFrame .ilp32 vma.pages.paddr = true
  freshFrame : vma.pages.paddr ∉ before.kernel.frames.inUse
  freshObjs : (vma.pagesObj :: vma.obj :: before.heap.inUse).Nodup ↔ before.heap.inUse.Nodup
  objs : after.heap.inUse = vma.pagesObj :: vma.obj :: before.heap.inUse
  given : before.heap.answers = some vma.obj :: some vma.pagesObj :: after.heap.answers
  heapStray : after.heap.stray = before.heap.stray
  mapped : ∃ frames, frames.inUse = vma.pages.paddr :: before.kernel.frames.inUse ∧
    before.kernel.frames.answers = some vma.pages.paddr :: frames.answers ∧
    frames.stray = before.kernel.frames.stray ∧
    Mapped pgindex vcur vma.pte { before.kernel with frames } after.kernel

/-- Setting up one page succeeds, or leaves everything as it was. -/
theorem createPage_cases {vcur flags : Nat} (table : WellFormed .ilp32 pgindex world.kernel)
    (populated : Populated pgindex world.kernel) (aligned : vcur % pageSize = 0)
    (inside : vcur < 2 ^ 32) :
    (∃ vma after, createPage .ilp32 pgindex vcur flags world = (.ok vma, after) ∧
      Created pgindex vcur flags world vma after) ∨
    ∃ retcode after, createPage .ilp32 pgindex vcur flags world = (.error retcode, after) ∧
      retcode < 0 ∧ Restored pgindex world after := by
  unfold createPage
  rcases kmalloc_cases world with ⟨obj, heap, given, fresh, inUse, stray, taken⟩ |
    ⟨heap, inUse, stray, refused⟩
  swap
  · rw [refused]
    exact Or.inr ⟨_, _, rfl, by decide, Unchanged.refl _, inUse, stray⟩
  rw [taken]
  rcases kmalloc_cases { world with heap } with
    ⟨pagesObj, heap2, given2, fresh2, inUse2, stray2, taken2⟩ | ⟨heap2, inUse2, stray2, refused2⟩
  swap
  · simp only [refused2]
    have back := Pool.give_head (inUse2.trans inUse)
    refine Or.inr ⟨_, _, rfl, by decide, Unchanged.refl _, ?_, ?_⟩
    · rw [kfree, back]
    · rw [kfree, back]
      exact stray2.trans stray
  simp only [taken2]
  have stackedObjs : heap2.inUse = pagesObj :: obj :: world.heap.inUse := by
    rw [inUse2]
    exact congrArg _ inUse
  have strayObjs : heap2.stray = world.heap.stray := stray2.trans stray
  have giveBoth : (heap2.give pagesObj).give obj = { heap2 with inUse := world.heap.inUse } := by
    rw [Pool.give_head stackedObjs, Pool.give_head rfl]
  rcases allocPage_cases .ilp32 { world with heap := heap2 } with
    ⟨paddr, frames, frame, freshFrame, inUseFrames, answers, strayFrames, taken3⟩ |
    ⟨frames, inUseFrames, strayFrames, refused3⟩
  swap
  · simp only [refused3]
    refine Or.inr ⟨_, _, rfl, by decide, ⟨fun _ _ => rfl, fun _ _ _ _ _ => rfl, inUseFrames,
      strayFrames, rfl⟩, ?_, ?_⟩
    · simp only [kfree, giveBoth]
    · simp only [kfree, giveBoth]
      exact strayObjs
  simp only [taken3]
  have moreTable : WellFormed .ilp32 pgindex { world.kernel with frames } :=
    table.more_frames fun item member => by rw [inUseFrames]; exact mem_cons_of_mem _ member
  rcases @mapPage_cases _ _ _ _ flags moreTable populated
    aligned inside (mappable_of_frame frame) with ⟨after, call, mapped⟩ | ⟨retcode, after, call,
      negative, unchanged, -⟩
  · simp only [call, if_neg (Int.lt_irrefl 0)]
    refine Or.inl ⟨_, _, rfl, rfl, rfl, rfl, rfl, frame, freshFrame, ?_, stackedObjs,
      given.trans (congrArg (some obj :: ·) given2), strayObjs, frames, inUseFrames, answers,
        strayFrames, mapped⟩
    rw [nodup_cons, nodup_cons, mem_cons, not_or]
    rw [inUse, mem_cons, not_or] at fresh2
    exact ⟨fun both => both.2.2, fun nodup => ⟨fresh2, fresh, nodup⟩⟩
  · simp only [call, if_pos negative]
    have freed : after.pgfree paddr =
        { after with frames := { after.frames with inUse := world.kernel.frames.inUse } } := by
      rw [pgfree_of_aligned (isFrame_iff.mp frame).1,
        Pool.give_head (unchanged.inUse.trans inUseFrames)]
    refine Or.inr ⟨_, _, rfl, negative, ?_, ?_, ?_⟩
    · simp only [freePage, freed]
      exact ⟨unchanged.directory, unchanged.leaves, rfl, unchanged.stray.trans strayFrames,
        unchanged.junk⟩
    · simp only [kfree, freePage, giveBoth]
    · simp only [kfree, freePage, giveBoth]
      exact strayObjs

theorem pgalloc_answer {paddr : Nat} (granted : (pgalloc abi kernel).1 = some paddr) :
    some paddr ∈ kernel.frames.answers ∧ (pgalloc abi kernel).2.frames.stray =
      kernel.frames.stray := by
  rcases kernel.frames.take_cases (isFrame abi) with ⟨item, rest, -, -, answers, taken⟩ |
    ⟨rest, refused⟩
  · rw [pgalloc, taken] at granted ⊢
    cases granted
    exact ⟨answers ▸ mem_cons_self, rfl⟩
  · rw [pgalloc, refused] at granted
    cases granted

theorem Vma.pte_ne_zero (vma : Vma) : vma.pte ≠ 0 := pgtablePerm_or_ne_zero _ _

section Areas

variable {after : World} {vma : Vma} {root va vcur flags : Nat} {leaves : List Nat}
  {middle : Kernel}

theorem TableFrames.mapped {pte : Nat} (tables : TableFrames usable pgindex before root leaves)
    (mapped : Mapped pgindex va pte before middle)
    (answers : ∀ paddr, some paddr ∈ before.frames.answers → usable paddr)
    (nodup : before.frames.inUse.Nodup) :
    ∃ added, TableFrames usable pgindex middle root (added ++ leaves) ∧
      middle.frames.inUse = added ++ before.frames.inUse ∧
      middle.frames.inUse.Nodup ∧ middle.frames.stray = before.frames.stray := by
  rcases mapped.tables with ⟨same, -, frames⟩ |
    ⟨paddr, granted, frame, fresh, missing, linked, frames, inUse⟩
  · refine ⟨[], ⟨tables.directory, tables.rootFrame, tables.rootUsable, fun paddr => ?_,
      tables.leavesUsable⟩, by rw [frames]; rfl, by rwa [frames], by rw [frames]⟩
    rw [nil_append, tables.mem_leaves]
    refine and_congr_right fun _ => exists_congr fun index => and_congr_right fun bound => ?_
    rw [same index bound]
  · obtain ⟨member, stray⟩ := pgalloc_answer granted
    refine ⟨[paddr], ⟨tables.directory, tables.rootFrame, tables.rootUsable, fun other => ?_, ?_⟩,
      inUse, by rw [inUse]; exact nodup_cons.mpr ⟨fresh, nodup⟩, by rw [frames, stray]⟩
    · rw [singleton_append, mem_cons, tables.mem_leaves]
      constructor
      · rintro (rfl | ⟨otherFrame, index, bound, here⟩)
        · exact ⟨frame, pdx va, pdx_lt va, by rw [linked _ (pdx_lt va), if_pos rfl]⟩
        · refine ⟨otherFrame, index, bound, ?_⟩
          rw [linked index bound, if_neg]
          · exact here
          · rintro rfl
            have nonzero := (isTable_pa2kva otherFrame).nonzero
            omega
      · rintro ⟨otherFrame, index, bound, here⟩
        rw [linked index bound] at here
        split at here
        · exact Or.inl (pa2kva_injective frame otherFrame here).symm
        · exact Or.inr ⟨otherFrame, index, bound, here⟩
    · intro other otherMember
      rcases mem_append.mp otherMember with new | old
      · rw [mem_singleton.mp new]
        exact answers paddr member
      · exact tables.leavesUsable other old

/-- Setting up a page adds an area to the list and to the page table. -/
theorem Laid.created (laid : Laid mm world.kernel) (aligned : vcur % pageSize = 0)
    (inside : vcur < 2 ^ 32) (created : Created mm.pgindex vcur flags world vma after) :
    Laid { mm with areas := vma :: mm.areas } after.kernel := by
  obtain ⟨frames, -, -, -, mapped⟩ := created.mapped
  have absent : entry .ilp32 mm.pgindex world.kernel vcur = 0 := mapped.absent
  have apart : ∀ old ∈ mm.areas, old.start ≠ vcur := by
    rintro old member rfl
    exact old.pte_ne_zero ((laid.mapped old member).symm.trans absent)
  have entryAfter : ∀ page < 2 ^ 32, page % pageSize = 0 →
      entry .ilp32 mm.pgindex after.kernel page =
        if page = vcur then vma.pte else entry .ilp32 mm.pgindex world.kernel page := by
    intro page pageInside whole
    rw [mapped.entries page pageInside]
    simp only [page_div_inj whole aligned]
    rfl
  refine ⟨mapped.wellFormed.shaped, mapped.populated, fun area member => ?_, ?_,
    fun area member => ?_, fun page pageInside whole nonzero => ?_⟩
  · rcases mem_cons.mp member with rfl | old
    · have start := created.start.symm
      refine ⟨start ▸ aligned, start ▸ inside, created.size, ?_, ?_, created.frame⟩ <;>
        rw [created.pages]
    · exact laid.fine area old
  · rw [map_cons, nodup_cons, created.start]
    refine ⟨fun member => ?_, laid.starts⟩
    obtain ⟨old, oldMember, same⟩ := mem_map.mp member
    exact apart old oldMember same
  · rcases mem_cons.mp member with rfl | old
    · rw [created.start, entryAfter vcur inside aligned, if_pos rfl]
    · have fine := laid.fine area old
      rw [entryAfter _ fine.inside fine.aligned, if_neg (apart area old)]
      exact laid.mapped area old
  · rw [entryAfter page pageInside whole] at nonzero
    split at nonzero
    · rename_i here
      exact ⟨vma, mem_cons_self, created.start.trans here.symm⟩
    · obtain ⟨old, member, start⟩ := laid.covered page pageInside whole nonzero
      exact ⟨old, mem_cons_of_mem _ member, start⟩

/-- Setting up a page adds an area. -/
theorem Consistent.created (consistent : Consistent usable outsideFrames outsideObjs mm world)
    (aligned : vcur % pageSize = 0) (inside : vcur < 2 ^ 32)
    (answers : ∀ paddr, some paddr ∈ world.kernel.frames.answers → usable paddr)
    (created : Created mm.pgindex vcur flags world vma after) :
    Consistent usable outsideFrames outsideObjs { mm with areas := vma :: mm.areas } after := by
  obtain ⟨frames, inUse, given, stray, mapped⟩ := created.mapped
  obtain ⟨root, leaves, tables, perm⟩ := consistent.frames
  have tablesBefore : TableFrames usable mm.pgindex { world.kernel with frames } root leaves :=
    ⟨tables.directory, tables.rootFrame, tables.rootUsable, tables.mem_leaves, tables.leavesUsable⟩
  have nodupBefore : frames.inUse.Nodup := by
    rw [inUse]
    exact nodup_cons.mpr ⟨created.freshFrame, consistent.framesNodup⟩
  obtain ⟨added, tablesAfter, inUseAfter, nodupAfter, strayAfter⟩ := tablesBefore.mapped mapped
    (fun paddr member => answers paddr (by rw [given]; exact mem_cons_of_mem _ member))
    nodupBefore
  have laid := consistent.laid.created aligned inside created
  refine ⟨mapped.wellFormed, laid.populated, laid.fine, laid.starts, laid.mapped, laid.covered,
    ⟨root, added ++ leaves, tablesAfter, ?_⟩, nodupAfter,
    strayAfter.trans (stray.trans consistent.framesStray), ?_, ?_,
    created.heapStray.trans consistent.heapStray⟩
  · rw [inUseAfter]
    rw [inUse, map_cons]
    have moved : (added ++ vma.pages.paddr :: world.kernel.frames.inUse).Perm
        (vma.pages.paddr :: (added ++ world.kernel.frames.inUse)) := perm_middle
    refine moved.trans ((List.Perm.append_left added perm).cons _ |>.trans ?_)
    rw [cons_append, cons_append]
    refine List.Perm.cons _ ?_
    rw [← append_assoc, ← append_assoc, ← append_assoc]
    exact (perm_append_comm.append_right leaves).append_right _
  · rw [created.objs, map_cons, map_cons]
    have ordered := consistent.objs
    refine ((ordered.cons vma.obj).cons vma.pagesObj).trans ?_
    refine (List.Perm.swap vma.obj vma.pagesObj _).trans ?_
    rw [cons_append, cons_append]
    refine List.Perm.cons _ ?_
    rw [append_assoc, append_assoc, cons_append]
    exact perm_middle.symm
  · rw [created.objs]
    exact created.freshObjs.mpr consistent.objsNodup

/-- The pages in use after a page has been unmapped: page 0 is not given back. -/
theorem TableFrames.unmapped {before : List Nat} (wellFormed : WellFormed .ilp32 pgindex kernel)
    (tables : TableFrames usable pgindex kernel root leaves)
    (unmapped : Unmapped pgindex va kernel middle)
    (inUse : kernel.frames.inUse.Perm (before ++ leaves ++ root :: outsideFrames))
    (nodup : kernel.frames.inUse.Nodup) :
    ∃ left outside, TableFrames usable pgindex middle root left ∧
      middle.frames.inUse.Perm (before ++ left ++ root :: outside) ∧
      middle.frames.inUse.Nodup ∧ middle.frames.stray = kernel.frames.stray ∧
      (¬ usable 0 → outside = outsideFrames) := by
  rcases unmapped.tables with ⟨same, frames⟩ | ⟨paddr, -, frame, here, cleared, frames⟩
  · refine ⟨leaves, outsideFrames, ⟨tables.directory, tables.rootFrame, tables.rootUsable,
      fun paddr => ?_, tables.leavesUsable⟩, by rwa [frames], by rwa [frames], by rw [frames],
      fun _ => rfl⟩
    rw [tables.mem_leaves]
    refine and_congr_right fun _ => exists_congr fun index => and_congr_right fun bound => ?_
    rw [same index bound]
  · have member : paddr ∈ leaves := (tables.mem_leaves paddr).mpr ⟨frame, pdx va, pdx_lt va, here⟩
    have leavesNodup : leaves.Nodup :=
      ((nodup_append.mp (nodup_append.mp (inUse.nodup_iff.mp nodup)).1).2).1
    have split : leaves.Perm (paddr :: leaves.erase paddr) := perm_cons_erase member
    have tablesAfter : TableFrames usable pgindex middle root (leaves.erase paddr) := by
      refine ⟨tables.directory, tables.rootFrame, tables.rootUsable, fun other => ?_,
        fun other otherMember => tables.leavesUsable other (mem_of_mem_erase otherMember)⟩
      rw [leavesNodup.mem_erase_iff, tables.mem_leaves]
      constructor
      · rintro ⟨different, otherFrame, index, bound, there⟩
        refine ⟨otherFrame, index, bound, ?_⟩
        rw [cleared index bound, if_neg]
        · exact there
        · rintro rfl
          exact different (pa2kva_injective otherFrame frame (there.symm.trans here))
      · rintro ⟨otherFrame, index, bound, there⟩
        rw [cleared index bound] at there
        have nonzero := (isTable_pa2kva otherFrame).nonzero
        split at there
        · omega
        · rename_i elsewhere
          refine ⟨?_, otherFrame, index, bound, there⟩
          rintro rfl
          have present : pde pgindex kernel (pdx va) ≠ 0 := by omega
          exact elsewhere (((wellFormed_ilp32_iff.mp wellFormed).2 (pdx va) (pdx_lt va) present).2.1
            index bound (there.trans here.symm))
    have parted : kernel.frames.inUse.Perm
        (paddr :: (before ++ leaves.erase paddr ++ root :: outsideFrames)) := by
      refine inUse.trans ((split.append_left before).append_right _ |>.trans ?_)
      rw [append_assoc, append_assoc]
      exact perm_middle
    by_cases zero : paddr = 0
    · rw [if_pos zero] at frames
      refine ⟨leaves.erase paddr, paddr :: outsideFrames, tablesAfter, ?_, by rwa [frames],
        by rw [frames], fun no => absurd (zero ▸ tables.leavesUsable paddr member) no⟩
      rw [frames]
      refine parted.trans (perm_middle.symm.trans ?_)
      exact (List.Perm.swap root paddr outsideFrames).append_left _
    · rw [if_neg zero] at frames
      obtain ⟨rest, stray⟩ := Pool.give_perm parted
      refine ⟨leaves.erase paddr, outsideFrames, tablesAfter, by
        rwa [frames], ?_, by rw [frames, stray], fun _ => rfl⟩
      rw [frames, rest.nodup_iff]
      exact (nodup_cons.mp (parted.nodup_iff.mp nodup)).2

/-- The page table needs no other pages than its own. -/
theorem TableFrames.wellFormed (tables : TableFrames usable pgindex kernel root leaves)
    (formed : WellFormed .ilp32 pgindex kernel)
    (kept : ∀ paddr ∈ root :: leaves, paddr ∈ frames.inUse) :
    WellFormed .ilp32 pgindex { kernel with frames } := by
  refine wellFormed_ilp32_iff.mpr ⟨⟨root, kept root mem_cons_self, tables.rootFrame,
    tables.directory⟩, fun index bound there => ?_⟩
  obtain ⟨notRoot, distinct, owner, -, ownerFrame, ownerIs⟩ :=
    (wellFormed_ilp32_iff.mp formed).2 index bound there
  have member := (tables.mem_leaves owner).mpr ⟨ownerFrame, index, bound, ownerIs⟩
  exact ⟨notRoot, distinct, owner, kept owner (mem_cons_of_mem _ member), ownerFrame, ownerIs⟩

/-- The last reference goes away with the area: its page and its objects are freed. -/
theorem Vma.Fine.release_eq (fine : vma.Fine) (world : World) :
    (unrefPages vma world).kfree vma.obj =
      { kernel := { world.kernel with frames := world.kernel.frames.give vma.pages.paddr }
        heap := (world.heap.give vma.pagesObj).give vma.obj } := by
  have lastRef : wrapSub (2 ^ 32) vma.pages.refs 1 = 0 := by rw [fine.refs]; decide
  rw [unrefPages, if_pos lastRef, freePage, pgfree_of_aligned (isFrame_iff.mp fine.frame).1]
  rfl

theorem Consistent.objs_split (consistent : Consistent usable outsideFrames
      outsideObjs { mm with areas := vma :: rest } world) :
    world.heap.inUse.Perm (vma.pagesObj :: vma.obj ::
      (rest.map Vma.obj ++ rest.map Vma.pagesObj ++ mm.obj :: outsideObjs)) := by
  refine consistent.objs.trans ?_
  show ((vma.obj :: rest.map Vma.obj) ++ (vma.pagesObj :: rest.map Vma.pagesObj) ++ _).Perm _
  rw [append_assoc, append_assoc, cons_append]
  exact (List.Perm.cons _ perm_middle).trans (List.Perm.swap _ _ _)

theorem Laid.leaf_present (laid : Laid mm kernel) (member : vma ∈ mm.areas) :
    pde mm.pgindex kernel (pdx vma.start) ≠ 0 := by
  intro none
  have zero := entry_of_no_leaf (leaf_eq_none.mpr none)
  exact vma.pte_ne_zero ((laid.mapped vma member).symm.trans zero)

/-- Unmapping the page of an area removes the area from the page table. -/
theorem Laid.released (junk : Nat) (laid : Laid { mm with areas := vma :: rest } kernel)
    (below : vma.start + pageSize < 2 ^ 32) :
    ∃ after, unmapPages .ilp32 mm.pgindex vma.start vma.size junk kernel =
        some (pageSize, vma.pages.paddr, after) ∧ Laid { mm with areas := rest } after := by
  have fine := laid.fine vma mem_cons_self
  have mapped : entry .ilp32 mm.pgindex kernel vma.start = vma.pte :=
    laid.mapped vma mem_cons_self
  have present := laid.leaf_present mem_cons_self
  have call := @unmapPage_eq _ _ junk _ below present
  rw [mapped, Vma.pte, ptePaddr_or (mappable_of_frame fine.frame)] at call
  obtain ⟨shaped, populated, entries⟩ :=
    cleared_tables laid.shaped laid.populated fine.inside present
  refine ⟨_, by rw [fine.size, call], ?_⟩
  have entryAfter : ∀ page < 2 ^ 32, page % pageSize = 0 →
      entry .ilp32 mm.pgindex (freeLeafTable mm.pgindex (pdx vma.start) (kernel.setWord .ilp32
        (pde mm.pgindex kernel (pdx vma.start)) (ptx .ilp32 vma.start) 0)) page =
        if page = vma.start then 0 else entry .ilp32 mm.pgindex kernel page := by
    intro page inside whole
    rw [entries page inside]
    simp only [page_div_inj whole fine.aligned]
  have starts := nodup_cons.mp laid.starts
  have notFirst : ∀ other ∈ rest, other.start ≠ vma.start := fun other member equal =>
    starts.1 (equal ▸ mem_map_of_mem member)
  refine ⟨shaped, populated, fun other member => laid.fine other (mem_cons_of_mem _ member),
    starts.2, fun other member => ?_, fun page inside whole nonzero => ?_⟩
  · have otherFine := laid.fine other (mem_cons_of_mem _ member)
    refine (entryAfter _ otherFine.inside otherFine.aligned).trans ?_
    rw [if_neg (notFirst other member)]
    exact laid.mapped other (mem_cons_of_mem _ member)
  · have kept := (entryAfter page inside whole).symm.trans_ne nonzero
    split at kept
    · exact absurd rfl kept
    · rename_i elsewhere
      obtain ⟨other, member, start⟩ := laid.covered page inside whole kept
      rcases mem_cons.mp member with rfl | old
      · exact absurd start.symm elsewhere
      · exact ⟨other, old, start⟩

/-- Unmapping the page of an area and freeing what belongs to it removes the area. -/
theorem Consistent.released (returnable : ∀ paddr, usable paddr → Returnable paddr) (junk : Nat)
    (consistent : Consistent usable outsideFrames outsideObjs
      { mm with areas := vma :: rest } world)
    (below : vma.start + pageSize < 2 ^ 32) :
    ∃ kernel, unmapPages .ilp32 mm.pgindex vma.start vma.size junk world.kernel =
        some (pageSize, vma.pages.paddr, kernel) ∧
      ∃ outside, (¬ usable 0 → outside = outsideFrames) ∧
        Consistent usable outside outsideObjs { mm with areas := rest }
          ((unrefPages vma { world with kernel }).kfree vma.obj) := by
  have fine := consistent.fine vma mem_cons_self
  obtain ⟨root, leaves, tables, inUse⟩ := consistent.frames
  obtain ⟨kernel, call, laid⟩ := consistent.laid.released junk below
  obtain ⟨cleared, again, unmapped⟩ := unmapPage_spec
    consistent.table consistent.populated below (consistent.laid.leaf_present mem_cons_self)
    fun paddr _ frame here => returnable paddr (tables.leavesUsable paddr
      ((tables.mem_leaves paddr).mpr ⟨frame, pdx vma.start, pdx_lt vma.start, here⟩))
  have twice := call
  rw [fine.size, again] at twice
  obtain rfl := (Prod.mk.inj (Prod.mk.inj (Option.some.inj twice)).2).2
  refine ⟨cleared, call, ?_⟩
  obtain ⟨left, outside, tablesAfter, inUseAfter, nodupAfter, strayAfter, kept⟩ :=
    tables.unmapped consistent.table unmapped inUse consistent.framesNodup
  refine ⟨outside, kept, ?_⟩
  have framesSplit : cleared.frames.inUse.Perm (vma.pages.paddr ::
      (rest.map (fun vma => vma.pages.paddr) ++ left ++ root :: outside)) := inUseAfter
  have objsSplit := consistent.objs_split
  obtain ⟨framesLeft, framesStray⟩ := Pool.give_perm framesSplit
  obtain ⟨objsMiddle, strayMiddle⟩ := Pool.give_perm objsSplit
  obtain ⟨objsLeft, strayLeft⟩ := Pool.give_perm objsMiddle
  have usedLeft := (nodup_cons.mp (framesSplit.nodup_iff.mp nodupAfter)).2
  have objsUsed := consistent.objsNodup
  rw [objsSplit.nodup_iff, nodup_cons, nodup_cons] at objsUsed
  rw [fine.release_eq]
  refine ⟨?_, laid.populated, laid.fine, laid.starts, laid.mapped, laid.covered, ⟨root, left,
      ⟨tablesAfter.directory, tablesAfter.rootFrame, tablesAfter.rootUsable,
        tablesAfter.mem_leaves, tablesAfter.leavesUsable⟩, framesLeft⟩,
    framesLeft.nodup_iff.mpr usedLeft,
    framesStray.trans (strayAfter.trans consistent.framesStray), objsLeft,
    objsLeft.nodup_iff.mpr objsUsed.2.2,
    strayLeft.trans (strayMiddle.trans consistent.heapStray)⟩
  refine tablesAfter.wellFormed unmapped.wellFormed fun paddr member => ?_
  rcases mem_cons.mp member with rfl | leaf
  · exact framesLeft.mem_iff.mpr (by simp)
  · exact framesLeft.mem_iff.mpr (by simp [leaf])

end Areas

/-! ### Removing areas -/

theorem Vma.Fine.below_or_last (fine : vma.Fine) :
    vma.start + pageSize < 2 ^ 32 ∨ vma.start + pageSize = 2 ^ 32 := by
  have aligned := fine.aligned
  have inside := fine.inside
  unfold pageSize at *
  omega

/-- `__unmap_and_free_vma` removes areas below the last page of the address space. -/
theorem Consistent.unmapAndFree (returnable : ∀ paddr, usable paddr → Returnable paddr)
    {pre : List Vma} (pages : Nat) {areas : List Vma}
    (consistent : Consistent usable outsideFrames outsideObjs
      { mm with areas := pre ++ areas } world)
    (enough : pages ≤ areas.length)
    (below : ∀ vma ∈ areas.take pages, vma.start + pageSize < 2 ^ 32) :
    ∃ after, unmapAndFreeVma .ilp32 mm.pgindex pages areas world = .ok (areas.drop pages, after) ∧
      ∃ outside, (¬ usable 0 → outside = outsideFrames) ∧
        Consistent usable outside outsideObjs { mm with areas := pre ++ areas.drop pages }
          after := by
  induction pages generalizing areas world outsideFrames with
  | zero => exact ⟨world, rfl, outsideFrames, fun _ => rfl, consistent⟩
  | succ pages inductionHypothesis =>
    rcases areas with _ | ⟨vma, rest⟩
    · simp at enough
    have first : vma.start + pageSize < 2 ^ 32 := below vma (by simp)
    have front : Consistent usable outsideFrames outsideObjs
        { mm with areas := vma :: (pre ++ rest) } world := consistent.perm perm_middle
    obtain ⟨kernel, call, middle, keeps, released⟩ := Consistent.released returnable 0 front first
    obtain ⟨after, later, outside, laterKeeps, left⟩ := inductionHypothesis released
      (by simpa using enough) (fun other member => below other (by simp [member]))
    refine ⟨after, ?_, outside, fun no => (laterKeeps no).trans (keeps no), left⟩
    simp only [unmapAndFreeVma, call, ne_eq, not_true, if_false, drop_succ_cons]
    exact later

theorem Laid.freed (laid : Laid { mm with areas := pre ++ vma :: rest } world.kernel)
    (below : vma.start + pageSize < 2 ^ 32) :
    ∃ kernel, unmapPages .ilp32 mm.pgindex vma.start vma.size 0 world.kernel =
        some (pageSize, vma.pages.paddr, kernel) ∧
      Laid { mm with areas := pre ++ rest }
        ((unrefPages vma { world with kernel }).kfree vma.obj).kernel := by
  obtain ⟨kernel, call, left⟩ := Laid.released 0 (laid.perm perm_middle) below
  refine ⟨kernel, call, ?_⟩
  rw [(laid.fine vma (by simp)).release_eq]
  exact ⟨left.shaped, left.populated, left.fine, left.starts, left.mapped, left.covered⟩

/-- When it returns, there were enough areas and none was the last page. -/
theorem Laid.of_unmapAndFree (pages : Nat) {left : List Vma}
    (laid : Laid { mm with areas := pre ++ areas } world.kernel)
    (call : unmapAndFreeVma .ilp32 mm.pgindex pages areas world = .ok (left, after)) :
    pages ≤ areas.length ∧ ∀ vma ∈ areas.take pages, vma.start + pageSize < 2 ^ 32 := by
  induction pages generalizing areas world with
  | zero => simp
  | succ pages inductionHypothesis =>
    rcases areas with _ | ⟨vma, rest⟩
    · cases call
    have fine := laid.fine vma (by simp)
    rcases fine.below_or_last with first | last
    · obtain ⟨kernel, unmapped, freed⟩ := laid.freed first
      simp only [unmapAndFreeVma, unmapped, ne_eq, not_true, if_false] at call
      obtain ⟨enough, below⟩ := inductionHypothesis freed call
      refine ⟨by simpa using enough, fun other member => ?_⟩
      rw [take_succ_cons, mem_cons] at member
      rcases member with rfl | later
      · exact first
      · exact below other later
    · have unmapped := @unmapPage_last_eq mm.pgindex _ 0 world.kernel last
      rw [← fine.size] at unmapped
      simp only [unmapAndFreeVma, unmapped, if_pos (show (0 : Nat) ≠ pageSize by decide)] at call
      cases call

/-- The loop of `mm_destroy` removes all areas below the last page. -/
theorem Consistent.cleanAll (returnable : ∀ paddr, usable paddr → Returnable paddr)
    (consistent : Consistent usable outsideFrames outsideObjs { mm with areas } world)
    (below : ∀ vma ∈ areas, vma.start + pageSize < 2 ^ 32) :
    ∃ after, cleanAll .ilp32 mm.pgindex areas world = .ok after ∧
      ∃ outside, (¬ usable 0 → outside = outsideFrames) ∧
        Consistent usable outside outsideObjs { mm with areas := [] } after := by
  induction areas generalizing world outsideFrames with
  | nil => exact ⟨world, rfl, outsideFrames, fun _ => rfl, consistent⟩
  | cons vma rest inductionHypothesis =>
    have fine := consistent.fine vma mem_cons_self
    obtain ⟨kernel, call, middle, keeps, released⟩ :=
      Consistent.released returnable world.kernel.junk consistent (below vma mem_cons_self)
    obtain ⟨after, later, outside, laterKeeps, left⟩ := inductionHypothesis released
      (fun other member => below other (mem_cons_of_mem _ member))
    refine ⟨after, ?_, outside, fun no => (laterKeeps no).trans (keeps no), left⟩
    have cleaned : cleanVma .ilp32 mm.pgindex vma world = .ok { world with kernel } := by
      rw [cleanVma, if_neg (not_not.mpr (fine.size.trans fine.pagesSize.symm)), call]
      simp only [fine.size, ne_eq, not_true, if_false]
    simp only [AIMv6.cleanAll, cleaned]
    exact later

/-! ### The whole life of an address space -/

/-- `mm_new` makes an address space without areas. -/
theorem mmNew_consistent {start : World} (framesNodup : start.kernel.frames.inUse.Nodup)
    (objsNodup : start.heap.inUse.Nodup) (framesStray : start.kernel.frames.stray = false)
    (heapStray : start.heap.stray = false)
    (answers : ∀ paddr, some paddr ∈ start.kernel.frames.answers → usable paddr)
    (call : mmNew .ilp32 start = (some mm, world)) :
    mm.areas = [] ∧ Consistent usable start.kernel.frames.inUse start.heap.inUse mm world := by
  unfold mmNew at call
  rcases kmalloc_cases start with ⟨obj, heap, -, fresh, inUse, stray, taken⟩ | ⟨heap, -, -, refused⟩
  swap
  · rw [refused] at call
    cases call
  rw [taken] at call
  simp only [initPgindex] at call
  rcases start.kernel.frames.take_cases (isFrame .ilp32) with
    ⟨root, rest, frame, freshRoot, given, granted⟩ | ⟨rest, refused⟩
  swap
  · simp only [pgalloc, refused] at call
    cases call
  simp only [pgalloc, granted, Prod.mk.injEq, Option.some.injEq] at call
  obtain ⟨rfl, rfl⟩ := call
  have empty : ∀ index < 1024, pde (pa2kva .ilp32 root) (Kernel.clearPage (pa2kva .ilp32 root)
      { start.kernel with
        frames := { start.kernel.frames with
          inUse := root :: start.kernel.frames.inUse, answers := rest } }) index = 0 :=
    fun index bound => word_clearPage_same (isTable_pa2kva frame) bound
  have table := wellFormed_of_empty frame mem_cons_self fun index => empty index index.isLt
  have laid := @laid_of_no_tables ⟨obj, pa2kva .ilp32 root, []⟩ _ table.shaped rfl empty
  refine ⟨rfl, table, laid.populated, laid.fine, laid.starts, laid.mapped, laid.covered,
    ⟨root, [], ⟨rfl, frame, answers root (given ▸ mem_cons_self), fun paddr => ?_,
      fun paddr none => (nomatch none)⟩, List.Perm.refl _⟩,
    nodup_cons.mpr ⟨freshRoot, framesNodup⟩, framesStray, ?_, ?_, stray.trans heapStray⟩
  · refine ⟨fun none => (nomatch none), ?_⟩
    rintro ⟨otherFrame, index, bound, there⟩
    have nonzero := (isTable_pa2kva otherFrame).nonzero
    rw [empty index bound] at there
    omega
  · rw [inUse]
    rfl
  · rw [inUse]
    exact nodup_cons.mpr ⟨fresh, objsNodup⟩

/-- `mm_destroy` gives back everything when no area is the last page of the address space. -/
theorem Consistent.mmDestroy
    (inverts : ∀ paddr, usable paddr → kva2pa .ilp32 (pa2kva .ilp32 paddr) = paddr)
    (consistent : Consistent usable outsideFrames outsideObjs mm world)
    (below : ∀ vma ∈ mm.areas, vma.start + pageSize < 2 ^ 32) :
    ∃ after, mmDestroy .ilp32 mm world = .ok after ∧
      after.kernel.frames.inUse.Perm outsideFrames ∧ after.heap.inUse.Perm outsideObjs ∧
      after.kernel.frames.stray = false ∧ after.heap.stray = false := by
  obtain ⟨middle, cleaned, outside, keeps, empty⟩ := consistent.cleanAll
    (fun paddr fits => Or.inr (inverts paddr fits)) below
  rw [keeps fun zero => absurd (inverts 0 zero) (by rw [kva2pa_zero]; decide)] at empty
  obtain ⟨root, leaves, tables, inUse⟩ := empty.frames
  have noLeaves : leaves = [] := by
    rcases leaves with _ | ⟨paddr, rest⟩
    · rfl
    obtain ⟨frame, index, bound, there⟩ := (tables.mem_leaves paddr).mp mem_cons_self
    have nonzero := (isTable_pa2kva frame).nonzero
    have missing := empty.laid.no_tables rfl index bound
    omega
  subst noLeaves
  have rootInverts := inverts root tables.rootUsable
  refine ⟨kfree mm.obj { middle with kernel := destroyPgindex .ilp32 mm.pgindex middle.kernel },
    by simp only [AIMv6.mmDestroy, cleaned], ?_⟩
  have freed : destroyPgindex .ilp32 mm.pgindex middle.kernel =
      { middle.kernel with frames := middle.kernel.frames.give root } := by
    rw [destroyPgindex, tables.directory,
      pgfree_kva2pa (Or.inr rootInverts) (isFrame_iff.mp tables.rootFrame).1, if_neg]
    rintro rfl
    rw [kva2pa_zero] at rootInverts
    cases rootInverts
  obtain ⟨framesLeft, framesStray⟩ := Pool.give_perm inUse
  obtain ⟨objsLeft, objsStray⟩ := Pool.give_perm empty.objs
  rw [freed]
  exact ⟨framesLeft, objsLeft, framesStray.trans empty.framesStray, objsStray.trans empty.heapStray⟩

end AIMv6
