/-
This file follows the loop of `create_uvm`.

Whatever the providers answer, the loop keeps the address space consistent with the areas it
has added. Which page it stops at is decided by the answers and by the page table before the
call: a page is `Refused` when one of the three allocations for it fails, when it is already
mapped, or when it needs a leaf table, no earlier page of the request having needed the same
one, and there is no page for that. For answers that are fresh the loop sets up the pages in
front of the first refused one and stops there.
-/

import AIMv6.UvmInvariant

namespace AIMv6

open List Kernel World Nat

/-! ### Any answers -/

/-- The pages a provider may answer with are usable. -/
def UsableAnswers (usable : Nat → Prop) (answers : Nat → PageAnswers) : Prop :=
  ∀ page paddr, (answers page).frame = some paddr ∨ (answers page).table = some paddr → usable paddr

theorem restored_ask (pgindex : Nat) (world : World) (answers : PageAnswers) :
    Restored pgindex world (world.ask answers) :=
  ⟨⟨fun _ _ => rfl, fun _ _ _ _ _ => rfl, rfl, rfl, rfl⟩, rfl, rfl⟩

variable {vcur pgindex flags page addr : Nat} {answers : Nat → PageAnswers} {world : World}

theorem next_page (aligned : vcur % pageSize = 0) :
    (vcur + pageSize) % Abi.ilp32.modulus % pageSize = 0 ∧
      (vcur + pageSize) % Abi.ilp32.modulus < 2 ^ 32 := by
  refine ⟨?_, mod_lt _ (Nat.two_pow_pos _)⟩
  rw [mod_mod_of_dvd _ (by decide), add_mod_right]
  exact aligned

/-- Setting up one page of a request keeps what holds between the areas that were added and the
world, whether it succeeds or not. -/
def KeptByPages (pgindex flags : Nat) (answers : Nat → PageAnswers)
    (holds : List Vma → World → Prop) : Prop :=
  ∀ page vcur added world, holds added world → vcur % pageSize = 0 → vcur < 2 ^ 32 →
    (∃ vma after, createPage .ilp32 pgindex vcur flags (world.ask (answers page)) =
      (.ok vma, after) ∧ vma.start = vcur ∧ holds (added ++ [vma]) after) ∨
    ∃ retcode after, createPage .ilp32 pgindex vcur flags (world.ask (answers page)) =
      (.error retcode, after) ∧ retcode < 0 ∧ holds added after

variable {added after : List Vma} {last initial : World} {retcode : Int} {usable : Nat → Prop}
  {pages : Nat} {vma : Vma}

/-- What setting up one page keeps is kept by the loop, and the areas it adds begin at the pages
of the request, one after the other. -/
theorem KeptByPages.createLoop {holds : List Vma → World → Prop}
    (kept : KeptByPages pgindex flags answers holds) (pages : Nat) (before : holds added world)
    (aligned : vcur % pageSize = 0) (inside : vcur < 2 ^ 32)
    (call : createLoop .ilp32 pgindex flags answers pages page vcur added world =
      (retcode, after, last)) :
    retcode ≤ 0 ∧ holds after last ∧ ∃ new, after = added ++ new ∧
      new.map Vma.start = (List.range new.length).map (pageAt vcur) ∧
      (retcode = 0 → new.length = pages) := by
  induction pages generalizing page vcur added world with
  | zero =>
    cases call
    exact ⟨le_rfl, before, [], (append_nil _).symm, rfl, fun _ => rfl⟩
  | succ pages inductionHypothesis =>
    unfold AIMv6.createLoop at call
    rcases kept page vcur added world before aligned inside with
      ⟨vma, middle, made, start, grown⟩ | ⟨failure, middle, failed, negative, same⟩
    · simp only [made] at call
      obtain ⟨nextAligned, nextInside⟩ := next_page aligned
      obtain ⟨sign, later, new, rfl, starts, all⟩ :=
        inductionHypothesis grown nextAligned nextInside call
      refine ⟨sign, later, vma :: new, by simp, ?_, fun done => congrArg Nat.succ (all done)⟩
      rw [map_cons, starts, start, length_cons, range_succ_eq_map, map_cons, map_map]
      refine congrArg₂ List.cons (pageAt_zero inside).symm (map_congr_left fun i _ => ?_)
      exact pageAt_next vcur i
    · simp only [failed] at call
      cases call
      exact ⟨le_of_lt negative, same, [], (append_nil _).symm, rfl,
        fun zero => absurd zero (ne_of_lt negative)⟩

/-- The loop keeps the address space consistent with the areas it has added. -/
theorem Consistent.createLoop {outsideFrames outsideObjs : List Nat} {mm : Mm}
    (usableAnswers : UsableAnswers usable answers) (pages : Nat) {areas : List Vma}
    (consistent : Consistent usable outsideFrames outsideObjs
      { mm with areas := added ++ areas } world)
    (aligned : vcur % pageSize = 0) (inside : vcur < 2 ^ 32)
    (call : createLoop .ilp32 mm.pgindex flags answers pages page vcur added world =
      (retcode, after, last)) :
    retcode ≤ 0 ∧ Consistent usable outsideFrames outsideObjs
      { mm with areas := after ++ areas } last ∧ ∃ new, after = added ++ new ∧
        new.map Vma.start = (List.range new.length).map (pageAt vcur) := by
  have kept : KeptByPages mm.pgindex flags answers fun added world =>
      Consistent usable outsideFrames outsideObjs { mm with areas := added ++ areas } world := by
    intro page vcur added world before aligned inside
    have asked := before.restored (restored_ask mm.pgindex world (answers page))
    rcases createPage_cases asked.table
      asked.populated aligned inside with ⟨vma, middle, made, created⟩ |
      ⟨failure, middle, failed, negative, restored⟩
    · have grown := asked.created aligned inside (fun paddr member => usableAnswers page paddr
        (by simpa [World.ask, eq_comm] using member)) created
      refine Or.inl ⟨vma, middle, made, created.start, ?_⟩
      show Consistent usable outsideFrames outsideObjs
        { mm with areas := added ++ [vma] ++ areas } middle
      rw [append_assoc]
      exact grown.perm perm_middle.symm
    · exact Or.inr ⟨failure, middle, failed, negative, asked.restored restored⟩
  obtain ⟨sign, later, new, whole, starts, -⟩ :=
    kept.createLoop pages consistent aligned inside call
  exact ⟨sign, later, new, whole, starts⟩

/-! ### Fresh answers -/

namespace PageAnswers

/-- The objects and the pages granted among the answers for one page. -/
def objs (answers : PageAnswers) : List Nat := answers.vma.toList ++ answers.pages.toList

def frames (answers : PageAnswers) : List Nat := answers.frame.toList ++ answers.table.toList

/-- What is granted for one page is new. -/
structure Fresh (usable : Nat → Prop) (answers : PageAnswers) (usedObjs usedFrames : List Nat) :
    Prop where
  objsNodup : answers.objs.Nodup
  objsNew : ∀ obj ∈ answers.objs, obj ≠ 0 ∧ obj ∉ usedObjs
  framesNodup : answers.frames.Nodup
  framesNew : ∀ paddr ∈ answers.frames, isFrame .ilp32 paddr = true ∧ usable paddr ∧
    paddr ∉ usedFrames

theorem Fresh.mono {answers : PageAnswers} {usedObjs usedFrames objs frames : List Nat}
    (fresh : answers.Fresh usable usedObjs usedFrames) (fewerObjs : ∀ obj ∈ objs, obj ∈ usedObjs)
    (fewerFrames : ∀ paddr ∈ frames, paddr ∈ usedFrames) : answers.Fresh usable objs frames :=
  ⟨fresh.objsNodup, fun obj member => ⟨(fresh.objsNew obj member).1, fun used =>
      (fresh.objsNew obj member).2 (fewerObjs obj used)⟩,
    fresh.framesNodup, fun paddr member => ⟨(fresh.framesNew paddr member).1,
      (fresh.framesNew paddr member).2.1, fun used =>
        (fresh.framesNew paddr member).2.2 (fewerFrames paddr used)⟩⟩

end PageAnswers

/-- The page cannot be set up: an allocation fails, the page is mapped, or the leaf table it
needs cannot be had. -/
def PageRefused (pgindex : Nat) (kernel : Kernel) (answers : PageAnswers) (va : Nat) : Prop :=
  answers.vma = none ∨ answers.pages = none ∨ answers.frame = none ∨
    entry .ilp32 pgindex kernel va ≠ 0 ∨
    (answers.table = none ∧ pde pgindex kernel (pdx va) = 0)

theorem kmalloc_some {world : World} {obj : Nat} {rest : List (Option Nat)}
    (answer : world.heap.answers = some obj :: rest) (nonzero : obj ≠ 0)
    (fresh : obj ∉ world.heap.inUse) :
    ∃ after, world.kmalloc = (some obj, after) ∧ after.kernel = world.kernel ∧
      after.heap.answers = rest ∧ after.heap.inUse = obj :: world.heap.inUse := by
  have taken := @Pool.take_some (· ≠ 0) _ _ _ answer (decide_eq_true nonzero) fresh
  refine ⟨world.kmalloc.2, ?_, ?_, ?_, ?_⟩ <;> simp only [kmalloc, taken]

theorem kmalloc_none {world : World} {rest : List (Option Nat)}
    (answer : world.heap.answers = none :: rest) :
    ∃ after, world.kmalloc = (none, after) :=
  ⟨_, by rw [kmalloc, Pool.take_none answer]⟩

theorem allocPage_some {world : World} {paddr : Nat} {rest : List (Option Nat)}
    (answer : world.kernel.frames.answers = some paddr :: rest)
    (frame : isFrame .ilp32 paddr = true) (fresh : paddr ∉ world.kernel.frames.inUse) :
    ∃ frames, world.allocPage .ilp32 =
        (some paddr, { world with kernel := { world.kernel with frames } }) ∧
      frames.answers = rest ∧ frames.inUse = paddr :: world.kernel.frames.inUse := by
  have taken := Pool.take_some answer frame fresh
  refine ⟨(pgalloc .ilp32 world.kernel).2.frames, ?_, ?_, ?_⟩ <;>
    simp only [allocPage, pgalloc, taken]

theorem allocPage_none {world : World} {rest : List (Option Nat)}
    (answer : world.kernel.frames.answers = none :: rest) :
    ∃ after, world.allocPage .ilp32 = (none, after) :=
  ⟨_, by rw [allocPage, pgalloc, Pool.take_none answer]⟩

section Answers

variable {usable : Nat → Prop} {pgindex vcur flags : Nat} {world : World} {answers : PageAnswers}

section Answers

variable (fresh : answers.Fresh usable world.heap.inUse world.kernel.frames.inUse)

include fresh

/-- The two objects of an area are granted. -/
theorem objects_taken {obj pagesObj : Nat} (vmaAnswer : answers.vma = some obj)
    (pagesAnswer : answers.pages = some pagesObj) :
    ∃ first second, (world.ask answers).kmalloc = (some obj, first) ∧
      first.kmalloc = (some pagesObj, second) ∧ second.kernel = (world.ask answers).kernel := by
  have objNew := fresh.objsNew obj (by simp [PageAnswers.objs, vmaAnswer])
  have pagesNew := fresh.objsNew pagesObj (by simp [PageAnswers.objs, pagesAnswer])
  obtain ⟨first, taken, firstKernel, firstAnswers, firstInUse⟩ :=
    @kmalloc_some (world.ask answers) _ _ (by rw [← vmaAnswer]; rfl) objNew.1 objNew.2
  have pagesFresh : pagesObj ∉ first.heap.inUse := by
    have distinct := fresh.objsNodup
    simp only [PageAnswers.objs, vmaAnswer, pagesAnswer, Option.toList_some, singleton_append,
      nodup_cons, mem_singleton] at distinct
    rw [firstInUse, mem_cons, not_or]
    exact ⟨Ne.symm distinct.1, pagesNew.2⟩
  obtain ⟨second, takenNext, secondKernel, -, -⟩ :=
    kmalloc_some (by rw [firstAnswers, pagesAnswer]) pagesNew.1 pagesFresh
  exact ⟨first, second, taken, takenNext, secondKernel.trans firstKernel⟩

/-- A page is not set up when an allocation fails. -/
theorem createPage_unanswered
    (missing : answers.vma = none ∨ answers.pages = none ∨ answers.frame = none) :
    ∃ retcode after,
      createPage .ilp32 pgindex vcur flags (world.ask answers) = (.error retcode, after) := by
  rcases vmaAnswer : answers.vma with _ | obj
  · obtain ⟨after, refused⟩ := @kmalloc_none (world.ask answers) _ (by rw [← vmaAnswer]; rfl)
    exact ⟨-enomem, after, by rw [createPage, refused]⟩
  rcases pagesAnswer : answers.pages with _ | pagesObj
  · have objNew := fresh.objsNew obj (by simp [PageAnswers.objs, vmaAnswer])
    obtain ⟨first, taken, -, firstAnswers, -⟩ := @kmalloc_some (world.ask answers) _
      _ (by rw [← vmaAnswer]; rfl) objNew.1 objNew.2
    obtain ⟨after, refused⟩ := kmalloc_none (by rw [firstAnswers, pagesAnswer])
    exact ⟨-enomem, after.kfree obj, by simp only [createPage, taken, refused]⟩
  obtain ⟨first, second, taken, takenNext, kernelSame⟩ :=
    objects_taken fresh vmaAnswer pagesAnswer
  have frameAnswer : answers.frame = none := by
    rcases missing with none | none | none
    · cases vmaAnswer.symm.trans none
    · cases pagesAnswer.symm.trans none
    · exact none
  obtain ⟨after, refused⟩ := allocPage_none (by rw [kernelSame, ← frameAnswer]; rfl)
  exact ⟨-enomem, (after.kfree pagesObj).kfree obj, by
    simp only [createPage, taken, takenNext, refused]⟩

/-- When no allocation fails, `map_pages` decides whether the page is set up. -/
theorem createPage_answered {obj pagesObj paddr : Nat} (vmaAnswer : answers.vma = some obj)
    (pagesAnswer : answers.pages = some pagesObj) (frameAnswer : answers.frame = some paddr) :
    ∃ (frames : Pool) (second : World), frames.answers = [answers.table] ∧
      frames.inUse = paddr :: world.kernel.frames.inUse ∧
      ∀ retcode kernel,
        mapPages .ilp32 pgindex vcur paddr pageSize flags { world.kernel with frames } =
          (retcode, kernel) →
        createPage .ilp32 pgindex vcur flags (world.ask answers) = if retcode < 0 then
            (.error retcode, ((freePage paddr { second with kernel }).kfree pagesObj).kfree obj)
          else (.ok ⟨obj, vcur, pageSize, flags, pagesObj, ⟨paddr, pageSize, 0, 1⟩⟩,
            { second with kernel }) := by
  obtain ⟨first, second, taken, takenNext, kernelSame⟩ :=
    objects_taken fresh vmaAnswer pagesAnswer
  obtain ⟨frame, -, frameFresh⟩ := fresh.framesNew paddr (by simp [PageAnswers.frames, frameAnswer])
  obtain ⟨frames, granted, framesAnswers, framesInUse⟩ :=
    allocPage_some
    (by rw [kernelSame, ← frameAnswer]; rfl) frame (by rw [kernelSame]; exact frameFresh)
  rw [kernelSame] at granted framesInUse
  refine ⟨frames, second, framesAnswers, framesInUse, fun retcode kernel call => ?_⟩
  have given : second.allocPage .ilp32 =
      (some paddr, { second with kernel := { world.kernel with frames } }) := granted
  simp only [createPage, taken, takenNext, given, call]

/-- The frame for a leaf table is refused only if the answer is that there is none. -/
theorem table_refused {paddr : Nat} (frameAnswer : answers.frame = some paddr) {frames : Pool}
    (framesAnswers : frames.answers = [answers.table])
    (framesInUse : frames.inUse = paddr :: world.kernel.frames.inUse)
    (refused : (pgalloc .ilp32 { world.kernel with frames }).1 = none) : answers.table = none := by
  rcases tableAnswer : answers.table with _ | tableFrame
  · rfl
  exfalso
  obtain ⟨tableIsFrame, -, tableFresh⟩ := fresh.framesNew tableFrame
    (by simp [PageAnswers.frames, tableAnswer])
  have distinct := fresh.framesNodup
  simp only [PageAnswers.frames, frameAnswer, tableAnswer, Option.toList_some,
    singleton_append, nodup_cons, mem_singleton] at distinct
  have granted := Pool.take_some (by rw [framesAnswers, tableAnswer]) tableIsFrame (by
      rw [framesInUse, mem_cons, not_or]
      exact ⟨Ne.symm distinct.1, tableFresh⟩)
  simp only [pgalloc, granted] at refused
  cases refused

end Answers

/-- With fresh answers a page is set up exactly when it is not refused. -/
theorem createPage_ok_iff (table : WellFormed .ilp32 pgindex world.kernel)
    (populated : Populated pgindex world.kernel) (aligned : vcur % pageSize = 0)
    (inside : vcur < 2 ^ 32)
    (fresh : answers.Fresh usable world.heap.inUse world.kernel.frames.inUse) :
    (∃ vma after, createPage .ilp32 pgindex vcur flags (world.ask answers) = (.ok vma, after)) ↔
      ¬ PageRefused pgindex world.kernel answers vcur := by
  have fails : (∃ retcode after,
      createPage .ilp32 pgindex vcur flags (world.ask answers) = (.error retcode, after)) →
      ¬ ∃ vma after, createPage .ilp32 pgindex vcur flags (world.ask answers) =
        (.ok vma, after) := by
    rintro ⟨retcode, after, failed⟩ ⟨vma, other, made⟩
    cases failed.symm.trans made
  by_cases missing : answers.vma = none ∨ answers.pages = none ∨ answers.frame = none
  · refine iff_of_false (fails (createPage_unanswered fresh missing)) (not_not.mpr ?_)
    rcases missing with none | none | none
    · exact Or.inl none
    · exact Or.inr (Or.inl none)
    · exact Or.inr (Or.inr (Or.inl none))
  obtain ⟨vmaAnswer, pagesAnswer, frameAnswer⟩ := not_or.mp missing |>.imp_right not_or.mp
  obtain ⟨obj, vmaAnswer⟩ := Option.ne_none_iff_exists'.mp vmaAnswer
  obtain ⟨pagesObj, pagesAnswer⟩ := Option.ne_none_iff_exists'.mp pagesAnswer
  obtain ⟨paddr, frameAnswer⟩ := Option.ne_none_iff_exists'.mp frameAnswer
  obtain ⟨frames, second, framesAnswers, framesInUse, body⟩ :=
    @createPage_answered _ _ _
    flags world answers fresh obj pagesObj paddr vmaAnswer pagesAnswer frameAnswer
  have frame := (fresh.framesNew paddr (by simp [PageAnswers.frames, frameAnswer])).1
  have moreTable : WellFormed .ilp32 pgindex { world.kernel with frames } :=
    table.more_frames fun item member => by rw [framesInUse]; exact mem_cons_of_mem _ member
  rcases mapPage_cases moreTable populated aligned inside (mappable_of_frame frame) with
    ⟨after, call, mapped⟩ | ⟨retcode, after, call, negative, -, reason⟩
  · refine iff_of_true ⟨_, _, body 0 after call⟩ ?_
    rintro (none | none | none | there | ⟨tableAnswer, absent⟩)
    · exact missing (Or.inl none)
    · exact missing (Or.inr (Or.inl none))
    · exact missing (Or.inr (Or.inr none))
    · exact there mapped.absent
    · rcases mapped.tables with ⟨-, there, -⟩ | ⟨granted, given, -⟩
      · exact there absent
      · obtain ⟨member, -⟩ := pgalloc_answer given
        rw [framesAnswers, tableAnswer] at member
        simp at member
  · refine iff_of_false (fails ⟨_, _, (body retcode after call).trans (if_pos negative)⟩)
      (not_not.mpr (Or.inr (Or.inr (Or.inr ?_))))
    rcases reason with there | ⟨absent, refused⟩
    · exact Or.inl there
    · exact Or.inr ⟨table_refused fresh frameAnswer framesAnswers framesInUse refused, absent⟩

end Answers

/-! ### Where the loop stops -/

/-- A page of a request cannot be set up, by the answers and the page table before the call. -/
def Refused (pgindex : Nat) (kernel : Kernel) (answers : Nat → PageAnswers)
    (addr page : Nat) : Prop :=
  (answers page).vma = none ∨ (answers page).pages = none ∨ (answers page).frame = none ∨
    entry .ilp32 pgindex kernel (pageAt addr page) ≠ 0 ∨
    ((answers page).table = none ∧ pde pgindex kernel (pdx (pageAt addr page)) = 0 ∧
      ∀ earlier < page, pdx (pageAt addr earlier) ≠ pdx (pageAt addr page))

/-- What is granted for a request is new: neither in use nor granted for an earlier page. -/
def FreshAnswers (usable : Nat → Prop) (answers : Nat → PageAnswers) (pages : Nat) (world : World) :
    Prop :=
  ∀ page < pages, (answers page).Fresh usable
    ((List.range page).flatMap (fun earlier => (answers earlier).objs) ++ world.heap.inUse)
    ((List.range page).flatMap (fun earlier => (answers earlier).frames) ++
      world.kernel.frames.inUse)

/-- The state in front of a page of a request, against the state before the call. -/
structure UpTo (pgindex : Nat) (answers : Nat → PageAnswers) (addr pages : Nat) (initial : World)
    (page : Nat) (world : World) : Prop where
  entries : ∀ later, page ≤ later → later < pages →
    entry .ilp32 pgindex world.kernel (pageAt addr later) =
      entry .ilp32 pgindex initial.kernel (pageAt addr later)
  tables : ∀ index < 1024, pde pgindex world.kernel index = 0 ↔
    pde pgindex initial.kernel index = 0 ∧ ∀ earlier < page, pdx (pageAt addr earlier) ≠ index
  objs : ∀ obj ∈ world.heap.inUse,
    obj ∈ (List.range page).flatMap (fun earlier => (answers earlier).objs) ++ initial.heap.inUse
  frames : ∀ paddr ∈ world.kernel.frames.inUse,
    paddr ∈ (List.range page).flatMap (fun earlier => (answers earlier).frames) ++
      initial.kernel.frames.inUse

theorem UpTo.start (pgindex : Nat) (answers : Nat → PageAnswers) (addr pages : Nat)
    (initial : World) : UpTo pgindex answers addr pages initial 0 initial :=
  ⟨fun _ _ _ => rfl, fun _ _ => ⟨fun zero => ⟨zero, fun _ none => absurd none (not_lt_zero _)⟩,
    fun both => both.1⟩, fun _ member => member, fun _ member => member⟩

theorem UpTo.refused_iff (upTo : UpTo pgindex answers addr pages initial page world)
    (bound : page < pages) :
    PageRefused pgindex world.kernel (answers page) (pageAt addr page) ↔
      Refused pgindex initial.kernel answers addr page := by
  unfold PageRefused Refused
  rw [upTo.entries page le_rfl bound, upTo.tables _ (pdx_lt _)]

theorem pageAt_aligned (aligned : addr % pageSize = 0) (page : Nat) :
    pageAt addr page % pageSize = 0 ∧ pageAt addr page < 2 ^ 32 := by
  refine ⟨?_, mod_lt _ (Nat.two_pow_pos _)⟩
  rw [pageAt, mod_mod_of_dvd _ (by decide), add_mul_mod_self_right]
  exact aligned

theorem pageAt_ne {first second : Nat} (order : first < second) (few : second < 2 ^ 20) :
    pageAt addr second / pageSize ≠ pageAt addr first / pageSize := by
  unfold pageAt pageSize
  omega

/-- The answers name what setting up a page has taken into use. -/
theorem Created.within {after : World} {answers : PageAnswers}
    (created : Created pgindex vcur flags (world.ask answers) vma after) :
    (∀ obj ∈ after.heap.inUse, obj ∈ answers.objs ++ world.heap.inUse) ∧
      ∀ paddr ∈ after.kernel.frames.inUse, paddr ∈ answers.frames ++ world.kernel.frames.inUse := by
  have heapGiven : [answers.vma, answers.pages] =
      some vma.obj :: some vma.pagesObj :: after.heap.answers := created.given
  obtain ⟨vmaGiven, rest⟩ := List.cons.inj heapGiven
  obtain ⟨pagesGiven, -⟩ := List.cons.inj rest
  obtain ⟨frames, inUse, framesGiven, -, mapped⟩ := created.mapped
  have pageGiven : [answers.frame, answers.table] = some vma.pages.paddr :: frames.answers :=
    framesGiven
  obtain ⟨frameGiven, tableGiven⟩ := List.cons.inj pageGiven
  constructor
  · intro obj member
    rw [created.objs] at member
    have known : obj ∈ vma.pagesObj :: vma.obj :: world.heap.inUse := member
    simp only [mem_cons] at known
    simp only [PageAnswers.objs, vmaGiven, pagesGiven, Option.toList_some, mem_append,
      mem_singleton]
    tauto
  · intro paddr member
    have data : paddr ∈ frames.inUse → paddr ∈ answers.frames ++ world.kernel.frames.inUse := by
      intro used
      rw [inUse] at used
      have known : paddr ∈ vma.pages.paddr :: world.kernel.frames.inUse := used
      simp only [mem_cons] at known
      simp only [PageAnswers.frames, frameGiven, Option.toList_some, mem_append, mem_singleton]
      tauto
    rcases mapped.tables with ⟨-, -, same⟩ | ⟨table, granted, -, -, -, -, -, more⟩
    · rw [same] at member
      exact data member
    · rw [more] at member
      rcases mem_cons.mp member with rfl | used
      · obtain ⟨asked, -⟩ := pgalloc_answer granted
        have answer : some paddr ∈ frames.answers := asked
        rw [← tableGiven, mem_singleton] at answer
        simp [PageAnswers.frames, ← answer]
      · exact data used

theorem UpTo.created {after : World} (upTo : UpTo pgindex answers addr pages initial page world)
    (few : pages < 2 ^ 20)
    (created : Created pgindex (pageAt addr page) flags (world.ask (answers page)) vma after) :
    UpTo pgindex answers addr pages initial (page + 1) after := by
  obtain ⟨objsWithin, framesWithin⟩ := created.within
  obtain ⟨frames, -, -, -, mapped⟩ := created.mapped
  refine ⟨fun later order bound => ?_, fun index bound => ?_, fun obj member => ?_,
    fun paddr member => ?_⟩
  · rw [mapped.entries (pageAt addr later) (mod_lt _ (Nat.two_pow_pos _))]
    rw [if_neg (pageAt_ne order (by omega))]
    exact upTo.entries later (by omega) bound
  · have before := upTo.tables index bound
    have split : (∀ earlier < page + 1, pdx (pageAt addr earlier) ≠ index) ↔
        (∀ earlier < page, pdx (pageAt addr earlier) ≠ index) ∧ pdx (pageAt addr page) ≠ index := by
      constructor
      · exact fun all => ⟨fun earlier order => all earlier (by omega), all page (by omega)⟩
      · rintro ⟨all, last⟩ earlier order
        rcases Nat.lt_succ_iff_lt_or_eq.mp order with sooner | rfl
        · exact all earlier sooner
        · exact last
    rw [split, ← and_assoc, ← before]
    rcases mapped.tables with ⟨same, there, -⟩ | ⟨table, -, frame, -, -, linked, -⟩
    · rw [same index bound]
      refine ⟨fun zero => ⟨zero, ?_⟩, fun both => both.1⟩
      rintro rfl
      exact there zero
    · have nonzero := (isTable_pa2kva frame).nonzero
      rw [linked index bound]
      split
      · rename_i here
        exact iff_of_false (by omega) (fun both => both.2 here.symm)
      · rename_i elsewhere
        exact ⟨fun zero => ⟨zero, Ne.symm elsewhere⟩, fun both => both.1⟩
  · have known := objsWithin obj member
    rw [range_succ, flatMap_append, flatMap_singleton, mem_append, mem_append]
    rcases mem_append.mp known with new | old
    · exact Or.inl (Or.inr new)
    · rcases mem_append.mp (upTo.objs obj old) with granted | used
      · exact Or.inl (Or.inl granted)
      · exact Or.inr used
  · have known := framesWithin paddr member
    rw [range_succ, flatMap_append, flatMap_singleton, mem_append, mem_append]
    rcases mem_append.mp known with new | old
    · exact Or.inl (Or.inr new)
    · rcases mem_append.mp (upTo.frames paddr old) with granted | used
      · exact Or.inl (Or.inl granted)
      · exact Or.inr used

section CreateLoop

variable {usable : Nat → Prop} {outsideFrames outsideObjs : List Nat} {mm : Mm}
  {addr flags pages : Nat} {answers : Nat → PageAnswers} {initial : World}

theorem Consistent.createPage_refused {world : World} {vcur : Nat} {answers : PageAnswers}
    (consistent : Consistent usable outsideFrames outsideObjs mm world)
    (aligned : vcur % pageSize = 0) (inside : vcur < 2 ^ 32)
    (fresh : answers.Fresh usable world.heap.inUse world.kernel.frames.inUse)
    (refused : PageRefused mm.pgindex world.kernel answers vcur) :
    ∃ retcode after, createPage .ilp32 mm.pgindex vcur flags (world.ask answers) =
      (.error retcode, after) ∧ retcode < 0 ∧ Restored mm.pgindex world after := by
  have asks := restored_ask mm.pgindex world answers
  have asked := consistent.restored asks
  rcases createPage_cases asked.table asked.populated
    aligned inside with ⟨vma, after, made, -⟩ | ⟨retcode, after, failed, negative, restored⟩
  · exact absurd refused ((createPage_ok_iff
      consistent.table consistent.populated aligned inside fresh).mp ⟨vma, after, made⟩)
  · exact ⟨retcode, after, failed, negative, asks.trans restored⟩

variable (consistent : Consistent usable outsideFrames outsideObjs mm initial)
  (aligned : addr % pageSize = 0) (inside : addr < 2 ^ 32)

include consistent aligned inside

/-- Up to the first refused page the loop adds one area a page. -/
theorem Consistent.createLoop_upTo (few : pages < 2 ^ 20)
    (fresh : FreshAnswers usable answers pages initial) (stop : Nat) (bound : stop ≤ pages)
    (granted : ∀ page < stop, ¬ Refused mm.pgindex initial.kernel answers addr page) :
    ∃ new world, AIMv6.createLoop .ilp32 mm.pgindex flags answers pages 0 addr [] initial =
        AIMv6.createLoop .ilp32 mm.pgindex flags answers (pages - stop) stop (pageAt addr stop) new
          world ∧
      UpTo mm.pgindex answers addr pages initial stop world ∧
      Consistent usable outsideFrames outsideObjs { mm with areas := new ++ mm.areas } world ∧
      new.map Vma.start = (List.range stop).map (pageAt addr) := by
  induction stop with
  | zero =>
    exact ⟨[], initial, by rw [pageAt_zero inside, Nat.sub_zero], UpTo.start _ _ _ _ _, consistent,
      rfl⟩
  | succ stop inductionHypothesis =>
    obtain ⟨new, world, ran, upTo, kept, starts⟩ := inductionHypothesis (by omega)
      fun page order => granted page (by omega)
    obtain ⟨pageAligned, pageInside⟩ := pageAt_aligned aligned stop
    have freshHere := (fresh stop (by omega)).mono upTo.objs upTo.frames
    have accepted := mt (upTo.refused_iff (by omega)).mp (granted stop (by omega))
    obtain ⟨vma, after, made⟩ :=
      (@createPage_ok_iff _ _ _ _ _
      (answers stop) kept.table kept.populated pageAligned pageInside freshHere).mpr accepted
    have asked := kept.restored (restored_ask mm.pgindex world (answers stop))
    rcases createPage_cases
      asked.table asked.populated pageAligned pageInside with ⟨area, last, madeHere, created⟩ |
      ⟨failure, last, failed, -, -⟩
    swap
    · cases failed.symm.trans made
    cases madeHere.symm.trans made
    have grown := asked.created pageAligned pageInside (fun paddr member => ?_) created
    · refine ⟨new ++ [vma], after, ?_, upTo.created few created, ?_, ?_⟩
      · rw [ran, show pages - stop = pages - (stop + 1) + 1 by omega, AIMv6.createLoop, made]
        rw [← pageAt_succ]
      · rw [append_assoc]
        exact grown.perm perm_middle.symm
      · rw [map_append, starts, range_succ, map_append, map_singleton, map_singleton, created.start]
    · refine (freshHere.framesNew paddr ?_).2.1
      have answer : some paddr ∈ [(answers stop).frame, (answers stop).table] := member
      simp only [mem_cons, not_mem_nil, or_false] at answer
      rcases answer with first | second
      · simp [PageAnswers.frames, ← first]
      · simp [PageAnswers.frames, ← second]

/-- When no page is refused the loop sets up all of them. -/
theorem Consistent.createLoop_ok (few : pages < 2 ^ 20)
    (fresh : FreshAnswers usable answers pages initial)
    (granted : ∀ page < pages, ¬ Refused mm.pgindex initial.kernel answers addr page) :
    ∃ new world,
      AIMv6.createLoop .ilp32 mm.pgindex flags answers pages 0 addr [] initial = (0, new, world) ∧
      Consistent usable outsideFrames outsideObjs { mm with areas := new ++ mm.areas } world ∧
      new.map Vma.start = (List.range pages).map (pageAt addr) := by
  obtain ⟨new, world, ran, -, kept, starts⟩ :=
    consistent.createLoop_upTo aligned inside few fresh pages le_rfl
    granted
  rw [Nat.sub_self, AIMv6.createLoop] at ran
  exact ⟨new, world, ran, kept, starts⟩

/-- The loop stops with an error at the first refused page. -/
theorem Consistent.createLoop_refused (few : pages < 2 ^ 20)
    (fresh : FreshAnswers usable answers pages initial) {stop : Nat} (bound : stop < pages)
    (granted : ∀ page < stop, ¬ Refused mm.pgindex initial.kernel answers addr page)
    (refused : Refused mm.pgindex initial.kernel answers addr stop) :
    ∃ retcode new world, AIMv6.createLoop .ilp32 mm.pgindex flags answers pages 0 addr [] initial =
        (retcode, new, world) ∧
      retcode < 0 ∧
      Consistent usable outsideFrames outsideObjs { mm with areas := new ++ mm.areas } world ∧
      new.map Vma.start = (List.range stop).map (pageAt addr) := by
  obtain ⟨new, world, ran, upTo, kept, starts⟩ := consistent.createLoop_upTo aligned inside few
      fresh stop bound.le
    granted
  obtain ⟨pageAligned, pageInside⟩ := pageAt_aligned aligned stop
  obtain ⟨retcode, after, failed, negative, restored⟩ :=
    kept.createPage_refused pageAligned pageInside
      ((fresh stop bound).mono upTo.objs upTo.frames) ((upTo.refused_iff bound).mpr refused)
  rw [show pages - stop = pages - (stop + 1) + 1 by omega, AIMv6.createLoop, failed] at ran
  exact ⟨retcode, new, after, ran, negative, kept.restored restored, starts⟩

theorem Consistent.createLoop_refused_first
    (fresh : FreshAnswers usable answers pages initial) (some : 0 < pages)
    (refused : Refused mm.pgindex initial.kernel answers addr 0) :
    ∃ retcode world, AIMv6.createLoop .ilp32 mm.pgindex flags answers pages 0 addr [] initial =
        (retcode, [], world) ∧
      retcode < 0 ∧ Restored mm.pgindex initial world := by
  have upTo := UpTo.start mm.pgindex answers addr pages initial
  have pageRefused := (upTo.refused_iff some).mpr refused
  rw [pageAt_zero inside] at pageRefused
  obtain ⟨retcode, after, failed, negative, restored⟩ :=
    consistent.createPage_refused aligned inside
      ((fresh 0 some).mono upTo.objs upTo.frames) pageRefused
  rw [show pages = pages - 1 + 1 by omega, AIMv6.createLoop, failed]
  exact ⟨retcode, after, rfl, negative, restored⟩

end CreateLoop

end AIMv6
