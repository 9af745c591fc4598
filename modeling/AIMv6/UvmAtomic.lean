/-
This file settles when `create_uvm` is atomic on failure, for an address space that any calls
have led to.

A request is rejected before anything is done when the search finds an overlap. Otherwise the
loop stops at the first page that is refused, and the roll-back removes as many areas as the
loop has added, starting at the area *in front of* them. So a failure at the first page is
undone, because there is nothing to undo; a failure at a later page takes away an old area, or
the list head, and leaves the last of the new areas behind.
-/

import AIMv6.UvmRuns

namespace AIMv6

open List Kernel World

/-! ### Any earlier calls -/

/-- Any call with arguments of their types; the pages the providers grant are usable. -/
def UvmCall.Typed (usable : Nat → Prop) (_ : Mm) (_ : World) : UvmCall → Prop
  | create _ answers addr len _ => addr < 2 ^ 32 ∧ len < 2 ^ 32 ∧ UsableAnswers usable answers
  | destroy _ addr len => addr < 2 ^ 32 ∧ len < 2 ^ 32

variable {areas below above : List Vma} {after : World} {sentinel : Sentinel} {addr len : Nat}
  {retcode : Int}

section RollBack

variable {usable : Nat → Prop} {outsideFrames outsideObjs : List Nat} {mm : Mm} {world : World}

/-- Whatever `__unmap_and_free_vma` removes without a trap, it leaves the rest consistent. -/
theorem Consistent.unmapAndFree_ok {pre left : List Vma} {pages : Nat}
    (returnable : ∀ paddr, usable paddr → Returnable paddr)
    (consistent : Consistent usable outsideFrames outsideObjs
      { mm with areas := pre ++ areas } world)
    (call : unmapAndFreeVma .ilp32 mm.pgindex pages areas world = .ok (left, after)) :
    left = areas.drop pages ∧
      ∃ outside, Consistent usable outside outsideObjs { mm with areas := pre ++ left } after := by
  obtain ⟨enough, below⟩ := consistent.laid.of_unmapAndFree pages call
  obtain ⟨last, same, outside, -, kept⟩ := consistent.unmapAndFree returnable pages enough below
  cases same.symm.trans call
  exact ⟨rfl, outside, kept⟩

/-- The areas in front of and behind a place, with new ones at the place. -/
theorem Consistent.placed {new : List Vma} (whole : below ++ above = mm.areas)
    (consistent : Consistent usable outsideFrames outsideObjs { mm with areas := new ++ mm.areas }
      world) :
    Consistent usable outsideFrames outsideObjs { mm with areas := below ++ new ++ above }
      world := by
  refine consistent.perm ?_
  rw [← whole, append_assoc]
  exact perm_append_comm_assoc new below above

theorem findVmaBefore_whole {size : Nat}
    (found : findVmaBefore .ilp32 sentinel areas addr size = some (below, above)) :
    below ++ above = areas := by
  obtain ⟨rfl, rfl⟩ := findVmaBefore_some found
  exact takeWhile_append_dropWhile

/-- What is left after a roll-back that does not trap. -/
theorem Consistent.rollBack {added : List Vma}
    (returnable : ∀ paddr, usable paddr → Returnable paddr)
    (consistent : Consistent usable outsideFrames outsideObjs
      { mm with areas := below ++ added ++ above } world)
    (call : rollBack .ilp32 mm.pgindex below added above world = .ok (areas, after)) :
    areas = below.dropLast ++ (below.getLast?.toList ++ added ++ above).drop added.length ∧
      ∃ outside, Consistent usable outside outsideObjs { mm with areas } after := by
  unfold AIMv6.rollBack at call
  rcases last : below.getLast? with _ | vmaStart
  · obtain rfl := List.getLast?_eq_none_iff.mp last
    rw [last] at call
    simp only at call
    split at call
    · rename_i none
      subst none
      cases call
      exact ⟨by simp, outsideFrames, consistent⟩
    · cases call
  · rw [last] at call
    simp only at call
    obtain ⟨front, rfl⟩ := List.getLast?_eq_some_iff.mp last
    rcases freed : unmapAndFreeVma .ilp32 mm.pgindex added.length (vmaStart :: added ++ above) world
      with trap | ⟨rest, middle⟩
    · rw [freed] at call
      cases call
    · rw [freed] at call
      cases call
      rw [dropLast_concat]
      have split : Consistent usable outsideFrames outsideObjs
          { mm with areas := front ++ (vmaStart :: added ++ above) } world := by
        have same : front ++ [vmaStart] ++ added ++ above =
            front ++ (vmaStart :: added ++ above) := by
          simp
        rw [← same]
        exact consistent
      obtain ⟨rfl, outside, kept⟩ := split.unmapAndFree_ok returnable freed
      exact ⟨rfl, outside, kept⟩

/-- Any call of `create_uvm` that returns leaves the address space consistent. -/
theorem Consistent.createUvm {answers : Nat → PageAnswers} {flags : Nat} {next : Mm}
    (returnable : ∀ paddr, usable paddr → Returnable paddr)
    (consistent : Consistent usable outsideFrames outsideObjs mm world) (inside : addr < 2 ^ 32)
    (usableAnswers : UsableAnswers usable answers)
    (returned : createUvm .ilp32 sentinel answers mm addr len flags world =
      .ok (retcode, next, after)) :
    ∃ outside, Consistent usable outside outsideObjs next after := by
  unfold AIMv6.createUvm at returned
  split at returned
  · cases returned
    exact ⟨outsideFrames, consistent⟩
  rename_i accepted
  have aligned : addr % pageSize = 0 := (isAligned_two_pow addr 12).mp (by simp_all [pageSize])
  rcases search : findVmaBefore .ilp32 sentinel mm.areas addr len with _ | ⟨below, above⟩
  · rw [search] at returned
    cases returned
    exact ⟨outsideFrames, consistent⟩
  rcases ran : AIMv6.createLoop .ilp32 mm.pgindex flags answers (len / pageSize) 0
    addr [] world with
    ⟨code, added, middle⟩
  have grown := (Consistent.createLoop usableAnswers (len / pageSize)
    (show Consistent usable outsideFrames outsideObjs { mm with areas := [] ++ mm.areas } world from
      consistent) aligned inside ran).2.1
  have placed := grown.placed (findVmaBefore_whole search)
  simp only [search, ran] at returned
  split at returned
  · cases returned
    exact ⟨outsideFrames, placed⟩
  · rcases rolled : AIMv6.rollBack .ilp32 mm.pgindex below added above middle with
      trap | ⟨areas, last⟩
    · rw [rolled] at returned
      cases returned
    · rw [rolled] at returned
      cases returned
      exact (placed.rollBack returnable rolled).2

/-- Any call of `destroy_uvm` that returns leaves the address space consistent. -/
theorem Consistent.destroyUvm {next : Mm} (returnable : ∀ paddr, usable paddr → Returnable paddr)
    (consistent : Consistent usable outsideFrames outsideObjs mm world)
    (returned : destroyUvm .ilp32 sentinel mm addr len world = .ok (retcode, next, after)) :
    ∃ outside, Consistent usable outside outsideObjs next after := by
  unfold AIMv6.destroyUvm at returned
  split at returned
  · cases returned
    exact ⟨outsideFrames, consistent⟩
  split at returned
  · cases returned
    exact ⟨outsideFrames, consistent⟩
  rename_i vmaStart rest found
  split at returned
  · cases returned
  · cases returned
    exact ⟨outsideFrames, consistent⟩
  rcases freed : unmapAndFreeVma .ilp32 mm.pgindex (len / pageSize) (vmaStart :: rest) world with
    trap | ⟨left, last⟩
  · rw [freed] at returned
    cases returned
  · rw [freed] at returned
    cases returned
    have split : Consistent usable outsideFrames outsideObjs
        { mm with areas := mm.areas.takeWhile (fun vma => vma.start ≠ addr) ++ vmaStart :: rest }
        world := by
      rw [← found, takeWhile_append_dropWhile]
      exact consistent
    exact (split.unmapAndFree_ok returnable freed).2

end RollBack

/-- Any calls leave the address space consistent with what was in use before `mm_new`. -/
theorem UvmReachable.consistent {usable : Nat → Prop} {start world : World} {mm : Mm}
    (clean : start.Clean usable) (returnable : ∀ paddr, usable paddr → Returnable paddr)
    (reached : UvmReachable (UvmCall.Typed usable) start mm world) :
    ∃ outside, Consistent usable outside start.heap.inUse mm world := by
  induction reached with
  | new call =>
    exact ⟨_, (mmNew_consistent clean.frames clean.objs clean.framesStray clean.heapStray
      clean.answers call).2⟩
  | step call earlier typed returned inductionHypothesis =>
    obtain ⟨outside, consistent⟩ := inductionHypothesis
    cases call with
    | create sentinel answers addr len flags =>
      obtain ⟨inside, -, usableAnswers⟩ := typed
      exact consistent.createUvm returnable inside usableAnswers returned
    | destroy sentinel addr len => exact consistent.destroyUvm returnable returned

/-! ### Atomicity -/

/-- The call returns, and when it fails the list of areas, the page table and what is in use are
as they were. -/
def Atomic (mm : Mm) (world : World) (outcome : Except Trap (Int × Mm × World)) : Prop :=
  ∃ retcode next after, outcome = .ok (retcode, next, after) ∧
    (retcode ≠ 0 → next = mm ∧ Restored mm.pgindex world after)

/-- The request reaches above the start of the area in front of the place it is searched, by the
size of the area behind it. The list head stands for an area that is missing. -/
def Rejected (sentinel : Sentinel) (areas : List Vma) (addr len : Nat) : Prop :=
  areas ≠ [] ∧ addr < ((((areas.takeWhile fun vma => vma.start < (addr + len) % 2 ^ 32).getLast?.map
        Vma.start).getD sentinel.start) +
      (((areas.dropWhile fun vma => vma.start < (addr + len) % 2 ^ 32).head?.map
        Vma.size).getD sentinel.size)) % 2 ^ 32

theorem findVmaBefore_eq_none :
    findVmaBefore .ilp32 sentinel areas addr len = none ↔ Rejected sentinel areas addr len := by
  unfold findVmaBefore Rejected
  by_cases empty : areas = []
  · simp [empty]
  · rw [if_neg empty]
    simp only [ne_eq, empty, not_false_eq_true, true_and]
    constructor
    · intro found
      by_contra free
      rw [show Abi.ilp32.modulus = 2 ^ 32 from rfl, if_neg free] at found
      cases found
    · exact fun reaches => if_pos reaches

section Leftovers

variable {usable : Nat → Prop} {outsideFrames outsideObjs : List Nat} {mm : Mm} {world : World}
  {sentinel : Sentinel} {answers : Nat → PageAnswers} {addr len flags : Nat}

/-- A request that is not rejected runs the loop, and rolls back when the loop fails. -/
theorem createUvm_of_place (addrWhole : addr % pageSize = 0) (lenWhole : len % pageSize = 0)
    (search : findVmaBefore .ilp32 sentinel mm.areas addr len = some (below, above))
    {added : List Vma} {middle : World}
    (ran : createLoop .ilp32 mm.pgindex flags answers (len / pageSize) 0 addr [] world =
      (retcode, added, middle)) :
    createUvm .ilp32 sentinel answers mm addr len flags world =
      if retcode = 0 then .ok (0, { mm with areas := below ++ added ++ above }, middle)
      else (rollBack .ilp32 mm.pgindex below added above middle).map fun left =>
        (retcode, { mm with areas := left.1 }, left.2) := by
  have lenAligned : isAligned len pageSize = true := (isAligned_two_pow len 12).mpr lenWhole
  have addrAligned : isAligned addr pageSize = true := (isAligned_two_pow addr 12).mpr addrWhole
  simp only [createUvm, lenAligned, addrAligned, search, ran, Bool.not_true, Bool.or_self,
    Bool.false_eq_true, if_false]
  rcases rollBack .ilp32 mm.pgindex below added above middle with trap | left <;> rfl

theorem rollBack_nil (pgindex : Nat) (below above : List Vma) (world : World) :
    rollBack .ilp32 pgindex below [] above world = .ok (below ++ above, world) := by
  unfold rollBack
  rcases last : below.getLast? with _ | vmaStart
  · rw [List.getLast?_eq_none_iff.mp last]
    rfl
  · obtain ⟨front, rfl⟩ := List.getLast?_eq_some_iff.mp last
    simp only [length_nil, unmapAndFreeVma, dropLast_concat]
    simp

/-- After something has been added, a roll-back that returns has not restored the list. -/
theorem Consistent.rollBack_ne {front : List Vma} {final : Vma}
    (returnable : ∀ paddr, usable paddr → Returnable paddr) (whole : below ++ above = mm.areas)
    (consistent : Consistent usable outsideFrames outsideObjs
      { mm with areas := front ++ [final] ++ mm.areas } world)
    (call : AIMv6.rollBack .ilp32 mm.pgindex below (front ++ [final]) above world =
      .ok (areas, after)) : areas ≠ mm.areas := by
  obtain ⟨left, -⟩ := (consistent.placed whole).rollBack returnable call
  intro same
  have kept : final ∈ mm.areas := by
    rw [← same, left]
    rcases last : below.getLast? with _ | vmaStart
    · unfold AIMv6.rollBack at call
      rw [last] at call
      simp only [if_neg (concat_ne_nil final front)] at call
      cases call
    · refine mem_append_right _ ?_
      simp
  have distinct : ((front ++ [final] ++ mm.areas).map Vma.start).Nodup := consistent.starts
  rw [map_append] at distinct
  exact (nodup_append.mp distinct).2.2 final.start
    (mem_map_of_mem (mem_append_right _ (mem_singleton_self _))) final.start
    (mem_map_of_mem kept) rfl

/-- A failure at a later page is not undone. -/
theorem Consistent.not_atomic (returnable : ∀ paddr, usable paddr → Returnable paddr)
    (consistent : Consistent usable outsideFrames outsideObjs mm world)
    (addrWhole : addr % pageSize = 0) (lenWhole : len % pageSize = 0) (inside : addr < 2 ^ 32)
    (few : len / pageSize < 2 ^ 20) (fresh : FreshAnswers usable answers (len / pageSize) world)
    (search : findVmaBefore .ilp32 sentinel mm.areas addr len = some (below, above))
    (first : ¬ Refused mm.pgindex world.kernel answers addr 0)
    (later : ∃ page < len / pageSize, Refused mm.pgindex world.kernel answers addr page) :
    ¬ Atomic mm world (AIMv6.createUvm .ilp32 sentinel answers mm addr len flags world) := by
  classical
  obtain ⟨bound, refused⟩ := Nat.find_spec later
  obtain ⟨retcode, new, middle, ran, negative, grown, starts⟩ :=
    @Consistent.createLoop_refused _ _ _
    _ _ flags _ _ _ consistent addrWhole inside few fresh _ bound (fun page order no =>
      Nat.find_min later order ⟨order.trans bound, no⟩) refused
  have added : new ≠ [] := by
    rintro rfl
    have none : Nat.find later = 0 := by simpa using (congrArg List.length starts).symm
    rw [none] at refused
    exact first refused
  obtain ⟨front, final, rfl⟩ := (eq_nil_or_concat' new).resolve_left added
  rw [createUvm_of_place addrWhole lenWhole search ran, if_neg (by omega)]
  rintro ⟨code, next, after, returned, restores⟩
  rcases rolled : AIMv6.rollBack .ilp32 mm.pgindex below (front ++ [final]) above middle with
    trap | ⟨areas, last⟩
  · rw [rolled] at returned
    cases returned
  · rw [rolled] at returned
    cases returned
    obtain ⟨same, -⟩ := restores (by omega)
    exact grown.rollBack_ne returnable (findVmaBefore_whole search) rolled (congrArg Mm.areas same)

end Leftovers

/-- `create_uvm` is atomic exactly when the request is rejected at once, when its first page is
refused, or when no page of it is refused. -/
theorem createUvm_atomic_iff {start world : World} {mm : Mm} {sentinel : Sentinel}
    {answers : Nat → PageAnswers} {addr len flags : Nat} (clean : start.Clean InLowRam)
    (reached : UvmReachable (UvmCall.Typed InLowRam) start mm world)
    (addrInside : addr < 2 ^ 32) (lenInside : len < 2 ^ 32)
    (addrWhole : addr % pageSize = 0) (lenWhole : len % pageSize = 0)
    (fresh : FreshAnswers InLowRam answers (len / pageSize) world) :
    Atomic mm world (createUvm .ilp32 sentinel answers mm addr len flags world) ↔
      Rejected sentinel mm.areas addr len ∨ Refused mm.pgindex world.kernel answers addr 0 ∨
        ∀ page < len / pageSize, ¬ Refused mm.pgindex world.kernel answers addr page := by
  have returnable : ∀ paddr, InLowRam paddr → Returnable paddr := fun paddr => returnable_of_low
  obtain ⟨outside, consistent⟩ := reached.consistent clean returnable
  have few : len / pageSize < 2 ^ 20 := by
    unfold pageSize
    omega
  rcases search : findVmaBefore .ilp32 sentinel mm.areas addr len with _ | ⟨below, above⟩
  · refine iff_of_true ⟨-efault, mm, world, ?_, fun _ => ⟨rfl, Unchanged.refl _, rfl, rfl⟩⟩
      (Or.inl (findVmaBefore_eq_none.mp search))
    have lenAligned : isAligned len pageSize = true := (isAligned_two_pow len 12).mpr lenWhole
    have addrAligned : isAligned addr pageSize = true := (isAligned_two_pow addr 12).mpr addrWhole
    simp only [createUvm, lenAligned, addrAligned, search, Bool.not_true, Bool.or_self,
      Bool.false_eq_true, if_false]
  have notRejected : ¬ Rejected sentinel mm.areas addr len := by
    rw [← findVmaBefore_eq_none, search]
    nofun
  have whole := findVmaBefore_whole search
  by_cases all : ∀ page < len / pageSize, ¬ Refused mm.pgindex world.kernel answers addr page
  · obtain ⟨new, after, ran, -⟩ :=
      consistent.createLoop_ok addrWhole addrInside few fresh all
    refine iff_of_true ⟨0, { mm with areas := below ++ new ++ above }, after, ?_,
      fun failed => absurd rfl failed⟩ (Or.inr (Or.inr all))
    rw [createUvm_of_place addrWhole lenWhole search ran, if_pos rfl]
  push Not at all
  by_cases first : Refused mm.pgindex world.kernel answers addr 0
  · obtain ⟨page, bound, -⟩ := all
    obtain ⟨retcode, after, ran, negative, restored⟩ :=
      @Consistent.createLoop_refused_first _ _ _ _ _
      flags _ _ _ consistent addrWhole addrInside fresh (by omega) first
    refine iff_of_true ⟨retcode, mm, after, ?_, fun _ => ⟨rfl, restored⟩⟩ (Or.inr (Or.inl first))
    rw [createUvm_of_place addrWhole lenWhole search ran, if_neg (by omega), rollBack_nil, whole]
    rfl
  · refine iff_of_false (consistent.not_atomic returnable addrWhole lenWhole addrInside few fresh
      search first all) ?_
    rintro (rejected | refused | none)
    · exact notRejected rejected
    · exact first refused
    · obtain ⟨page, bound, refused⟩ := all
      exact none page bound refused

theorem firstArea_created : ∃ mm world, UvmReachable (UvmCall.Typed InLowRam) bootWorld mm world ∧
    createUvm .ilp32 ⟨0, 0⟩ onePageAnswers bootMm 0x1000 0x1000 6 (mmNew .ilp32 bootWorld).2 =
      .ok (0, mm, world) ∧ mm.areas.map Vma.start = [0x1000] := by
  have typed : (UvmCall.create ⟨0, 0⟩ onePageAnswers 0x1000 0x1000 6).Typed InLowRam
      bootMm (mmNew .ilp32 bootWorld).2 := by
    refine ⟨by decide, by decide, fun page paddr granted => ?_⟩
    rcases granted with data | table
    · cases data
      decide
    · cases table
      decide
  obtain ⟨mm, after, returned, starts⟩ : ∃ mm after,
      createUvm .ilp32 ⟨0, 0⟩ onePageAnswers bootMm 0x1000 0x1000 6 (mmNew .ilp32 bootWorld).2 =
        .ok (0, mm, after) ∧ mm.areas.map Vma.start = [0x1000] :=
    exists_returned (fun mm _ => mm.areas.map Vma.start = [0x1000]) (by decide +kernel)
  exact ⟨mm, after, .step _ (.new rfl) typed returned, returned, starts⟩

/-- No memory is to be had. -/
def noAnswers (_ : Nat) : PageAnswers := ⟨none, none, none, none⟩

theorem createUvm_atomic_iff_noMemory : ∃ mm world,
    UvmReachable (UvmCall.Typed InLowRam) bootWorld mm world ∧ mm.areas.map Vma.start = [0x1000] ∧
      Atomic mm world (createUvm .ilp32 ⟨0, 0x1000⟩ noAnswers mm 0x2000 0x2000 6 world) := by
  obtain ⟨mm, world, reached, -, starts⟩ := firstArea_created
  have fresh : FreshAnswers InLowRam noAnswers (0x2000 / pageSize) world :=
    fun page _ => ⟨nodup_nil, nofun, nodup_nil, nofun⟩
  exact ⟨mm, world, reached, starts, (createUvm_atomic_iff (bootWorld_clean (by decide)) reached
    (by decide) (by decide) (by decide) (by decide) fresh).mpr (Or.inr (Or.inl (Or.inl rfl)))⟩

/-- Memory for one page, and no more. -/
def oneMoreAnswers (page : Nat) : PageAnswers :=
  if page = 0 then ⟨some 0x7000, some 0x8000, some 0x9000, some 0xa000⟩
    else ⟨none, none, none, none⟩

/-- A request for two pages behind the area at 0x1000 fails at the second page: the call returns
-ENOMEM with the old area gone and the first new one in place. -/
theorem createUvm_not_atomic : ∃ mm world next after,
    UvmReachable (UvmCall.Typed InLowRam) bootWorld mm world ∧ mm.areas.map Vma.start = [0x1000] ∧
      createUvm .ilp32 ⟨0, 0x1000⟩ oneMoreAnswers mm 0x2000 0x2000 6 world =
        .ok (-enomem, next, after) ∧ next.areas.map Vma.start = [0x2000] := by
  obtain ⟨mm, world, reached, created, starts⟩ := firstArea_created
  obtain ⟨_, _, again, evaluates⟩ : ∃ mm world,
      createUvm .ilp32 ⟨0, 0⟩ onePageAnswers bootMm 0x1000 0x1000 6 (mmNew .ilp32 bootWorld).2 =
        .ok (0, mm, world) ∧
      (createUvm .ilp32 ⟨0, 0x1000⟩ oneMoreAnswers mm 0x2000 0x2000 6 world).toOption.any
        fun result => result.1 = -enomem ∧ result.2.1.areas.map Vma.start = [0x2000] :=
    exists_returned (fun mm world =>
      (createUvm .ilp32 ⟨0, 0x1000⟩ oneMoreAnswers mm 0x2000 0x2000 6 world).toOption.any
        fun result => result.1 = -enomem ∧ result.2.1.areas.map Vma.start = [0x2000])
      (by decide +kernel)
  cases created.symm.trans again
  obtain ⟨next, after, returned, left⟩ :=
    exists_returned (fun next _ => next.areas.map Vma.start = [0x2000]) evaluates
  exact ⟨mm, world, next, after, reached, starts, returned, left⟩

end AIMv6
