/-
This file proves when a range that `create_uvm` has made can be destroyed piece by piece, with
one call of `destroy_uvm` for each piece and in any order.

Every page of the range is an area of its own, so what is left after a call are the areas in
front of the piece and those behind it, and the other pieces are still found. Only the last page
of the address space cannot be destroyed: `unmap_pages` unmaps nothing there, and the assertion
in `__unmap_and_free_vma` fails. Nothing here depends on the pages in use: freeing a leaf table
may give back the wrong page, but it always leaves the directory.
-/

import AIMv6.UvmRuns

namespace AIMv6

open List Kernel World Nat

/-! ### Pieces of a range -/

/-- A range of pages cut into pieces of the given sizes: where each begins and how many pages it
has. -/
def cuts (first : Nat) : List Nat → List (Nat × Nat)
  | [] => []
  | pages :: rest => (first, pages) :: cuts (first + pages) rest

/-- The addresses of the pages of a piece. -/
def pieceStarts (addr : Nat) (piece : Nat × Nat) : List Nat :=
  (List.range' piece.1 piece.2).map (pageAt addr)

/-- The pages of a piece end below the top of the address space. -/
def Below (addr : Nat) (piece : Nat × Nat) : Prop :=
  ∀ start ∈ pieceStarts addr piece, start + pageSize < 2 ^ 32

theorem flatMap_cuts (addr first : Nat) (sizes : List Nat) :
    (cuts first sizes).flatMap (pieceStarts addr) =
      (List.range' first sizes.sum).map (pageAt addr) := by
  induction sizes generalizing first with
  | nil => rfl
  | cons pages rest inductionHypothesis =>
    rw [cuts, flatMap_cons, inductionHypothesis, pieceStarts, ← map_append,
      range'_append_1, sum_cons]

variable {sizes : List Nat} {sentinel : Sentinel} {addr : Nat}

theorem cuts_positive {first : Nat} (positive : ∀ pages ∈ sizes, 0 < pages) :
    ∀ piece ∈ cuts first sizes, 0 < piece.2 := by
  induction sizes generalizing first with
  | nil => exact fun _ none => nomatch none
  | cons pages rest inductionHypothesis =>
    rintro piece (_ | ⟨_, later⟩)
    · exact positive pages mem_cons_self
    · exact inductionHypothesis (fun other member => positive other (mem_cons_of_mem _ member))
        piece later

/-! ### Removing areas -/

/-- `__unmap_and_free_vma` removes areas below the last page of the address space. -/
theorem Laid.unmapAndFree {mm : Mm} {pre : List Vma} (pages : Nat) {areas : List Vma}
    {world : World}
    (laid : Laid { mm with areas := pre ++ areas } world.kernel) (enough : pages ≤ areas.length)
    (below : ∀ vma ∈ areas.take pages, vma.start + pageSize < 2 ^ 32) :
    ∃ after, unmapAndFreeVma .ilp32 mm.pgindex pages areas world = .ok (areas.drop pages, after) ∧
      Laid { mm with areas := pre ++ areas.drop pages } after.kernel := by
  induction pages generalizing areas world with
  | zero => exact ⟨world, rfl, laid⟩
  | succ pages inductionHypothesis =>
    rcases areas with _ | ⟨vma, rest⟩
    · simp at enough
    obtain ⟨kernel, call, freed⟩ := laid.freed (below vma (by simp))
    obtain ⟨after, later, kept⟩ := inductionHypothesis freed (by simpa using enough)
      fun other member => below other (by simp [member])
    refine ⟨after, ?_, kept⟩
    simp only [unmapAndFreeVma, call, ne_eq, not_true, if_false, drop_succ_cons]
    exact later

/-! ### Destroying one piece -/

/-- The loop of `destroy_uvm` goes through areas that follow one another. -/
theorem checkRange_follows (pages : Nat) {offset : Nat} {areas back : List Vma}
    (starts : areas.map Vma.start =
      (List.range' 0 pages).map fun page => (addr + (offset + page * pageSize)) % 2 ^ 32) :
    checkRange .ilp32 sentinel addr pages offset (areas ++ back) = .ok true := by
  induction pages generalizing offset areas with
  | zero => rfl
  | succ pages inductionHypothesis =>
    rcases areas with _ | ⟨vma, rest⟩
    · simp [List.range'_succ] at starts
    rw [List.range'_succ, map_cons, map_cons, zero_mul, add_zero] at starts
    obtain ⟨head, tail⟩ := List.cons.inj starts
    rw [cons_append, checkRange, show Abi.ilp32.modulus = 2 ^ 32 from rfl,
      if_neg (not_not.mpr head)]
    refine inductionHypothesis (tail.trans ?_)
    rw [range'_eq_map_range, range'_eq_map_range, map_map, map_map]
    refine map_congr_left fun page _ => ?_
    simp only [Function.comp_apply, zero_add, add_mul, one_mul, add_assoc]

theorem length_of_starts {piece : List Vma} {first pages : Nat}
    (starts : piece.map Vma.start = pieceStarts addr (first, pages)) : piece.length = pages := by
  simpa [pieceStarts] using congrArg List.length starts

section Piece

variable {mm : Mm} {front piece back : List Vma} {addr first pages : Nat} {world : World}
  (laid : Laid { mm with areas := front ++ (piece ++ back) } world.kernel)
  (starts : piece.map Vma.start = pieceStarts addr (first, pages))
  (aligned : addr % pageSize = 0) (positive : 0 < pages)

include laid starts aligned positive

theorem Laid.destroyUvm_eq (sentinel : Sentinel) :
    destroyUvm .ilp32 sentinel { mm with areas := front ++ (piece ++ back) } (pageAt addr first)
        (pages * pageSize) world =
      match unmapAndFreeVma .ilp32 mm.pgindex pages (piece ++ back) world with
      | .error trap => .error trap
      | .ok (left, world) => .ok (0, { mm with areas := front ++ left }, world) := by
  obtain ⟨count, rfl⟩ := exists_eq_succ_of_ne_zero (ne_of_gt positive)
  rcases piece with _ | ⟨vma, rest⟩
  · simp [pieceStarts, List.range'_succ] at starts
  rw [pieceStarts, List.range'_succ, map_cons, map_cons] at starts
  obtain ⟨head, tail⟩ := List.cons.inj starts
  have skipped : ∀ other ∈ front, decide (other.start ≠ pageAt addr first) = true := by
    intro other member
    have distinct := laid.starts
    rw [map_append, nodup_append] at distinct
    exact decide_eq_true (head ▸ distinct.2.2 _ (mem_map_of_mem member) _ (by simp))
  have found : decide (vma.start ≠ pageAt addr first) = false := by simp [head]
  have follows : checkRange .ilp32 sentinel (pageAt addr first) count pageSize (rest ++ back) =
      .ok true := by
    refine checkRange_follows count (tail.trans ?_)
    rw [List.range'_eq_map_range, List.range'_eq_map_range, map_map, map_map]
    refine map_congr_left fun page _ => ?_
    simp only [Function.comp_apply, pageAt, zero_add, mod_add_mod, add_mul, one_mul, add_assoc]
  have whole : isAligned ((count + 1) * pageSize) pageSize = true :=
    (isAligned_two_pow _ 12).mpr (mul_mod_left _ _)
  have start : isAligned (pageAt addr first) pageSize = true :=
    (isAligned_two_pow _ 12).mpr (pageAt_aligned aligned first).1
  rw [destroyUvm, whole, start]
  simp only [Bool.not_true, Bool.or_self, Bool.false_eq_true, if_false]
  rw [dropWhile_append_of_pos skipped, takeWhile_append_of_pos skipped, cons_append,
    dropWhile_cons, takeWhile_cons]
  simp only [found, Bool.false_eq_true, if_false]
  rw [Nat.mul_div_cancel _ (by decide : 0 < pageSize), Nat.succ_sub_one, append_nil]
  rcases unmapAndFreeVma .ilp32 mm.pgindex (count + 1) (vma :: (rest ++ back)) world with
    trap | ⟨left, after⟩
  · simp only [follows]
  · simp only [follows]

theorem Laid.destroyUvm_piece (sentinel : Sentinel) (below : Below addr (first, pages)) :
    ∃ after, destroyUvm .ilp32 sentinel { mm with areas := front ++ (piece ++ back) }
        (pageAt addr first) (pages * pageSize) world =
        .ok (0, { mm with areas := front ++ back }, after) ∧
      Laid { mm with areas := front ++ back } after.kernel := by
  have length := length_of_starts starts
  obtain ⟨after, call, left⟩ := Laid.unmapAndFree pages laid
    (by rw [length_append, length]; exact le_add_right _ _)
    fun vma member => below _ (by
      rw [take_left' length] at member
      rw [← starts]
      exact mem_map_of_mem member)
  rw [drop_left' length] at call left
  refine ⟨after, ?_, left⟩
  rw [laid.destroyUvm_eq starts aligned positive, call]

/-- When the call returns, the last page of the address space is not in the piece. -/
theorem Laid.below_of_destroyUvm {retcode : Int} {next : Mm} {after : World}
    (call : destroyUvm .ilp32 sentinel { mm with areas := front ++ (piece ++ back) }
      (pageAt addr first) (pages * pageSize) world = .ok (retcode, next, after)) :
    Below addr (first, pages) := by
  rw [laid.destroyUvm_eq starts aligned positive] at call
  split at call
  · cases call
  · rename_i left last freed
    obtain ⟨-, below⟩ := laid.of_unmapAndFree pages freed
    rw [take_left' (length_of_starts starts)] at below
    intro start member
    rw [← starts] at member
    obtain ⟨vma, inPiece, rfl⟩ := mem_map.mp member
    exact below vma inPiece

end Piece

/-- Pages were in the list of areas and have been removed from it and from the page table; the
other areas and pages are as they were. -/
structure Removed (starts : List Nat) (mm next : Mm) (before after : Kernel) : Prop where
  there : ∀ start ∈ starts, ∃ vma ∈ mm.areas, vma.start = start
  areas : next = { mm with areas := mm.areas.filter fun vma => vma.start ∉ starts }
  entries : ∀ page < 2 ^ 32, page % pageSize = 0 → entry .ilp32 mm.pgindex after page =
    if page ∈ starts then 0 else entry .ilp32 mm.pgindex before page

/-- The areas and the page table fit together before and after, so leaving out a run of areas is
leaving out their pages. -/
theorem Laid.removed {mm : Mm} {front piece back : List Vma} {before after : Kernel}
    (whole : Laid { mm with areas := front ++ (piece ++ back) } before)
    (left : Laid { mm with areas := front ++ back } after) :
    Removed (piece.map Vma.start) { mm with areas := front ++ (piece ++ back) }
      { mm with areas := front ++ back } before after := by
  have distinct := whole.starts
  rw [map_append, map_append, nodup_append, nodup_append] at distinct
  obtain ⟨-, ⟨-, -, behind⟩, before⟩ := distinct
  have outside : ∀ vma ∈ front ++ back, vma.start ∉ piece.map Vma.start := by
    intro vma member inPiece
    rcases mem_append.mp member with inFront | inBack
    · exact before _ (mem_map_of_mem inFront) _ (mem_append_left _ inPiece) rfl
    · exact behind _ inPiece _ (mem_map_of_mem inBack) rfl
  have same : ∀ vma ∈ front ++ back, vma ∈ front ++ (piece ++ back) := by
    intro vma member
    rcases mem_append.mp member with inFront | inBack
    · exact mem_append_left _ inFront
    · exact mem_append_right _ (mem_append_right _ inBack)
  refine ⟨fun start member => ?_, ?_, fun page inside aligned => ?_⟩
  · obtain ⟨vma, inPiece, rfl⟩ := mem_map.mp member
    exact ⟨vma, mem_append_right _ (mem_append_left _ inPiece), rfl⟩
  · have kept : ∀ areas : List Vma, (∀ vma ∈ areas, vma ∈ front ++ back) →
        areas.filter (fun vma => vma.start ∉ piece.map Vma.start) = areas := fun areas member =>
      filter_eq_self.mpr fun vma inside => decide_eq_true (outside vma (member vma inside))
    have gone : piece.filter (fun vma => vma.start ∉ piece.map Vma.start) = [] :=
      filter_eq_nil_iff.mpr fun vma inPiece => by simpa using ⟨vma, inPiece, rfl⟩
    rw [filter_append, filter_append, gone, nil_append,
      kept front fun _ => mem_append_left _, kept back fun _ => mem_append_right _]
  · split
    · rename_i inPiece
      by_contra nonzero
      obtain ⟨vma, member, rfl⟩ := left.covered page inside aligned nonzero
      exact outside vma member inPiece
    · rename_i notInPiece
      by_cases mapped : ∃ vma ∈ front ++ back, vma.start = page
      · obtain ⟨vma, member, rfl⟩ := mapped
        exact (left.mapped vma member).trans (whole.mapped vma (same vma member)).symm
      · have absent : entry .ilp32 mm.pgindex after page = 0 :=
          by_contra fun nonzero => mapped (left.covered page inside aligned nonzero)
        refine absent.trans (Eq.symm (by_contra fun nonzero => ?_))
        obtain ⟨vma, member, rfl⟩ := whole.covered page inside aligned nonzero
        rcases mem_append.mp member with inFront | later
        · exact mapped ⟨vma, mem_append_left _ inFront, rfl⟩
        rcases mem_append.mp later with inPiece | inBack
        · exact notInPiece (mem_map_of_mem inPiece)
        · exact mapped ⟨vma, mem_append_right _ inBack, rfl⟩

/-! ### Destroying all pieces -/

/-- `destroy_uvm` is called for each piece in turn: every call returns 0 and removes the pages
of its piece, and in the end the list is empty and the page directory has no entry. -/
def DestroysEach (addr : Nat) : List (Nat × Nat) → Mm → World → Prop
  | [], mm, world => mm.areas = [] ∧ ∀ index < 1024, pde mm.pgindex world.kernel index = 0
  | piece :: rest, mm, world => ∀ sentinel, ∃ next after,
      destroyUvm .ilp32 sentinel mm (pageAt addr piece.1) (piece.2 * pageSize) world =
        .ok (0, next, after) ∧
      Removed (pieceStarts addr piece) mm next world.kernel after.kernel ∧
      DestroysEach addr rest next after

/-- What is left of the pieces, in the order of the list, and the areas and tables for them. -/
structure Remaining (addr : Nat) (left : List (Nat × Nat)) (mm : Mm) (world : World) : Prop where
  laid : Laid mm world.kernel
  starts : mm.areas.map Vma.start = left.flatMap (pieceStarts addr)
  aligned : addr % pageSize = 0
  positive : ∀ piece ∈ left, 0 < piece.2

section Run

variable {addr : Nat} {mm : Mm} {world : World}

/-- The areas of one of the remaining pieces lie between those in front of it and those behind
it. -/
theorem Remaining.split {earlier later : List (Nat × Nat)} {piece : Nat × Nat}
    (remaining : Remaining addr (earlier ++ piece :: later) mm world) :
    ∃ front areas back, mm = { mm with areas := front ++ (areas ++ back) } ∧
      areas.map Vma.start = pieceStarts addr piece ∧
      (front ++ back).map Vma.start = (earlier ++ later).flatMap (pieceStarts addr) := by
  have starts := remaining.starts
  rw [flatMap_append, flatMap_cons, map_eq_append_iff] at starts
  obtain ⟨front, rest, whole, frontStarts, restStarts⟩ := starts
  rw [map_eq_append_iff] at restStarts
  obtain ⟨areas, back, rfl, areaStarts, backStarts⟩ := restStarts
  refine ⟨front, areas, back, by rw [← whole], areaStarts, ?_⟩
  rw [map_append, frontStarts, backStarts, flatMap_append]

/-- One call: a piece without the last page of the address space is removed and the others
remain, and for no other piece does the call return. -/
theorem Remaining.destroy {earlier later : List (Nat × Nat)} {piece : Nat × Nat}
    (remaining : Remaining addr (earlier ++ piece :: later) mm world) (sentinel : Sentinel) :
    (Below addr piece →
      ∃ next after, destroyUvm .ilp32 sentinel mm (pageAt addr piece.1) (piece.2 * pageSize) world =
          .ok (0, next, after) ∧
        Removed (pieceStarts addr piece) mm next world.kernel after.kernel ∧
        Remaining addr (earlier ++ later) next after) ∧
    ∀ retcode next after,
      destroyUvm .ilp32 sentinel mm (pageAt addr piece.1) (piece.2 * pageSize) world =
        .ok (retcode, next, after) → Below addr piece := by
  obtain ⟨front, areas, back, whole, starts, others⟩ := remaining.split
  have laid := remaining.laid
  have positive := remaining.positive piece (by simp)
  rw [whole] at laid ⊢
  refine ⟨fun below => ?_, fun retcode next after call =>
    laid.below_of_destroyUvm starts remaining.aligned positive call⟩
  obtain ⟨after, call, left⟩ :=
    laid.destroyUvm_piece starts remaining.aligned positive sentinel below
  refine ⟨_, after, call, starts ▸ laid.removed left, left, others, remaining.aligned, ?_⟩
  intro other member
  refine remaining.positive other ?_
  rcases mem_append.mp member with front | back
  · exact mem_append_left _ front
  · exact mem_append_right _ (mem_cons_of_mem _ back)

/-- The calls for the remaining pieces succeed in every order exactly when none of the pieces has
the last page of the address space. -/
theorem Remaining.destroysEach_iff {pieces left : List (Nat × Nat)}
    (remaining : Remaining addr left mm world) (order : pieces.Perm left) :
    DestroysEach addr pieces mm world ↔ ∀ piece ∈ left, Below addr piece := by
  induction pieces generalizing left mm world with
  | nil =>
    obtain rfl := nil_perm.mp order
    have none : mm.areas = [] := map_eq_nil_iff.mp remaining.starts
    exact ⟨fun _ _ member => (nomatch member), fun _ => ⟨none, remaining.laid.no_tables none⟩⟩
  | cons piece rest inductionHypothesis =>
    obtain ⟨earlier, later, rfl⟩ := append_of_mem (order.subset mem_cons_self)
    have others : rest.Perm (earlier ++ later) :=
      (order.trans perm_middle).cons_inv
    have both : (∀ other ∈ earlier ++ piece :: later, Below addr other) ↔
        Below addr piece ∧ ∀ other ∈ earlier ++ later, Below addr other := by
      rw [← forall_mem_cons]
      exact forall_congr' fun other => imp_congr_left perm_middle.mem_iff
    rw [both]
    constructor
    · intro destroys
      obtain ⟨next, after, call, -, destroysRest⟩ := destroys ⟨0, 0⟩
      obtain ⟨removes, returns⟩ := remaining.destroy ⟨0, 0⟩
      have below := returns 0 next after call
      obtain ⟨_, _, again, -, leftOver⟩ := removes below
      cases call.symm.trans again
      exact ⟨below, (inductionHypothesis leftOver others).mp destroysRest⟩
    · rintro ⟨below, restBelow⟩ sentinel
      obtain ⟨next, after, call, removed, leftOver⟩ := (remaining.destroy sentinel).1 below
      exact ⟨next, after, call, removed, (inductionHypothesis leftOver others).mpr restBelow⟩

end Run

/-! ### The range that was created -/

theorem createUvm_remaining {answers : Nat → PageAnswers} {mm made : Mm} {world created : World}
    {len flags : Nat} (table : WellFormed .ilp32 mm.pgindex world.kernel) (none : mm.areas = [])
    (empty : ∀ index < 1024, pde mm.pgindex world.kernel index = 0) (inside : addr < 2 ^ 32)
    (call : createUvm .ilp32 sentinel answers mm addr len flags world = .ok (0, made, created))
    (positive : ∀ pages ∈ sizes, 0 < pages) (parts : sizes.sum * pageSize = len) :
    Remaining addr (cuts 0 sizes) made created := by
  unfold createUvm at call
  split at call
  · cases call
  rename_i accepted
  have aligned : addr % pageSize = 0 := (isAligned_two_pow addr 12).mp (by simp_all [pageSize])
  have kept : KeptByPages mm.pgindex flags answers fun added world =>
      WellFormed .ilp32 mm.pgindex world.kernel ∧ Laid { mm with areas := added } world.kernel := by
    rintro page vcur added world ⟨formed, laid⟩ whole fits
    have asked := (restored_ask mm.pgindex world (answers page)).kernel
    rcases createPage_cases
      (asked.wellFormed formed) (asked.populated laid.populated) whole fits with
      ⟨vma, after, ran, page⟩ | ⟨retcode, after, ran, negative, restored⟩
    · obtain ⟨frames, -, -, -, mapped⟩ := page.mapped
      refine Or.inl ⟨vma, after, ran, page.start, mapped.wellFormed, ?_⟩
      exact ((laid.unchanged asked).created whole fits page).perm
        (perm_append_singleton vma added).symm
    · have same := asked.trans restored.kernel
      exact Or.inr ⟨retcode, after, ran, negative, same.wellFormed formed, laid.unchanged same⟩
  rw [findVmaBefore, if_pos none] at call
  rcases ran : createLoop .ilp32 mm.pgindex flags answers (len / pageSize) 0 addr [] world with
    ⟨retcode, added, last⟩
  have before : WellFormed .ilp32 mm.pgindex world.kernel ∧
      Laid { mm with areas := [] } world.kernel :=
    ⟨table, laid_of_no_tables table.shaped rfl empty⟩
  obtain ⟨-, ⟨-, laid⟩, new, whole, starts, all⟩ :=
    kept.createLoop (len / pageSize) before aligned inside ran
  rw [ran] at call
  simp only at call
  split at call
  swap
  · rename_i failed
    split at call <;> cases call
    exact absurd rfl failed
  rename_i done
  cases call
  rw [nil_append] at whole
  subst whole
  have count : added.length = sizes.sum := by
    rw [all done, ← parts, Nat.mul_div_cancel _ (by decide)]
  refine ⟨by simpa using laid, ?_, aligned, cuts_positive positive⟩
  rw [flatMap_cuts, ← count, ← range_eq_range', ← starts, nil_append, append_nil]

/-- Which ranges do not have the last page of the address space. -/
theorem below_cuts_iff {len : Nat} (aligned : addr % pageSize = 0) (inside : addr < 2 ^ 32)
    (parts : sizes.sum * pageSize = len) :
    (∀ piece ∈ cuts 0 sizes, Below addr piece) ↔ len = 0 ∨ addr + len < 2 ^ 32 := by
  have pages : (∀ piece ∈ cuts 0 sizes, Below addr piece) ↔
      ∀ page < sizes.sum, pageAt addr page + pageSize < 2 ^ 32 := by
    have whole := flatMap_cuts addr 0 sizes
    rw [← range_eq_range'] at whole
    constructor
    · intro below page bound
      have member : pageAt addr page ∈ (cuts 0 sizes).flatMap (pieceStarts addr) := by
        rw [whole]
        exact mem_map_of_mem (mem_range.mpr bound)
      obtain ⟨piece, inCuts, here⟩ := mem_flatMap.mp member
      exact below piece inCuts _ here
    · intro below piece inCuts start here
      have member : start ∈ (cuts 0 sizes).flatMap (pieceStarts addr) :=
        mem_flatMap.mpr ⟨piece, inCuts, here⟩
      rw [whole] at member
      obtain ⟨page, bound, rfl⟩ := mem_map.mp member
      exact below page (mem_range.mp bound)
  rw [pages]
  subst parts
  unfold pageAt pageSize at *
  constructor
  · intro below
    by_contra top
    have last := below ((2 ^ 32 - 4096 - addr) / 4096) (by omega)
    omega
  · intro low page bound
    omega

/-- A range that `create_uvm` has made in an address space without areas can be destroyed piece
by piece in every order exactly when it is empty or ends below the top of the address space. -/
theorem destroy_uvm_pieces_iff {sentinel : Sentinel} {answers : Nat → PageAnswers} {mm made : Mm}
    {world created : World} {addr len flags : Nat} {sizes : List Nat} {pieces : List (Nat × Nat)}
    (table : WellFormed .ilp32 mm.pgindex world.kernel) (none : mm.areas = [])
    (empty : ∀ index < 1024, pde mm.pgindex world.kernel index = 0) (inside : addr < 2 ^ 32)
    (call : createUvm .ilp32 sentinel answers mm addr len flags world = .ok (0, made, created))
    (positive : ∀ pages ∈ sizes, 0 < pages) (parts : sizes.sum * pageSize = len)
    (order : pieces.Perm (cuts 0 sizes)) :
    DestroysEach addr pieces made created ↔ len = 0 ∨ addr + len < 2 ^ 32 := by
  have remaining := createUvm_remaining table none empty inside call positive parts
  rw [remaining.destroysEach_iff order]
  exact below_cuts_iff remaining.aligned inside parts

/-- Answers that grant the objects and pages for the request of `mm_test`. -/
def mmTestAnswers (page : Nat) : PageAnswers :=
  ⟨some (0x3000 + 0x100 * page), some (0x4000 + 0x100 * page), some (0x5000 + 0x2000 * page),
    some (0x6000 + 0x2000 * page)⟩

theorem bootMm_empty : WellFormed .ilp32 bootMm.pgindex (mmNew .ilp32 bootWorld).2.kernel ∧
    ∀ index < 1024, pde bootMm.pgindex (mmNew .ilp32 bootWorld).2.kernel index = 0 := by
  have clean := @bootWorld_clean InLowRam (by decide)
  obtain ⟨none, consistent⟩ := mmNew_consistent clean.frames clean.objs clean.framesStray
    clean.heapStray clean.answers (show mmNew .ilp32 bootWorld = (some bootMm, _) from rfl)
  exact ⟨consistent.table, consistent.laid.no_tables none⟩

/-- The five pages of `mm_test`, cut into two and three as there: the second piece can also be
destroyed first. -/
theorem destroy_uvm_pieces_mm_test : ∃ made created,
    createUvm .ilp32 ⟨0, 0⟩ mmTestAnswers bootMm 0x100000 0x5000 6 (mmNew .ilp32 bootWorld).2 =
      .ok (0, made, created) ∧
    made.areas.map Vma.start = [0x100000, 0x101000, 0x102000, 0x103000, 0x104000] ∧
    DestroysEach 0x100000 [(2, 3), (0, 2)] made created := by
  obtain ⟨made, created, call, starts⟩ : ∃ made created,
      createUvm .ilp32 ⟨0, 0⟩ mmTestAnswers bootMm 0x100000 0x5000 6 (mmNew .ilp32 bootWorld).2 =
        .ok (0, made, created) ∧
      made.areas.map Vma.start = [0x100000, 0x101000, 0x102000, 0x103000, 0x104000] :=
    exists_returned (fun made _ =>
      made.areas.map Vma.start = [0x100000, 0x101000, 0x102000, 0x103000, 0x104000])
      (by decide +kernel)
  obtain ⟨table, empty⟩ := bootMm_empty
  refine ⟨made, created, call, starts, ?_⟩
  exact (@destroy_uvm_pieces_iff _ _ _ _ _ _ _ _ _ [2, 3] _ table rfl empty (by decide) call
    (by decide) rfl (by decide)).mpr (Or.inr (by decide))

/-- The last page of the address space is created, but destroying it fails an assertion. -/
theorem destroy_uvm_last_page : ∃ made created,
    createUvm .ilp32 ⟨0, 0⟩ onePageAnswers bootMm 0xfffff000 0x1000 6 (mmNew .ilp32 bootWorld).2 =
      .ok (0, made, created) ∧
    destroyUvm .ilp32 ⟨0, 0⟩ made 0xfffff000 0x1000 created = .error .panic ∧
    ¬ DestroysEach 0xfffff000 [(0, 1)] made created := by
  obtain ⟨made, created, call, fails⟩ : ∃ made created,
      createUvm .ilp32 ⟨0, 0⟩ onePageAnswers bootMm 0xfffff000 0x1000 6 (mmNew .ilp32 bootWorld).2 =
        .ok (0, made, created) ∧
      trapOf (destroyUvm .ilp32 ⟨0, 0⟩ made 0xfffff000 0x1000 created) = some .panic :=
    exists_returned (fun made created =>
      trapOf (destroyUvm .ilp32 ⟨0, 0⟩ made 0xfffff000 0x1000 created) = some .panic)
      (by decide +kernel)
  have panics := error_of_trapOf fails
  refine ⟨made, created, call, panics, fun destroys => ?_⟩
  obtain ⟨next, after, returned, -⟩ := destroys ⟨0, 0⟩
  cases panics.symm.trans returned

end AIMv6
