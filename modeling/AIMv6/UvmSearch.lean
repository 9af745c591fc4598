/-
This file settles when the search of `create_uvm` for the place of a new area is exact.

`__find_vma_before` stops at the first area that starts at the end of the request or above, and
compares the request with the start of the area in front of that place and the size of the area
behind it. Whether the request overlaps depends on the area in front alone, on its start and its
size. So the answer is right when the address lies on the same side of the two sums. At either end
of the list one of the two areas is the list head, and the sum has a summand read from memory that
is no area. A request that ends at the top of the address space stops the search at once.
-/

import AIMv6.UvmRuns

namespace AIMv6

open List Option

/-- The areas lie in the address space in ascending order, and none reaches into the next. -/
structure AscendingAreas (abi : Abi) (areas : List Vma) : Prop where
  inside : ∀ vma ∈ areas, vma.start < abi.modulus ∧ vma.start + vma.size ≤ abi.modulus
  order : areas.Pairwise fun first second =>
    first.start < second.start ∧ first.start + first.size ≤ second.start

/-- An area and a request overlap: neither ends where the other begins or before. -/
def Vma.Overlaps (vma : Vma) (addr size : Nat) : Prop :=
  vma.start < addr + size ∧ addr < vma.start + vma.size

/-- The answer of the search is right. It is `none` exactly when the request overlaps an area, and
otherwise every area up to the entry ends before the request, and every area behind it begins
after the request. -/
structure ExactPlace (areas : List Vma) (addr size : Nat) (answer : Option (List Vma × List Vma)) :
    Prop where
  none_iff : answer = none ↔ ∃ vma ∈ areas, vma.Overlaps addr size
  place : ∀ below above, answer = some (below, above) → areas = below ++ above ∧
    (∀ vma ∈ below, vma.start + vma.size ≤ addr) ∧ ∀ vma ∈ above, addr + size ≤ vma.start

/-- The sum that the search compares with the address of the request. -/
def comparedEnd (abi : Abi) (sentinel : Sentinel) (areas : List Vma) (bound : Nat) : Nat :=
  ((((areas.takeWhile fun vma => vma.start < bound).getLast?.map Vma.start).getD sentinel.start) +
    (((areas.dropWhile fun vma => vma.start < bound).head?.map Vma.size).getD sentinel.size)) %
    abi.modulus

/-- Where the last area that starts below a bound ends; zero when there is none. -/
def lastEnd (areas : List Vma) (bound : Nat) : Nat :=
  ((areas.takeWhile fun vma => vma.start < bound).getLast?.map fun vma =>
    vma.start + vma.size).getD 0

section Search

variable {abi : Abi} {sentinel : Sentinel} {areas : List Vma} {addr size : Nat}

theorem findVmaBefore_eq (some : areas ≠ []) :
    findVmaBefore abi sentinel areas addr size =
      if addr < comparedEnd abi sentinel areas ((addr + size) % abi.modulus) then none
      else .some (areas.takeWhile fun vma => vma.start < (addr + size) % abi.modulus,
        areas.dropWhile fun vma => vma.start < (addr + size) % abi.modulus) :=
  if_neg some

theorem mem_takeWhile_of_lt (ascending : AscendingAreas abi areas) {vma : Vma} {bound : Nat}
    (member : vma ∈ areas) (early : vma.start < bound) :
    vma ∈ areas.takeWhile fun vma => vma.start < bound := by
  rw [← @takeWhile_append_dropWhile _ (fun vma : Vma => vma.start < bound) areas,
    mem_append] at member
  refine member.resolve_right fun late => ?_
  have reached := le_of_mem_dropWhile (ascending.order.imp And.left) late
  omega

/-- A request overlaps an area exactly when it overlaps the last one that starts below its end. -/
theorem overlaps_iff (ascending : AscendingAreas abi areas) :
    (∃ vma ∈ areas, vma.Overlaps addr size) ↔ addr < lastEnd areas (addr + size) := by
  unfold lastEnd
  constructor
  · rintro ⟨vma, member, early, late⟩
    have inFront := mem_takeWhile_of_lt ascending member early
    have order := ascending.order.sublist
      (takeWhile_sublist fun vma : Vma => vma.start < addr + size)
    generalize areas.takeWhile (fun vma => vma.start < addr + size) = front at inFront order
    rcases eq_nil_or_concat front with rfl | ⟨others, last, rfl⟩
    · cases inFront
    · rw [concat_eq_append] at inFront order
      rw [concat_eq_append, List.getLast?_concat, map_some, getD_some]
      rcases mem_append.mp inFront with other | same
      · have before := ((pairwise_append.mp order).2.2 vma other last (mem_singleton_self last)).2
        omega
      · rwa [← mem_singleton.mp same]
  · intro reaches
    cases last : (areas.takeWhile fun vma => vma.start < addr + size).getLast? with
    | none =>
      rw [last] at reaches
      exact absurd reaches (Nat.not_lt_zero _)
    | some vma =>
      rw [last, map_some, getD_some] at reaches
      have member := mem_of_getLast? last
      exact ⟨vma, (takeWhile_sublist _).subset member,
        by simpa using mem_takeWhile_imp member, reaches⟩

/-- The search is exact for a request exactly when the list is empty, or the sum it compares with
and the end of the last area below the request both lie above the address of the request, or both
do not and the request ends below the top of the address space. -/
theorem search_exact_iff (ascending : AscendingAreas abi areas) (fits : addr + size ≤ abi.modulus) :
    ExactPlace areas addr size (findVmaBefore abi sentinel areas addr size) ↔
      areas = [] ∨
      (addr < comparedEnd abi sentinel areas ((addr + size) % abi.modulus) ∧
        addr < lastEnd areas (addr + size)) ∨
      (comparedEnd abi sentinel areas ((addr + size) % abi.modulus) ≤ addr ∧
        lastEnd areas (addr + size) ≤ addr ∧ addr + size < abi.modulus) := by
  have overlaps := @overlaps_iff _ _ addr size ascending
  by_cases empty : areas = []
  · subst empty
    refine iff_of_true ⟨iff_of_false nofun nofun, ?_⟩ (Or.inl rfl)
    intro below above same
    cases same
    exact ⟨rfl, nofun, nofun⟩
  rw [findVmaBefore_eq empty, or_iff_right empty]
  by_cases rejects : addr < comparedEnd abi sentinel areas ((addr + size) % abi.modulus)
  · rw [if_pos rejects]
    constructor
    · intro exact
      exact Or.inl ⟨rejects, overlaps.mp (exact.none_iff.mp rfl)⟩
    · rintro (⟨-, reaches⟩ | ⟨passes, -⟩)
      · exact ⟨iff_of_true rfl (overlaps.mpr reaches), nofun⟩
      · omega
  · rw [if_neg rejects]
    constructor
    · intro exact
      have free : ¬ addr < lastEnd areas (addr + size) :=
        fun reaches => nomatch exact.none_iff.mpr (overlaps.mpr reaches)
      refine Or.inr ⟨by omega, by omega, lt_of_le_of_ne fits fun top => ?_⟩
      -- the bound is zero, so the answer is the head, but the first area lies below the request
      obtain ⟨-, -, late⟩ := exact.place _ _ rfl
      obtain ⟨first, rest, rfl⟩ := exists_cons_of_ne_nil empty
      have start := (ascending.inside first List.mem_cons_self).1
      have behind := late first (by
        rw [top, Nat.mod_self]
        exact mem_cons_self)
      omega
    · rintro (⟨reaches, -⟩ | ⟨-, free, below⟩)
      · exact absurd reaches rejects
      · have none : ¬ ∃ vma ∈ areas, vma.Overlaps addr size := fun some => by
          have reaches := overlaps.mp some
          omega
        rw [Nat.mod_eq_of_lt below]
        refine ⟨iff_of_false nofun none, ?_⟩
        intro front back same
        obtain ⟨rfl, rfl⟩ := Prod.mk.inj (Option.some.inj same)
        refine ⟨takeWhile_append_dropWhile.symm, fun vma member => ?_, fun vma member =>
          le_of_mem_dropWhile (ascending.order.imp And.left) member⟩
        have early : vma.start < addr + size := by simpa using mem_takeWhile_imp member
        by_contra late
        exact none ⟨vma, (takeWhile_sublist _).subset member, early, by omega⟩

end Search

/-- An area of one page. -/
def pageArea : Vma := ⟨0x3000, 0x100000, pageSize, 6, 0x4000, ⟨0x5000, pageSize, 0, 1⟩⟩

theorem pageArea_ascending : AscendingAreas .ilp32 [pageArea] :=
  ⟨by decide, pairwise_singleton _ _⟩

/-- The search is exact behind an area of one page when the memory before the list head holds the
size of a page as well. -/
theorem search_exact_behind_page :
    ExactPlace [pageArea] 0x200000 0x1000
      (findVmaBefore .ilp32 ⟨0, 0x1000⟩ [pageArea] 0x200000 0x1000) :=
  (search_exact_iff pageArea_ascending (by decide)).mpr (by decide)

/-- A request for the page of the only area is not found to overlap when the memory before the list
head holds a zero. -/
theorem search_misses_overlap :
    AscendingAreas .ilp32 [pageArea] ∧ pageArea.Overlaps 0x100000 0x1000 ∧
      findVmaBefore .ilp32 ⟨0, 0⟩ [pageArea] 0x100000 0x1000 = some ([pageArea], []) :=
  ⟨pageArea_ascending, ⟨by decide, by decide⟩, by decide⟩

end AIMv6
