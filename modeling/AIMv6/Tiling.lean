/-
This file is a small library of tilings: lists of pairwise disjoint regions that together
make up a set of addresses. Cutting a tile in two, fusing two tiles that touch, and taking a
tile in or out with its addresses all lead from a tiling to a tiling. The order of the tiles
does not matter.
-/

import AIMv6.Region

namespace AIMv6

open Region

open List hiding Disjoint Vector
open Set

/-- Disjoint regions that make up a set of addresses. -/
structure Tiling (whole : Set Nat) (tiles : List Region) : Prop where
  apart : tiles.Pairwise fun first second => Disjoint first.bytes second.bytes
  cover : covered tiles = whole

instance : Std.Symm fun first second : Region => Disjoint first.bytes second.bytes :=
  ⟨fun _ _ disjoint => disjoint.symm⟩

variable {base first second : Nat}

namespace Tiling

variable {whole : Set Nat} {tiles others : List Region} {tile : Region}

theorem nil : Tiling ∅ [] := ⟨List.Pairwise.nil, covered_nil⟩

theorem perm (tiling : Tiling whole tiles) (same : tiles.Perm others) : Tiling whole others :=
  ⟨(same.pairwise_iff fun disjoint => disjoint.symm).mp tiling.apart,
    (covered_perm same).symm.trans tiling.cover⟩

theorem cons_iff :
    Tiling whole (tile :: tiles) ↔ tile.bytes ⊆ whole ∧ Tiling (whole \ tile.bytes) tiles := by
  constructor
  · rintro ⟨apart, cover⟩
    obtain ⟨first, rest⟩ := pairwise_cons.mp apart
    have disjoint : Disjoint tile.bytes (covered tiles) := disjoint_covered.mpr first
    rw [covered_cons] at cover
    refine ⟨cover ▸ subset_union_left, rest, ?_⟩
    rw [← cover, union_sdiff_left, disjoint.symm.sdiff_eq_left]
  · rintro ⟨inside, apart, cover⟩
    have disjoint : Disjoint tile.bytes (covered tiles) := by
      rw [cover]
      exact disjoint_sdiff_right
    refine ⟨pairwise_cons.mpr ⟨disjoint_covered.mp disjoint, apart⟩, ?_⟩
    rw [covered_cons, cover, union_sdiff_cancel inside]

theorem subset (tiling : Tiling whole tiles) (member : tile ∈ tiles) : tile.bytes ⊆ whole :=
  tiling.cover ▸ bytes_subset_covered member

theorem add (tiling : Tiling whole tiles) (fresh : Disjoint tile.bytes whole) :
    Tiling (tile.bytes ∪ whole) (tile :: tiles) := by
  refine cons_iff.mpr ⟨subset_union_left, ?_⟩
  rwa [union_sdiff_left, fresh.symm.sdiff_eq_left]

theorem cut_iff :
    Tiling whole (⟨base, first + second⟩ :: tiles) ↔
      Tiling whole (⟨base, first⟩ :: ⟨base + first, second⟩ :: tiles) := by
  have touch : Disjoint (⟨base, first⟩ : Region).bytes (⟨base + first, second⟩ : Region).bytes :=
    disjoint_of_limit_le le_rfl
  rw [cons_iff, cons_iff, cons_iff, bytes_fuse, union_subset_iff, subset_sdiff, ← Set.sdiff_sdiff]
  constructor
  · rintro ⟨⟨inFirst, inSecond⟩, rest⟩
    exact ⟨inFirst, ⟨inSecond, touch.symm⟩, rest⟩
  · rintro ⟨inFirst, ⟨inSecond, -⟩, rest⟩
    exact ⟨⟨inFirst, inSecond⟩, rest⟩

theorem empty_iff : Tiling whole (⟨base, 0⟩ :: tiles) ↔ Tiling whole tiles := by
  have none : (⟨base, 0⟩ : Region).bytes = ∅ := by
    rw [Region.bytes, Region.limit, add_zero, Set.Ico_self]
  rw [cons_iff, none, sdiff_empty]
  exact and_iff_right (empty_subset whole)

end Tiling

/-! ### Lists in order -/

/-- Each region ends before the next begins, or where it begins. -/
def Ascending (regions : List Region) : Prop :=
  regions.Pairwise fun first second => first.limit ≤ second.base

namespace Ascending

variable {front back : List Region} {region : Region}

/-- Put regions that lie inside a region of the list in its place. -/
theorem replace (ascending : Ascending (front ++ region :: back)) {parts : List Region}
    (ordered : Ascending parts)
    (inside : ∀ part ∈ parts, region.base ≤ part.base ∧ part.limit ≤ region.limit) :
    Ascending (front ++ parts ++ back) := by
  obtain ⟨frontOrder, backOrder, across⟩ := pairwise_append.mp ascending
  obtain ⟨above, later⟩ := pairwise_cons.mp backOrder
  refine pairwise_append.mpr ⟨pairwise_append.mpr ⟨frontOrder, ordered,
    fun first firstMember part partMember => ?_⟩, later,
      fun first firstMember second secondMember => ?_⟩
  · exact (across first firstMember region mem_cons_self).trans (inside part partMember).1
  · rcases mem_append.mp firstMember with old | part
    · exact across first old second (mem_cons_of_mem _ secondMember)
    · exact (inside first part).2.trans (above second secondMember)

theorem fuse (ascending : Ascending (front ++ ⟨base, first⟩ :: ⟨base + first, second⟩ :: back)) :
    Ascending (front ++ ⟨base, first + second⟩ :: back) := by
  obtain ⟨frontOrder, backOrder, across⟩ := pairwise_append.mp ascending
  obtain ⟨-, rest⟩ := pairwise_cons.mp backOrder
  obtain ⟨above, later⟩ := pairwise_cons.mp rest
  refine pairwise_append.mpr ⟨frontOrder, pairwise_cons.mpr ⟨fun region member => ?_, later⟩,
    fun region member other otherMember => ?_⟩
  · have order : base + first + second ≤ region.base := above region member
    show base + (first + second) ≤ region.base
    omega
  · rcases mem_cons.mp otherMember with rfl | behind
    · exact across region member ⟨base, first⟩ mem_cons_self
    · exact across region member other (mem_cons_of_mem _ (mem_cons_of_mem _ behind))

/-- Insert a region that is disjoint from the others at its place. -/
theorem insert (ascending : Ascending (front ++ back))
      (nonempty : ∀ other ∈ region :: (front ++ back), 0 < other.size)
    (disjoint : ∀ other ∈ front ++ back, Disjoint region.bytes other.bytes)
    (frontBelow : ∀ other ∈ front, other.base < region.base)
    (backAbove : ∀ other ∈ back.head?, region.base ≤ other.base) :
    Ascending (front ++ region :: back) := by
  obtain ⟨frontOrder, backOrder, across⟩ := pairwise_append.mp ascending
  have apart : ∀ other ∈ front ++ back, region.limit ≤ other.base ∨ other.limit ≤ region.base :=
    fun other member => (disjoint_iff (nonempty region mem_cons_self)
      (nonempty other (mem_cons_of_mem _ member))).mp (disjoint other member)
  have above : ∀ other ∈ back, region.base ≤ other.base := by
    intro other member
    rcases back with _ | ⟨next, rest⟩
    · cases member
    · have bound := backAbove next rfl
      rcases mem_cons.mp member with rfl | later
      · exact bound
      · have order := (pairwise_cons.mp backOrder).1 other later
        unfold Region.limit at order
        omega
  refine pairwise_append.mpr ⟨frontOrder, pairwise_cons.mpr ⟨fun other member => ?_,
    backOrder⟩, fun first firstMember other otherMember => ?_⟩
  · have order := above other member
    have size := nonempty other (mem_cons_of_mem _ (mem_append_right _ member))
    rcases apart other (mem_append_right _ member) with ends | begins
    · exact ends
    · unfold Region.limit at *
      omega
  · rcases mem_cons.mp otherMember with rfl | behind
    · have order := frontBelow first firstMember
      rcases apart first (mem_append_left _ firstMember) with ends | begins
      · unfold Region.limit at *
        omega
      · exact begins
    · exact across first firstMember other behind

end Ascending

/-! ### Gaps -/

/-- Where a region of a list ends and another one begins, the place has a property. -/
def Seams (place : Nat → Prop) (regions : List Region) : Prop :=
  ∀ lower ∈ regions, ∀ upper ∈ regions, lower.limit = upper.base → place upper.base

/-- No region of a list begins where one ends. -/
def Untouching (regions : List Region) : Prop :=
  ∀ first ∈ regions, ∀ second ∈ regions, first.limit ≠ second.base

theorem untouching_iff {regions : List Region} :
    Untouching regions ↔ Seams (fun _ => False) regions := Iff.rfl

/-- A largest region of what some blocks leave of a set of addresses. -/
structure Gap (whole : Set Nat) (blocks : List Region) (gap : Region) : Prop where
  positive : 0 < gap.size
  free : gap.bytes ⊆ whole \ covered blocks
  maximal : ∀ other : Region, gap.bytes ⊆ other.bytes → other.bytes ⊆ whole \ covered blocks →
    other = gap

section Gaps

variable {whole : Set Nat} {free blocks : List Region} {region other : Region}

theorem Ascending.spread (ascending : Ascending free) (untouching : Untouching free) :
    Spread free :=
  ascending.imp_of_mem fun firstMember secondMember order =>
    order.lt_of_ne (untouching _ firstMember _ secondMember)

theorem Region.bytes_subset_iff (positive : 0 < region.size) :
    region.bytes ⊆ other.bytes ↔ other.base ≤ region.base ∧ region.limit ≤ other.limit :=
  Set.Ico_subset_Ico_iff (Nat.lt_add_of_pos_right positive)

/-- A nonempty region inside of untouching tiles lies inside one of them. -/
theorem Tiling.exists_subset (tiling : Tiling whole free) (nonempty : ∀ tile ∈ free, 0 < tile.size)
    (untouching : Untouching free) (positive : 0 < region.size) (inside : region.bytes ⊆ whole) :
    ∃ tile ∈ free, region.bytes ⊆ tile.bytes := by
  have covers : region.bytes ⊆ covered free := tiling.cover ▸ inside
  obtain ⟨tile, member, above, below⟩ := covers ⟨le_rfl, Nat.lt_add_of_pos_right positive⟩
  refine ⟨tile, member, (bytes_subset_iff positive).mpr ⟨above, ?_⟩⟩
  by_contra beyond
  obtain ⟨next, nextMember, reached, passed⟩ :=
    covers (⟨below.le, not_le.mp beyond⟩ : tile.limit ∈ region.bytes)
  have different : tile ≠ next := by
    rintro rfl
    exact lt_irrefl _ passed
  have apart := (disjoint_iff (nonempty tile member) (nonempty next nextMember)).mp
    (tiling.apart.forall member nextMember different)
  rcases apart with before | behind
  · exact untouching tile member next nextMember (le_antisymm before reached)
  · have order : next.limit ≤ tile.limit := behind.trans (Nat.le_add_right _ _)
    exact absurd passed (not_lt.mpr order)

theorem Tiling.left (tiling : Tiling whole (free ++ blocks)) :
    Tiling (whole \ covered blocks) free := by
  obtain ⟨apart, -, across⟩ := pairwise_append.mp tiling.apart
  refine ⟨apart, ?_⟩
  have disjoint : Disjoint (covered free) (covered blocks) := by
    rw [Set.disjoint_left]
    rintro address ⟨first, firstMember, inFirst⟩ ⟨second, secondMember, inSecond⟩
    exact disjoint_left.mp (across first firstMember second secondMember) inFirst inSecond
  rw [← tiling.cover, covered_append, union_sdiff_right, disjoint.sdiff_eq_left]

/-- Untouching tiles are the gaps that the other tiles leave. -/
theorem Tiling.mem_iff_gap (tiling : Tiling whole (free ++ blocks))
    (nonempty : ∀ tile ∈ free, 0 < tile.size) (untouching : Untouching free) :
    region ∈ free ↔ Gap whole blocks region := by
  have left := tiling.left
  constructor
  · intro member
    have positive := nonempty region member
    refine ⟨positive, left.subset member, fun other larger inside => ?_⟩
    have lower := (bytes_subset_iff positive).mp larger
    have otherPositive : 0 < other.size := by
      unfold Region.limit at lower
      omega
    obtain ⟨tile, tileMember, within⟩ := left.exists_subset nonempty untouching otherPositive inside
    have same : tile = region := by
      by_contra different
      exact Set.disjoint_left.mp (left.apart.forall tileMember member different)
        (within (larger ⟨le_rfl, Nat.lt_add_of_pos_right positive⟩))
        ⟨le_rfl, Nat.lt_add_of_pos_right positive⟩
    rw [same, bytes_subset_iff otherPositive] at within
    obtain ⟨base, size⟩ := other
    obtain ⟨regionBase, regionSize⟩ := region
    unfold Region.limit at lower within
    simp only [Region.mk.injEq] at *
    omega
  · intro gap
    obtain ⟨tile, member, within⟩ :=
      left.exists_subset nonempty untouching gap.positive gap.free
    rw [← gap.maximal tile within (left.subset member)]
    exact member

theorem Tiling.eq_singleton (tiling : Tiling region.bytes free) (positive : 0 < region.size)
    (nonempty : ∀ tile ∈ free, 0 < tile.size) (untouching : Untouching free) : free = [region] := by
  have alone : ∀ tile ∈ free, tile = region := by
    intro tile member
    have gap := (@Tiling.mem_iff_gap _ _ [] _ (by simpa using tiling) nonempty untouching).mp member
    exact (gap.maximal region (tiling.subset member) (by simp)).symm
  obtain ⟨first, member, -⟩ := tiling.exists_subset nonempty untouching positive subset_rfl
  rcases free with _ | ⟨tile, rest⟩
  · cases member
  rw [alone tile mem_cons_self]
  refine congrArg _ (eq_nil_iff_forall_not_mem.mpr fun second later => ?_)
  have disjoint := (pairwise_cons.mp tiling.apart).1 second later
  rw [alone tile mem_cons_self, alone second (mem_cons_of_mem _ later)] at disjoint
  exact Set.disjoint_left.mp disjoint ⟨le_rfl, Nat.lt_add_of_pos_right positive⟩
    ⟨le_rfl, Nat.lt_add_of_pos_right positive⟩

/-! ### Spread lists -/

theorem Spread.untouching (spread : Spread free) (nonempty : ∀ tile ∈ free, 0 < tile.size) :
    Untouching free := by
  induction free with
  | nil => exact nofun
  | cons tile rest inductionHypothesis =>
    obtain ⟨below, later⟩ := pairwise_cons.mp spread
    obtain ⟨positive, positiveRest⟩ := forall_mem_cons.mp nonempty
    have inRest := inductionHypothesis later positiveRest
    intro first firstMember second secondMember
    rcases mem_cons.mp firstMember with rfl | firstLater
    · rcases mem_cons.mp secondMember with rfl | secondLater
      · exact (Nat.lt_add_of_pos_right positive).ne'
      · exact (below second secondLater).ne
    · rcases mem_cons.mp secondMember with rfl | secondLater
      · have order := below first firstLater
        unfold Region.limit at *
        omega
      · exact inRest first firstLater second secondLater

theorem Spread.tiling (spread : Spread free) : Tiling (covered free) free :=
  ⟨spread.imp fun order => disjoint_of_limit_le order.le, rfl⟩

/-- A spread list of nonempty regions is determined by what it covers. -/
theorem Spread.eq_of_covered (spread : Spread free) (nonempty : ∀ tile ∈ free, 0 < tile.size)
    {others : List Region} (spreadOthers : Spread others)
    (nonemptyOthers : ∀ tile ∈ others, 0 < tile.size) (same : covered free = covered others) :
    free = others := by
  have antisymmetric : Std.Antisymm fun first second : Region => first.limit < second.base :=
    ⟨fun first second order back => by unfold Region.limit at *; omega⟩
  have irreflexive : Std.Irrefl fun first second : Region => first.limit < second.base :=
    ⟨fun region order => by unfold Region.limit at *; omega⟩
  have tiling : Tiling (covered free) (free ++ []) := by
    rw [append_nil]
    exact spread.tiling
  have tilingOthers : Tiling (covered free) (others ++ []) := by
    rw [append_nil, same]
    exact spreadOthers.tiling
  refine List.Pairwise.eq_of_mem_iff spread spreadOthers fun region => ?_
  rw [tiling.mem_iff_gap nonempty (spread.untouching nonempty),
    tilingOthers.mem_iff_gap nonemptyOthers (spreadOthers.untouching nonemptyOthers)]

end Gaps

end AIMv6
