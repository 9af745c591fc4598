/-
This file is a small library of half-open byte ranges. A region is a base and
a size; a list of regions covers a set of bytes; a list is *spread* when it is
ascending and consecutive regions leave a gap. The facts proved here are the
ones an interval allocator needs: when two regions are disjoint, and what
cutting the front off a region and fusing two touching regions do to the set
covered and to the total size.
-/

import Mathlib.Tactic
import Mathlib.Order.CompletePartialOrder
import Mathlib.Order.Interval.Set.Disjoint

namespace AIMv6

/-- A half-open range of byte addresses. -/
structure Region where
  base : Nat
  size : Nat
  deriving DecidableEq, Repr

variable {region : Region} {regions : List Region}

namespace Region

/-- The first address after the region. -/
def limit (region : Region) : Nat := region.base + region.size

/-- The addresses of the region. -/
def bytes (region : Region) : Set Nat := Set.Ico region.base region.limit

theorem mem_bytes {address : Nat} :
    address ∈ region.bytes ↔ region.base ≤ address ∧ address < region.base + region.size :=
  Iff.rfl

theorem base_mem (nonempty : 0 < region.size) : region.base ∈ region.bytes :=
  mem_bytes.mpr ⟨le_rfl, Nat.lt_add_of_pos_right nonempty⟩

theorem disjoint_iff {first second : Region} (firstSize : 0 < first.size)
    (secondSize : 0 < second.size) :
    Disjoint first.bytes second.bytes ↔ first.limit ≤ second.base ∨ second.limit ≤ first.base := by
  rw [bytes, bytes, Set.Ico_disjoint_Ico]
  unfold limit
  omega

theorem disjoint_of_limit_le {first second : Region} (before : first.limit ≤ second.base) :
    Disjoint first.bytes second.bytes := by
  rw [bytes, bytes, Set.Ico_disjoint_Ico]
  omega

theorem bytes_cut (base size front : Nat) (fits : front ≤ size) :
    (⟨base, size⟩ : Region).bytes =
      (⟨base, front⟩ : Region).bytes ∪ (⟨base + front, size - front⟩ : Region).bytes := by
  ext address
  simp only [Set.mem_union, mem_bytes]
  omega

theorem bytes_fuse (base first second : Nat) :
    (⟨base, first + second⟩ : Region).bytes =
      (⟨base, first⟩ : Region).bytes ∪ (⟨base + first, second⟩ : Region).bytes := by
  ext address
  simp only [Set.mem_union, mem_bytes]
  omega

end Region

/-! ### Lists of regions -/

/-- The bytes of a list of regions. -/
def covered (regions : List Region) : Set Nat :=
  {address | ∃ region ∈ regions, address ∈ region.bytes}

/-- The sum of the sizes of a list of regions. -/
def totalSize (regions : List Region) : Nat := (regions.map Region.size).sum

/-- Ascending, with a gap between any two regions. -/
def Spread (regions : List Region) : Prop :=
  regions.Pairwise fun first second => first.limit < second.base

@[simp] theorem covered_nil : covered [] = ∅ := by
  ext address
  simp [covered]

@[simp] theorem covered_cons (region : Region) (rest : List Region) :
    covered (region :: rest) = region.bytes ∪ covered rest := by
  ext address
  simp [covered]

@[simp] theorem covered_append (first second : List Region) :
    covered (first ++ second) = covered first ∪ covered second := by
  ext address
  simp only [covered, List.mem_append, Set.mem_union, Set.mem_ofPred_eq, or_and_right, exists_or]

@[simp] theorem totalSize_nil : totalSize [] = 0 := rfl

@[simp] theorem totalSize_cons (region : Region) (rest : List Region) :
    totalSize (region :: rest) = region.size + totalSize rest := by
  simp [totalSize]

@[simp] theorem totalSize_append (first second : List Region) :
    totalSize (first ++ second) = totalSize first + totalSize second := by
  simp [totalSize]

theorem bytes_subset_covered (member : region ∈ regions) : region.bytes ⊆ covered regions :=
  fun _ inside => ⟨region, member, inside⟩

theorem disjoint_covered :
    Disjoint region.bytes (covered regions) ↔
      ∀ other ∈ regions, Disjoint region.bytes other.bytes := by
  constructor
  · intro disjoint other member
    exact disjoint.mono_right (bytes_subset_covered member)
  · intro each
    rw [Set.disjoint_left]
    rintro address inside ⟨other, member, covers⟩
    exact Set.disjoint_left.mp (each other member) inside covers

theorem covered_perm {first second : List Region} (perm : first.Perm second) :
    covered first = covered second := by
  ext address
  simp only [covered, Set.mem_ofPred_eq, perm.mem_iff]

end AIMv6
