/-
This file says what the calls of the caching allocator can do, for any cache whatever its bitmaps
hold: where the objects lie that `cache_alloc` returns, which slab `cache_free` looks at and on
which list it leaves it, and that neither call moves a slab.
-/

import AIMv6.SlabRuns

namespace AIMv6

open List

namespace Cache

open Usage

variable {abi : Abi} {cache after : Cache} {obj : Nat}

/-! ### Where the slabs and the objects lie -/

variable {slab : Slab}

theorem mem_slabs :
    slab ∈ cache.slabs ↔
      slab ∈ cache.emptySlabs ∨ slab ∈ cache.partialSlabs ∨ slab ∈ cache.fullSlabs := by
  rw [slabs, mem_append, mem_append, or_assoc]

/-- An address at which a slab of the cache starts. -/
def IsBase (cache : Cache) (base : Nat) : Prop := ∃ slab ∈ cache.slabs, slab.vaddr = base

/-- An allocation from a slab returns one of its slots, and no slab moves. -/
theorem allocFrom_place {rest : Cache} (call : allocFrom abi rest slab = some (obj, after)) :
    (∃ index, obj = (slab.vaddr + index * rest.size) % abi.modulus) ∧ after.size = rest.size ∧
      ∀ base, after.IsBase base → base = slab.vaddr ∨ rest.IsBase base := by
  unfold allocFrom at call
  split at call
  · cases call
  rename_i i j stop
  have origin : ∀ other ∈ after.slabs, other = slab.setBit i j ∨ other ∈ rest.slabs := by
    intro other member
    dsimp only at call
    split at call
    · cases call
      simp only [mem_slabs, mem_cons] at member ⊢
      tauto
    · cases call
      simp only [mem_slabs, mem_cons] at member ⊢
      tauto
  refine ⟨⟨i * 8 + j, ?_⟩, ?_, ?_⟩
  · dsimp only at call
    split at call <;> cases call <;> rfl
  · dsimp only at call
    split at call <;> cases call <;> rfl
  · rintro base ⟨other, member, rfl⟩
    rcases origin other member with rfl | old
    · exact Or.inl rfl
    · exact Or.inr ⟨other, old, rfl⟩

/-- An object from a slab that the cache has, whatever is granted. -/
theorem allocFrom_own {rest : Cache} (call : allocFrom abi rest slab = some (obj, after))
    (own : slab ∈ cache.slabs) (sameSize : rest.size = cache.size)
    (others : ∀ other ∈ rest.slabs, other ∈ cache.slabs) (grant : Option Nat) :
    after.size = cache.size ∧ (∀ base, after.IsBase base → cache.IsBase base ∨ grant = some base) ∧
      ∀ other, some obj = some other → ∃ base index, (cache.IsBase base ∨ grant = some base) ∧
        other = (base + index * cache.size) % abi.modulus := by
  obtain ⟨⟨index, place⟩, kept, bases⟩ := allocFrom_place call
  refine ⟨kept.trans sameSize, fun base isBase => Or.inl ?_, ?_⟩
  · rcases bases base isBase with rfl | ⟨other, member, rfl⟩
    · exact ⟨slab, own, rfl⟩
    · exact ⟨other, others other member, rfl⟩
  · rintro _ ⟨⟩
    exact ⟨slab.vaddr, index, Or.inl ⟨slab, own, rfl⟩, sameSize ▸ place⟩

/-- An object that `cache_alloc` returns lies a number of object sizes above the start of a slab,
one the cache had or the one just granted. -/
theorem alloc_place {supply : Supply} {result : Option Nat × Cache × List Nat}
    (call : cache.alloc abi supply = some result) :
    result.2.1.size = cache.size ∧
      (∀ base, result.2.1.IsBase base → cache.IsBase base ∨ supply.grant = some base) ∧
      ∀ obj, result.1 = some obj → ∃ base index, (cache.IsBase base ∨ supply.grant = some base) ∧
        obj = (base + index * cache.size) % abi.modulus := by
  rcases alloc_cases call with ⟨slab, rest, obj, after, front, taken, rfl⟩ |
    ⟨slab, rest, obj, after, front, taken, rfl⟩ | rfl |
    ⟨vaddr, obj, after, made, noneEmpty, granted, taken, rfl⟩
  · have own : slab ∈ cache.slabs := mem_slabs.mpr (Or.inr (Or.inl (front ▸ mem_cons_self)))
    refine allocFrom_own taken own rfl (fun other member => ?_) supply.grant
    simp only [mem_slabs, front, mem_cons] at member ⊢
    tauto
  · have own : slab ∈ cache.slabs := mem_slabs.mpr (Or.inl (front ▸ mem_cons_self))
    refine allocFrom_own taken own rfl (fun other member => ?_) supply.grant
    simp only [mem_slabs, front, mem_cons] at member ⊢
    tauto
  · exact ⟨rfl, fun base isBase => Or.inl isBase, nofun⟩
  · obtain ⟨⟨index, place⟩, sizeSame, bases⟩ := allocFrom_place taken
    refine ⟨sizeSame, fun base isBase => ?_, ?_⟩
    · rcases bases base isBase with rfl | old
      · exact Or.inr granted
      · exact Or.inl old
    · rintro _ ⟨⟩
      exact ⟨vaddr, index, Or.inr granted, place⟩

/-! ### What `cache_free` does -/

theorem free_of_full {before rest : List Slab}
    (found : findSlab abi cache.slabSize obj cache.fullSlabs = some (before, slab, rest)) :
    cache.free abi obj = (0, if (cache.release slab obj).isEmpty then
        { cache with
          fullSlabs := before ++ rest, emptySlabs := cache.release slab obj :: cache.emptySlabs }
      else if before.isEmpty then
        { cache with
          fullSlabs := rest, partialSlabs := cache.release slab obj :: cache.partialSlabs }
      else { cache with fullSlabs := before ++ cache.release slab obj :: rest }) := by
  unfold Cache.free
  rw [found]
  dsimp only
  split
  · rfl
  · split <;> rfl

theorem free_of_partlyUsed {before rest : List Slab}
    (notFull : findSlab abi cache.slabSize obj cache.fullSlabs = none)
    (found : findSlab abi cache.slabSize obj cache.partialSlabs = some (before, slab, rest)) :
    cache.free abi obj = (0, if (cache.release slab obj).isEmpty then
        { cache with
          partialSlabs := before ++ rest, emptySlabs := cache.release slab obj :: cache.emptySlabs }
      else { cache with partialSlabs := before ++ cache.release slab obj :: rest }) := by
  unfold Cache.free
  rw [notFull, found]
  dsimp only
  split <;> rfl

theorem free_of_none (notFull : findSlab abi cache.slabSize obj cache.fullSlabs = none)
    (notPartial : findSlab abi cache.slabSize obj cache.partialSlabs = none) :
    cache.free abi obj = (-1, cache) := by
  unfold Cache.free
  rw [notFull, notPartial]

/-- What `cache_free` does: nothing, or release the object in one of the slabs. -/
theorem free_shape (abi : Abi) (cache : Cache) (obj : Nat) :
    cache.free abi obj = (-1, cache) ∨
      ∃ slab ∈ cache.slabs, (cache.free abi obj).1 = 0 ∧ (cache.free abi obj).2.size = cache.size ∧
        (cache.free abi obj).2.slabSize = cache.slabSize ∧
        ∀ other ∈ (cache.free abi obj).2.slabs,
          other = cache.release slab obj ∨ other ∈ cache.slabs := by
  rcases full : findSlab abi cache.slabSize obj cache.fullSlabs with _ | ⟨before, slab, rest⟩
  · rcases part : findSlab abi cache.slabSize obj cache.partialSlabs with _ | ⟨before, slab, rest⟩
    · exact Or.inl (free_of_none full part)
    obtain ⟨place, -, -⟩ := findSlab_some part
    refine Or.inr ⟨slab, by simp [slabs, place], ?_⟩
    rw [free_of_partlyUsed full part]
    generalize cache.release slab obj = released
    split
    all_goals
      refine ⟨rfl, rfl, rfl, fun other member => ?_⟩
      simp only [slabs, place, mem_append, mem_cons] at member ⊢
      tauto
  · obtain ⟨place, -, -⟩ := findSlab_some full
    refine Or.inr ⟨slab, by simp [slabs, place], ?_⟩
    rw [free_of_full full]
    generalize cache.release slab obj = released
    split
    · refine ⟨rfl, rfl, rfl, fun other member => ?_⟩
      simp only [slabs, place, mem_append, mem_cons] at member ⊢
      tauto
    split
    all_goals
      refine ⟨rfl, rfl, rfl, fun other member => ?_⟩
      simp only [slabs, place, mem_append, mem_cons] at member ⊢
      tauto

theorem findSlab_isSome {slabSize : Nat} {slabs : List Slab} (member : slab ∈ slabs)
    (inside : slab.vaddr ≤ obj ∧ obj < (slab.vaddr + slabSize) % abi.modulus) :
    ∃ found, findSlab abi slabSize obj slabs = some found := by
  induction slabs with
  | nil => cases member
  | cons head rest inductionHypothesis =>
    by_cases here : head.vaddr ≤ obj ∧ obj < (head.vaddr + slabSize) % abi.modulus
    · exact ⟨_, if_pos here⟩
    · rcases mem_cons.mp member with rfl | later
      · exact absurd inside here
      · obtain ⟨found, equal⟩ := inductionHypothesis later
        rw [findSlab, if_neg here, equal]
        exact ⟨_, rfl⟩

/-- `cache_free` succeeds for an address inside of a slab that is partial or full. -/
theorem free_succeeds (member : slab ∈ cache.partialSlabs ++ cache.fullSlabs)
    (inside : slab.vaddr ≤ obj ∧ obj < (slab.vaddr + cache.slabSize) % abi.modulus) :
    (cache.free abi obj).1 = 0 := by
  rcases full : findSlab abi cache.slabSize obj cache.fullSlabs with _ | ⟨before, home, rest⟩
  · have onPartial : slab ∈ cache.partialSlabs := by
      refine (mem_append.mp member).resolve_right fun onFull => ?_
      obtain ⟨found, equal⟩ := findSlab_isSome onFull inside
      cases full.symm.trans equal
    obtain ⟨⟨before, home, rest⟩, part⟩ := findSlab_isSome onPartial inside
    rw [free_of_partlyUsed full part]
  · rw [free_of_full full]

theorem release_cases (cache : Cache) (slab : Slab) (obj : Nat) :
    cache.release slab obj = slab ∨ ∃ i j, cache.release slab obj = slab.clearBit i j := by
  unfold release
  dsimp only
  split
  · exact Or.inr ⟨_, _, rfl⟩
  · exact Or.inl rfl

theorem release_vaddr (cache : Cache) (slab : Slab) (obj : Nat) :
    (cache.release slab obj).vaddr = slab.vaddr := by
  rcases release_cases cache slab obj with same | ⟨i, j, cleared⟩
  · rw [same]
  · rw [cleared]
    rfl

theorem free_place (abi : Abi) (cache : Cache) (obj : Nat) :
    (cache.free abi obj).2.size = cache.size ∧
      ∀ base, (cache.free abi obj).2.IsBase base → cache.IsBase base := by
  rcases free_shape abi cache obj with failed | ⟨slab, listed, -, sizeSame, -, members⟩
  · rw [failed]
    exact ⟨rfl, fun _ isBase => isBase⟩
  · refine ⟨sizeSame, ?_⟩
    rintro base ⟨other, member, rfl⟩
    rcases members other member with released | old
    · rw [released, release_vaddr]
      exact ⟨slab, listed, rfl⟩
    · exact ⟨other, old, rfl⟩

end Cache

end AIMv6
