/-
This file says where blocks on the free list touch, and which of them hold a whole page.

A block that is cut has the object in front of what is left of it, and a freed block is joined with
the blocks it touches. So after a call blocks touch only where blocks have touched before, or where
new pages end. In the bootstrap allocator no two blocks touch at all. In the other one, blocks
without a whole page that touch at page borders only stay so as long as no page is returned.
-/

import AIMv6.FreeListFree

namespace AIMv6

open List Nat

namespace FreeList

/-- Free blocks without a whole page, that touch at page borders only. -/
structure Trimmed (free : List Region) : Prop where
  pageless : ∀ tile ∈ free, ¬ firstBorder tile < lastBorder tile
  seams : Seams (· % pageSize = 0) free

variable {abi : Abi} {head size need base : Nat} {mem after : Memory} {usage : Usage}
  {object : Object} {free front back : List Region} {block extent region : Region}
  {owned : Set Nat} {place : Nat → Prop}

/-! ### Places where free blocks touch -/

/-- The region a freed block becomes part of touches other free blocks only where free blocks have
touched before. -/
theorem Represents.extent_seams (represents : Represents abi head mem free)
    (seams : Seams place free) (isExtent : Extent abi head mem block extent) :
    (∀ lower ∈ free, lower.limit = extent.base → place extent.base) ∧
      ∀ upper ∈ free, extent.limit = upper.base → place upper.base := by
  constructor
  · intro lower member touch
    rcases isExtent.lower with ⟨listed, -⟩ | ⟨same, apart⟩
    · obtain ⟨tile, isTile, begins⟩ := represents.onFreeList_iff.mp listed
      rw [← begins]
      exact seams lower member tile isTile (touch.trans begins.symm)
    · refine absurd ?_ (apart lower.base (represents.onFreeList_iff.mpr ⟨lower, member, rfl⟩))
      rw [represents.sizes lower member, ← same]
      exact touch
  · intro upper member touch
    rcases isExtent.upper with ⟨listed, ends⟩ | ⟨same, unlisted⟩
    · obtain ⟨tile, isTile, begins⟩ := represents.onFreeList_iff.mp listed
      rw [← begins, represents.sizes tile isTile] at ends
      exact seams tile isTile upper member (ends.symm.trans touch)
    · refine absurd (represents.onFreeList_iff.mpr ⟨upper, member, ?_⟩) unlisted
      rw [← touch, same]

theorem Merged.seams (merged : Merged abi head usage object free after front extent back)
    (represents : Represents abi head usage.mem free) (seams : Seams place free) :
    Seams place (front ++ extent :: back) := by
  obtain ⟨below, above⟩ := represents.extent_seams seams merged.extent
  have parts : ∀ tile ∈ front ++ extent :: back, tile = extent ∨ tile ∈ free := fun tile member =>
    (mem_cons.mp (perm_middle.mem_iff.mp member)).imp_right (merged.old tile)
  intro lower lowerMember upper upperMember touch
  rcases parts lower lowerMember with rfl | lowerOld
  · rcases parts upper upperMember with rfl | upperOld
    · have positive := (merged.placed.tiled.fine upper mem_cons_self).positive
      unfold Region.limit at touch
      omega
    · exact above upper upperOld touch
  · rcases parts upper upperMember with rfl | upperOld
    · exact below lower lowerOld touch
    · exact seams lower lowerOld upper upperOld touch

theorem cutBlock_limit {rest : Region} (member : rest ∈ (cutBlock abi block need).2)
    (fits : need ≤ block.size) :
    rest.limit = block.limit ∧ (cutBlock abi block need).1.limit = rest.base := by
  unfold cutBlock at member ⊢
  split at member
  · rename_i large
    rw [if_pos large, mem_singleton.mp member]
    unfold Region.limit
    dsimp only
    omega
  · cases member

theorem mem_cut {tile : Region} (member : tile ∈ front ++ (cutBlock abi block need).2 ++ back) :
    tile ∈ front ++ back ∨ tile ∈ (cutBlock abi block need).2 := by
  simp only [mem_append] at member ⊢
  tauto

/-- The tiles after a block was handed out. -/
theorem CutFrom.tiled (cutFrom : CutFrom abi head usage owned need size front block back after) :
    Tiled abi head owned ((front ++ (cutBlock abi block need).2 ++ back) ++
      (cutBlock abi block need).1 :: usage.blocks abi) := by
  have tiled := cutFrom.handedOut.invariant.tiled
  rw [Usage.blocks, map_cons, cutFrom.isBlock] at tiled
  rw [← cutFrom.handedOut.same]
  exact tiled

/-- What is left of a block ends where the block has ended, and no free block ends where it begins,
because the object does. -/
theorem CutFrom.seams (cutFrom : CutFrom abi head usage owned need size front block back after)
    (fits : need ≤ block.size) (seams : Seams place (front ++ back))
    (above : ∀ upper ∈ front ++ back, block.limit = upper.base → place upper.base) :
    Seams place (front ++ (cutBlock abi block need).2 ++ back) := by
  intro lower lowerMember upper upperMember touch
  rcases mem_cut upperMember with upperOld | upperRest
  · rcases mem_cut lowerMember with lowerOld | lowerRest
    · exact seams lower lowerOld upper upperOld touch
    · exact above upper upperOld ((cutBlock_limit lowerRest fits).1 ▸ touch)
  · have tiled := cutFrom.tiled
    have lowerPositive := (tiled.fine lower (mem_append_left _ lowerMember)).positive
    have positive := (tiled.fine _ (mem_append_right _ mem_cons_self)).positive
    have limit := touch.trans (cutBlock_limit upperRest fits).2.symm
    have ordered := (Region.disjoint_iff lowerPositive positive).mp
      ((pairwise_append.mp tiled.tiling.apart).2.2 lower lowerMember _ mem_cons_self)
    unfold Region.limit at *
    omega

/-! ### Regions without a whole page -/

theorem pageless_iff : ¬ firstBorder region < lastBorder region ↔
    ∀ page, page % pageSize = 0 → region.base ≤ page → region.limit < page + pageSize := by
  unfold firstBorder lastBorder pageSize
  constructor
  · intro pageless page border above
    omega
  · intro pages whole
    have limit := pages ((region.base + (4096 - 1)) / 4096 * 4096) (mul_mod_left _ _) (by omega)
    omega

theorem pageless_of_small (small : region.size < pageSize) :
    ¬ firstBorder region < lastBorder region := by
  refine pageless_iff.mpr fun page _ above => ?_
  unfold Region.limit
  omega

theorem pageless_of_within {whole : Region} (pageless : ¬ firstBorder whole < lastBorder whole)
    (above : whole.base ≤ region.base) (below : region.limit ≤ whole.limit) :
    ¬ firstBorder region < lastBorder region :=
  pageless_iff.mpr fun page border inside =>
    below.trans_lt (pageless_iff.mp pageless page border (above.trans inside))

/-- Two regions without a whole page that meet at a page border have none together. -/
theorem pageless_join {lower upper whole : Region} (first : ¬ firstBorder lower < lastBorder lower)
    (second : ¬ firstBorder upper < lastBorder upper) (border : upper.base % pageSize = 0)
    (meets : lower.limit = upper.base) (base : whole.base = lower.base)
    (limit : whole.limit = upper.limit) : ¬ firstBorder whole < lastBorder whole := by
  refine pageless_iff.mpr fun page aligned above => ?_
  rw [limit]
  by_cases early : page < upper.base
  · have inside := pageless_iff.mp first page aligned (base ▸ above)
    rw [meets] at inside
    unfold pageSize at *
    omega
  · exact pageless_iff.mp second page aligned (Nat.le_of_not_lt early)

/-! ### Trimmed lists -/

theorem Trimmed.subset {others : List Region} (trimmed : Trimmed free) (subset : others ⊆ free) :
    Trimmed others :=
  ⟨fun tile member => trimmed.pageless tile (subset member),
    fun lower lowerMember upper upperMember =>
    trimmed.seams lower (subset lowerMember) upper (subset upperMember)⟩

/-- What is left of a free block. -/
theorem CutFrom.trimmed (cutFrom : CutFrom abi head usage owned need size front block back after)
    (fits : need ≤ block.size) (trimmed : Trimmed (front ++ block :: back)) :
    Trimmed (front ++ (cutBlock abi block need).2 ++ back) := by
  have old := ((sublist_cons_self block back).append_left front).subset
  refine ⟨fun tile member => ?_, cutFrom.seams fits (trimmed.subset old).seams
    fun upper member => trimmed.seams block (by simp) upper (old member)⟩
  rcases mem_cut member with others | rest
  · exact trimmed.pageless tile (old others)
  · refine pageless_of_within (trimmed.pageless block (by simp)) ?_ (cutBlock_limit rest fits).1.le
    rw [mem_cutBlock_rest rest]
    exact le_add_right _ _

theorem pages_limit (small : size + abi.headerSize + pageSize < abi.modulus)
    (border : base % pageSize = 0) : (base + pagesSize abi size) % pageSize = 0 := by
  rw [(request_sizes small).2]
  exact (add_mul_mod_self_right _ _ pageSize).trans border

/-- What is left of new pages is less than a page. -/
theorem CutFrom.trimmed_pages (cutFrom : CutFrom abi head usage owned (allocSize abi size) size
      front ⟨base, pagesSize abi size⟩ back after)
    (small : size + abi.headerSize + pageSize < abi.modulus)
    (large : allocSize abi size ≤ pagesSize abi size) (border : base % pageSize = 0)
    (trimmed : Trimmed (front ++ back)) :
    Trimmed
      (front ++ (cutBlock abi ⟨base, pagesSize abi size⟩ (allocSize abi size)).2 ++ back) := by
  obtain ⟨need, pages⟩ := request_sizes small
  refine ⟨fun tile member => ?_, cutFrom.seams large trimmed.seams fun upper _ touch =>
    touch ▸ pages_limit small border⟩
  rcases mem_cut member with old | rest
  · exact trimmed.pageless tile old
  · refine pageless_of_small ?_
    rw [mem_cutBlock_rest rest, need, pages]
    unfold pageSize
    dsimp only
    omega

/-- A freed block joined with its neighbours. -/
theorem Merged.trimmed (merged : Merged abi head usage object free after front extent back)
    (represents : Represents abi head usage.mem free)
    (pageless : ¬ firstBorder extent < lastBorder extent) (trimmed : Trimmed free) :
    Trimmed (front ++ extent :: back) := by
  refine ⟨fun tile member => ?_, merged.seams represents trimmed.seams⟩
  rcases mem_cons.mp (perm_middle.mem_iff.mp member) with rfl | old
  · exact pageless
  · exact trimmed.pageless tile (merged.old tile old)

end FreeList

end AIMv6
