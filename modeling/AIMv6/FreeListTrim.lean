/-
This file follows the whole pages of the free-list allocator.

`kfree` returns every whole page of the region a freed block becomes part of, and what `__alloc`
leaves of new pages is smaller than a page. So no block on the free list has a whole page, and two
of them touch at a page border only, where the allocator took in pages next to a free block. An
object that is cut from such a block and freed again right away joins the same blocks again: no page
is returned.
-/

import AIMv6.FreeListSlices

namespace AIMv6

open List Nat

namespace FreeList

/-- What holds between the calls of a run that cuts blocks at clear places. -/
structure Neat (abi : Abi) (head : Nat) (usage : Usage) (free : List Region) : Prop where
  invariant : Invariant abi head usage free
  cleared : Cleared abi (free ++ usage.blocks abi)
  trimmed : Trimmed free

variable {abi : Abi} {kva : Nat → Nat} {head : Nat} {mem after : Memory} {usage : Usage}
  {object : Object} {free front back : List Region} {block region extent : Region} {owned : Set Nat}

section Again

variable {need size : Nat} (trimmed : Trimmed (front ++ block :: back))
  (cutFrom : CutFrom abi head usage owned need size front block back after)
  (fits : need ≤ block.size) (isExtent : Extent abi head after (cutBlock abi block need).1 extent)

include trimmed cutFrom fits isExtent

/-- What a freed object joins above it is the rest of the block it was cut from, or a block that
touches the one it was. -/
theorem Trimmed.again_upper : ∃ region : Region, region.base = block.base ∧
    region.limit = extent.limit ∧ ¬ firstBorder region < lastBorder region := by
  have represents : Represents abi head after (front ++ (cutBlock abi block need).2 ++ back) :=
    cutFrom.handedOut.invariant.represents
  have pageless := trimmed.pageless block (by simp)
  rcases isExtent.upper with ⟨listed, ends⟩ | ⟨ends, -⟩
  · obtain ⟨tile, member, begins⟩ := represents.onFreeList_iff.mp listed
    rw [← begins, represents.sizes tile member] at ends
    by_cases large : abi.headerSize + allocAlign ≤ block.size - need
    · have isRest : (⟨block.base + need, block.size - need⟩ :
          Region) ∈ (cutBlock abi block need).2 := by
        rw [cutBlock, if_pos large]
        exact mem_singleton_self _
      have tiled := cutFrom.tiled
      have base := begins.trans (cutBlock_limit isRest fits).2
      have restMember := mem_append_left back (mem_append_right front isRest)
      have same := tiled.eq_of_overlap (mem_append_left _ member)
        (mem_append_left _ restMember) (base ▸ tiled.base_lt (mem_append_left _ member))
        (base ▸ tiled.base_lt (mem_append_left _ restMember))
      refine ⟨block, rfl, ?_, pageless⟩
      rw [ends, same]
      exact (cutBlock_limit isRest fits).1.symm
    · rw [cutBlock, if_neg large] at begins member
      have old : tile ∈ front ++ block :: back := by
        simp only [append_nil, mem_append, mem_cons] at member ⊢
        tauto
      have limit : (⟨block.base, block.size + tile.size⟩ : Region).limit = tile.limit := by
        unfold Region.limit at *
        dsimp only at *
        omega
      exact ⟨⟨block.base, block.size + tile.size⟩, rfl, limit.trans ends.symm,
        pageless_join pageless (trimmed.pageless tile old)
        (trimmed.seams block (by simp) tile old begins.symm) begins.symm rfl limit⟩
  · refine ⟨(cutBlock abi block need).1, cutBlock_base need, ends.symm, ?_⟩
    refine pageless_of_within pageless (cutBlock_base need).ge ?_
    unfold cutBlock
    split
    · unfold Region.limit
      dsimp only
      omega
    · exact le_rfl

/-- An object that is freed right after it was cut from a free block joins the blocks that the free
block was, or touched: there is no whole page among them. -/
theorem Trimmed.again : ¬ firstBorder extent < lastBorder extent := by
  have represents : Represents abi head after (front ++ (cutBlock abi block need).2 ++ back) :=
    cutFrom.handedOut.invariant.represents
  obtain ⟨region, regionBase, regionLimit, pageless⟩ := trimmed.again_upper cutFrom fits isExtent
  rcases isExtent.lower with ⟨listed, ends⟩ | ⟨begins, -⟩
  · obtain ⟨tile, member, begins⟩ := represents.onFreeList_iff.mp listed
    rw [← begins, represents.sizes tile member, cutBlock_base] at ends
    rcases mem_cut member with old | rest
    · have inList : tile ∈ front ++ block :: back :=
        ((sublist_cons_self block back).append_left front).subset old
      have border := trimmed.seams tile inList block (by simp) ends
      exact pageless_join (trimmed.pageless tile inList) pageless (regionBase ▸ border)
        (regionBase ▸ ends) begins.symm regionLimit.symm
    · have isRest := mem_cutBlock_rest rest
      have positive := (cutFrom.tiled.fine tile (mem_append_left _ member)).positive
      rw [isRest] at ends positive
      dsimp only at ends positive
      omega
  · refine pageless_of_within pageless ?_ regionLimit.ge
    rw [regionBase, begins, cutBlock_base]

end Again

/-! ### The calls -/

theorem Neat.start (abi : Abi) (head : Nat) (mem : Memory) :
    Neat abi head (initial abi head mem) [] :=
  ⟨Invariant.start abi head mem, nofun, nofun, nofun⟩

section Calls

variable (neat : Neat abi head usage free)

include neat

theorem Neat.perm {objects : List Object}
    (same : usage.live.Perm objects) : Neat abi head { usage with live := objects } free := by
  obtain ⟨⟨represents, ascending, tiled, holds⟩, cleared, trimmed⟩ := neat
  have blocks : (usage.blocks abi).Perm (Usage.blocks abi { usage with live := objects }) :=
    same.map _
  refine ⟨⟨represents, ascending, tiled.perm (blocks.append_left _), fun object member =>
    holds object (same.mem_iff.mpr member)⟩, cleared.subset fun tile member => ?_, trimmed⟩
  exact (blocks.append_left free).mem_iff.mpr member

theorem Neat.write (proper : Set.EqOn mem usage.mem (usage.reserved abi head)) :
    Neat abi head { usage with mem } free := by
  have written : (Call.write mem).Proper abi id head usage := proper
  refine ⟨neat.invariant.write written, ?_, neat.trimmed⟩
  rw [neat.invariant.write_blocks written]
  exact neat.cleared

/-- An object that is cut from a block on the list, at a clear place. Freed right away, it gives no
page back. -/
theorem Neat.alloc {size flags : Nat} (small : size + abi.headerSize + pageSize < abi.modulus)
    (fit : ∃ block ∈ free, allocSize abi size ≤ block.size)
    (cutsClear : (Call.kmalloc size flags none).CutsClear abi head usage) :
    ∃ obj after left, (∀ fuel > free.length,
        FreeList.alloc abi kva head fuel size flags none usage.mem = some ⟨some obj, after, none⟩) ∧
      Neat abi head ⟨after, ⟨obj, size⟩ :: usage.live, usage.owned⟩ left ∧
      ∀ extent, Extent abi head after (Object.block abi after ⟨obj, size⟩) extent →
        ¬ firstBorder extent < lastBorder extent := by
  obtain ⟨invariant, cleared, trimmed⟩ := neat
  obtain ⟨front, block, back, after, rfl, large, returned, cutFrom, clear⟩ :=
    @Invariant.alloc_clear _ kva _ _ _ _ invariant cleared _ flags none small
      (lt_succ_self _) fit cutsClear
  refine ⟨_, after, _, fun fuel enough => alloc_mono enough returned,
    ⟨cutFrom.handedOut.invariant, clear, cutFrom.trimmed large trimmed⟩, fun extent isExtent => ?_⟩
  rw [cutFrom.isBlock] at isExtent
  exact trimmed.again cutFrom large isExtent

/-- An object that is cut from new pages. -/
theorem Neat.takePages {size flags paddr : Nat}
    (small : size + abi.headerSize + pageSize < abi.modulus)
    (granted : Granted abi head usage ⟨kva paddr, pagesSize abi size⟩)
    (inside : kva paddr + pagesSize abi size < abi.modulus)
    (large : allocSize abi size ≤ pagesSize abi size) :
    ∃ obj after left, (∀ fuel > free.length,
        FreeList.takePages abi kva head fuel size flags paddr usage.mem = some (obj, after)) ∧
      Neat abi head ⟨after, ⟨obj, size⟩ :: usage.live,
        (⟨kva paddr, pagesSize abi size⟩ : Region).bytes ∪ usage.owned⟩ left := by
  obtain ⟨invariant, cleared, trimmed⟩ := neat
  obtain ⟨front, back, after, rfl, taken, cutFrom, clear⟩ :=
    @Invariant.takePages_clear _
    kva head _ usage free invariant cleared size flags paddr small (lt_succ_self _) granted inside
    large
  exact ⟨_, after, _, fun fuel enough => takePages_mono enough taken,
    cutFrom.handedOut.invariant, clear, cutFrom.trimmed_pages small large granted.aligned trimmed⟩

end Calls

/-- A slice lies between an end of the region and a page border. -/
theorem slice_ends {slice : Region} (member : slice ∈ lowerSlice region ++ upperSlice region) :
    slice.size < pageSize ∧ (slice.base = region.base ∧ slice.limit % pageSize = 0 ∨
      slice.limit = region.limit ∧ slice.base % pageSize = 0) := by
  obtain ⟨lower, upper, first, last⟩ := borders_bounds region
  rcases mem_append.mp member with isLower | isUpper
  · rw [(mem_lowerSlice isLower).1]
    unfold firstBorder Region.limit pageSize at *
    dsimp only at *
    omega
  · rw [(mem_upperSlice isUpper).1]
    unfold lastBorder Region.limit pageSize at *
    dsimp only at *
    omega

/-- The free blocks after an object was freed, when the pages of the region it becomes part of are
returned. -/
theorem Neat.sliced_trimmed (neat : Neat abi head usage free)
    (merged : Merged abi head usage object free after front extent back) :
    Trimmed (front ++ lowerSlice extent ++ upperSlice extent ++ back) := by
  obtain ⟨below, above⟩ := neat.invariant.represents.extent_seams neat.trimmed.seams merged.extent
  have others : Trimmed (front ++ back) := neat.trimmed.subset merged.old
  have parts : ∀ tile ∈ front ++ lowerSlice extent ++ upperSlice extent ++ back,
      tile ∈ front ++ back ∨ tile ∈ lowerSlice extent ++ upperSlice extent := by
    intro tile member
    simp only [mem_append] at member ⊢
    tauto
  refine ⟨fun tile member => ?_, fun one oneMember other otherMember touch => ?_⟩
  · rcases parts tile member with old | slice
    · exact others.pageless tile old
    · exact pageless_of_small (slice_ends slice).1
  · rcases parts other otherMember with otherOld | otherSlice
    · rcases parts one oneMember with oneOld | oneSlice
      · exact others.seams one oneOld other otherOld touch
      · obtain ⟨-, ⟨-, border⟩ | ⟨ends, -⟩⟩ := slice_ends oneSlice
        · rw [← touch]
          exact border
        · exact above other (merged.old other otherOld) (ends ▸ touch)
    · obtain ⟨-, ⟨begins, -⟩ | ⟨-, border⟩⟩ := slice_ends otherSlice
      · rcases parts one oneMember with oneOld | oneSlice
        · rw [begins]
          exact below one (merged.old one oneOld) (touch.trans begins)
        · obtain ⟨-, ⟨-, border⟩ | ⟨ends, -⟩⟩ := slice_ends oneSlice
          · rw [← touch]
            exact border
          · have positive := (merged.placed.tiled.fine extent mem_cons_self).positive
            have same := ends.symm.trans (touch.trans begins)
            unfold Region.limit at same
            omega
      · exact border

/-- `kfree` of an object that becomes part of a region without a whole page. -/
theorem Neat.kfree_quiet (neat : Neat abi head usage free) (live : object ∈ usage.live)
    (pageless : ∀ extent, Extent abi head usage.mem (object.block abi usage.mem) extent →
      ¬ firstBorder extent < lastBorder extent) :
    ∃ after left, (∀ fuel > free.length, FreeList.kfree abi head fuel object.obj usage.mem =
        some (none, after)) ∧
      Neat abi head ⟨after, usage.live.erase object, usage.owned⟩ left := by
  have invariant := neat.invariant
  obtain ⟨after, front, extent, back, freed, merged⟩ := invariant.merge live (lt_succ_self _)
  have small := pageless extent merged.extent
  obtain ⟨returned, kept⟩ := merged.keep invariant.holds small
  refine ⟨after, _, fun fuel enough => ?_, kept,
    (invariant.merged_clear neat.cleared live merged merged.same).1,
      merged.trimmed invariant.represents small neat.trimmed⟩
  rw [FreeList.kfree, if_pos (invariant.obj_ne_zero live)]
  exact free_mono enough (freed.trans (congrArg some returned))

/-- `kfree` of an object that becomes part of a region with whole pages passes them on. -/
theorem Neat.kfree_pages (neat : Neat abi head usage free) (live : object ∈ usage.live)
    (isExtent : Extent abi head usage.mem (object.block abi usage.mem) extent)
    (whole : firstBorder extent < lastBorder extent) :
    ∃ (pages : Region) (flags : Nat) (after : Memory) (left : List Region),
      pages.base % pageSize = 0 ∧ pages.size % pageSize = 0 ∧ 0 < pages.size ∧
      pages.bytes ⊆ usage.owned ∧
      (∀ fuel > free.length, FreeList.kfree abi head fuel object.obj usage.mem =
        some (some ⟨pages.base, pages.size, flags, 0⟩, after)) ∧
      Neat abi head ⟨after, usage.live.erase object, usage.owned \ pages.bytes⟩ left := by
  have invariant := neat.invariant
  obtain ⟨after, front, joined, back, freed, merged⟩ := invariant.merge live (lt_succ_self _)
  have same := isExtent.unique invariant.represents invariant.tiled merged.extent
  subst same
  obtain ⟨flags, ended, returned, kept, objects⟩ := merged.giveBack invariant.holds whole
    (invariant.slices_roomy neat.cleared live isExtent)
  obtain ⟨lower, upper, first, last⟩ := borders_bounds extent
  refine ⟨⟨firstBorder extent, lastBorder extent - firstBorder extent⟩, flags, ended, _, first, ?_,
    Nat.sub_pos_of_lt whole, ?_, fun fuel enough => ?_, kept,
    (invariant.merged_clear neat.cleared live merged objects).2, neat.sliced_trimmed merged⟩
  · unfold pageSize at *
    dsimp only
    omega
  · refine Set.Subset.trans (fun address inside => ?_)
      (merged.placed.tiled.tiling.subset mem_cons_self)
    rw [Region.mem_bytes] at inside ⊢
    unfold Region.limit at upper
    dsimp only at inside
    omega
  · rw [FreeList.kfree, if_pos (invariant.obj_ne_zero live)]
    exact free_mono enough (freed.trans (congrArg some returned))

end FreeList

end AIMv6
