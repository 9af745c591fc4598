/-
This file proves that `__free` keeps the invariant of the free-list allocator.

A freed block is joined with the free block that ends where it begins and with the one that
begins where it ends; `Extent` says which region that makes, by the state before the call. The
whole pages of that region are passed on, and what is left of it in front of and behind them
stays on the list. The source takes for granted that such a slice has room for a header. The
invariant is kept when it has.
-/

import AIMv6.FreeListInvariant

namespace AIMv6

open List

namespace FreeList

/-- The links lead from the list head to the block. -/
def OnFreeList (abi : Abi) (head : Nat) (mem : Memory) (block : Nat) : Prop :=
  node abi block ≠ head ∧ ∃ steps, mem^[steps] head = node abi block

/-- The region a freed block becomes part of. -/
structure Extent (abi : Abi) (head : Nat) (mem : Memory) (block extent : Region) : Prop where
  lower : (OnFreeList abi head mem extent.base ∧ extent.base + mem extent.base = block.base) ∨
    (extent.base = block.base ∧
      ∀ other, OnFreeList abi head mem other → other + mem other ≠ block.base)
  upper : (OnFreeList abi head mem block.limit ∧ extent.limit = block.limit + mem block.limit) ∨
    (extent.limit = block.limit ∧ ¬ OnFreeList abi head mem block.limit)

variable {abi : Abi} {head base : Nat} {mem : Memory} {usage : Usage}
  {free front back tiles live : List Region} {block slice : Region} {owned : Set Nat}

theorem Represents.onFreeList_iff (represents : Represents abi head mem free) :
    OnFreeList abi head mem base ↔ ∃ block ∈ free, block.base = base := by
  rw [OnFreeList, ← represents.ring.mem_iff, mem_nodes]
  exact exists_congr fun block => and_congr_right fun _ => add_right_cancel_iff

/-- The blocks on a free list that is closed: the links lead through them and back to the head. -/
theorem onFreeList_iff_mem {blocks : List Nat}
    (links : (List.range (blocks.length + 1)).map (fun step => mem^[step + 1] head) =
      blocks.map (node abi) ++ [head]) (apart : head ∉ blocks.map (node abi)) :
    OnFreeList abi head mem base ↔ base ∈ blocks := by
  have isNode : node abi base ∈ blocks.map (node abi) ↔ base ∈ blocks :=
    mem_map_of_injective fun _ _ => add_right_cancel
  constructor
  · rintro ⟨notHead, steps, reached⟩
    have closed : Function.IsPeriodicPt mem (blocks.length + 1) head := by
      rw [range_succ, map_append] at links
      exact singleton_inj.mp (append_inj' links rfl).2
    rw [← closed.iterate_mod_apply steps] at reached
    have bound := Nat.mod_lt steps (Nat.succ_pos blocks.length)
    generalize steps % (blocks.length + 1) = rest at reached bound
    rcases rest with _ | step
    · exact absurd reached.symm notHead
    · have visited : node abi base ∈ blocks.map (node abi) ++ [head] := by
        rw [← links, ← reached]
        exact mem_map_of_mem (f := fun step => mem^[step + 1] head)
          (mem_range.mpr (Nat.lt_of_succ_lt bound))
      rcases mem_append.mp visited with listed | atHead
      · exact isNode.mp listed
      · exact absurd (mem_singleton.mp atHead) notHead
  · intro member
    have listed := isNode.mpr member
    refine ⟨fun same => apart (same ▸ listed), ?_⟩
    have visited : node abi base ∈ blocks.map (node abi) ++ [head] := mem_append_left _ listed
    rw [← links] at visited
    obtain ⟨step, -, reached⟩ := mem_map.mp visited
    exact ⟨step + 1, reached⟩

theorem Extent.unique {first second : Region} (represents : Represents abi head mem free)
    (tiled : Tiled abi head owned (free ++ live)) (firstIs : Extent abi head mem block first)
    (secondIs : Extent abi head mem block second) : first = second := by
  have base : first.base = second.base := by
    rcases firstIs.lower with ⟨firstListed, firstEnds⟩ | ⟨firstBase, firstApart⟩ <;>
      rcases secondIs.lower with ⟨secondListed, secondEnds⟩ | ⟨secondBase, secondApart⟩
    · obtain ⟨lower, lowerMember, lowerBase⟩ := represents.onFreeList_iff.mp firstListed
      obtain ⟨upper, upperMember, upperBase⟩ := represents.onFreeList_iff.mp secondListed
      rw [← lowerBase, represents.sizes lower lowerMember] at firstEnds
      rw [← upperBase, represents.sizes upper upperMember] at secondEnds
      by_contra different
      have lowerPositive := (tiled.fine lower (mem_append_left _ lowerMember)).positive
      have upperPositive := (tiled.fine upper (mem_append_left _ upperMember)).positive
      have ordered := tiled.ordered (mem_append_left _ lowerMember)
        (mem_append_left _ upperMember) fun same =>
          different (by rw [← lowerBase, ← upperBase, same])
      unfold Region.limit at ordered
      omega
    · exact absurd firstEnds (secondApart _ firstListed)
    · exact absurd secondEnds (firstApart _ secondListed)
    · exact firstBase.trans secondBase.symm
  have limit : first.limit = second.limit := by
    rcases firstIs.upper with ⟨firstListed, firstEnds⟩ | ⟨firstLimit, firstUnlisted⟩ <;>
      rcases secondIs.upper with ⟨secondListed, secondEnds⟩ | ⟨secondLimit, secondUnlisted⟩
    · exact firstEnds.trans secondEnds.symm
    · exact absurd firstListed secondUnlisted
    · exact absurd secondListed firstUnlisted
    · exact firstLimit.trans secondLimit.symm
  obtain ⟨firstBase, firstSize⟩ := first
  obtain ⟨secondBase, secondSize⟩ := second
  unfold Region.limit at limit
  dsimp only at base limit
  rw [Region.mk.injEq]
  omega

/-! ### Joining -/

theorem Tiled.fuse {first second : Nat}
    (tiled : Tiled abi head owned (⟨base, first⟩ :: ⟨base + first, second⟩ :: tiles)) :
    Tiled abi head owned (⟨base, first + second⟩ :: tiles) := by
  obtain ⟨tiling, fine, outside⟩ := tiled
  obtain ⟨lowerFine, upperFine, restFine⟩ := forall_mem_cons.mp fine |>.imp_right forall_mem_cons.mp
  refine ⟨Tiling.cut_iff.mpr tiling, forall_mem_cons.mpr ⟨⟨lowerFine.baseAligned, ?_, ?_, ?_⟩,
    restFine⟩, outside⟩
  · exact Nat.mod_eq_zero_of_dvd ((Nat.dvd_of_mod_eq_zero lowerFine.sizeAligned).add
      (Nat.dvd_of_mod_eq_zero upperFine.sizeAligned))
  · exact lowerFine.roomy.trans (Nat.le_add_right _ _)
  · have inside := upperFine.inside
    unfold Region.limit at inside ⊢
    dsimp only at inside ⊢
    omega

/-- A block that is not joined with the one below it touches no block in front of it. -/
theorem joinDown_cases (ascending : Ascending (front ++ block :: back))
    (positive : ∀ other ∈ front, 0 < other.size) :
    (∃ earlier prev, front = earlier ++ [prev] ∧ prev.limit = block.base ∧
      joinDown front block = (earlier, ⟨prev.base, prev.size + block.size⟩)) ∨
    (joinDown front block = (front, block) ∧ ∀ other ∈ front, other.limit ≠ block.base) := by
  rcases eq_nil_or_concat' front with rfl | ⟨earlier, prev, rfl⟩
  · exact Or.inr ⟨rfl, nofun⟩
  · unfold joinDown
    simp only [List.getLast?_concat, dropLast_concat]
    by_cases touch : prev.limit = block.base
    · exact Or.inl ⟨earlier, prev, rfl, touch, if_pos touch⟩
    · refine Or.inr ⟨if_neg touch, fun other member => ?_⟩
      obtain ⟨inFront, -, across⟩ := pairwise_append.mp ascending
      rcases mem_append.mp member with before | isPrev
      · have order := (pairwise_append.mp inFront).2.2 other before prev (mem_singleton_self _)
        have bound := across prev (by simp) block mem_cons_self
        unfold Region.limit at *
        omega
      · rwa [mem_singleton.mp isPrev]

theorem joinUp_base : (joinUp block back).1.base = block.base := by
  rcases back with _ | ⟨next, rest⟩
  · rfl
  · rw [joinUp]
    split <;> rfl

/-- A block that is not joined with the one above it touches no block behind it. -/
theorem joinUp_cases (ascending : Ascending (front ++ block :: back))
    (positive : ∀ other ∈ back, 0 < other.size) :
    (∃ next rest, back = next :: rest ∧ block.limit = next.base ∧
      joinUp block back = (⟨block.base, block.size + next.size⟩, rest)) ∨
    (joinUp block back = (block, back) ∧ ∀ other ∈ back, block.limit ≠ other.base) := by
  rcases back with _ | ⟨next, rest⟩
  · exact Or.inr ⟨rfl, nofun⟩
  · unfold joinUp
    by_cases touch : block.limit = next.base
    · exact Or.inl ⟨next, rest, rfl, touch, if_pos touch⟩
    · refine Or.inr ⟨if_neg touch, fun other member => ?_⟩
      obtain ⟨-, inBack, -⟩ := pairwise_append.mp ascending
      obtain ⟨above, later⟩ := pairwise_cons.mp inBack
      rcases mem_cons.mp member with rfl | behind
      · exact touch
      · have order := (pairwise_cons.mp later).1 other behind
        have bound := above next mem_cons_self
        unfold Region.limit at *
        omega

namespace Placed

variable (placed : Placed abi head owned front block back live)

include placed

theorem positive :
    0 < block.size ∧ (∀ other ∈ front, 0 < other.size) ∧ ∀ other ∈ back, 0 < other.size := by
  have fine := placed.tiled.fine
  refine ⟨(fine block mem_cons_self).positive, fun other member => (fine other ?_).positive,
    fun other member => (fine other ?_).positive⟩
  · exact mem_cons_of_mem _ (mem_append_left _ (mem_append_left _ member))
  · exact mem_cons_of_mem _ (mem_append_left _ (mem_append_right _ member))

theorem joinDown :
    Placed abi head owned (FreeList.joinDown front block).1 (FreeList.joinDown front block).2
      back live := by
  rcases joinDown_cases placed.ascending placed.positive.2.1 with
    ⟨earlier, prev, rfl, touch, joined⟩ | ⟨same, -⟩
  · rw [joined]
    obtain ⟨base, size⟩ := block
    obtain rfl : prev.base + prev.size = base := touch
    obtain ⟨ascending, tiled⟩ := placed
    refine ⟨Ascending.fuse (by simpa using ascending), Tiled.fuse (tiled.perm ?_)⟩
    refine (List.Perm.cons _ ?_).trans (List.Perm.swap _ _ _)
    simp
  · rwa [same]

theorem joinUp :
    Placed abi head owned front (FreeList.joinUp block back).1
      (FreeList.joinUp block back).2 live := by
  rcases joinUp_cases placed.ascending placed.positive.2.2 with
    ⟨next, rest, rfl, touch, joined⟩ | ⟨same, -⟩
  · rw [joined]
    obtain ⟨base, size⟩ := next
    obtain rfl : block.base + block.size = base := touch
    obtain ⟨ascending, tiled⟩ := placed
    refine ⟨Ascending.fuse ascending, Tiled.fuse (tiled.perm (List.Perm.cons _ ?_))⟩
    exact perm_middle.append_right _
  · rwa [same]

/-- Blocks that lie one above the other are together smaller than the address space. -/
theorem small :
    (∀ prev ∈ front, prev.limit < abi.modulus ∧ prev.size + block.size < abi.modulus) ∧
      ∀ next ∈ back, block.limit < abi.modulus ∧ block.size + next.size < abi.modulus := by
  obtain ⟨-, inBack, across⟩ := pairwise_append.mp placed.ascending
  have fine := placed.tiled.fine
  constructor
  · intro prev member
    have order := across prev member block mem_cons_self
    have inside := (fine block mem_cons_self).inside
    unfold Region.limit pageSize at *
    omega
  · intro next member
    have order := (pairwise_cons.mp inBack).1 next member
    have inside := (fine next
      (mem_cons_of_mem _ (mem_append_left _ (mem_append_right _ member)))).inside
    unfold Region.limit pageSize at *
    omega

theorem extent (represents : Represents abi head mem (front ++ back)) :
    Extent abi head mem block (FreeList.joinUp (FreeList.joinDown front block).2 back).1 := by
  obtain ⟨positive, frontPositive, backPositive⟩ := placed.positive
  obtain ⟨-, inBack, across⟩ := pairwise_append.mp placed.ascending
  have below : ∀ other ∈ front, other.limit ≤ block.base := fun other member =>
    across other member block mem_cons_self
  have above : ∀ other ∈ back, block.limit ≤ other.base := (pairwise_cons.mp inBack).1
  have limit : (FreeList.joinDown front block).2.limit = block.limit := by
    rcases joinDown_cases placed.ascending frontPositive with
      ⟨earlier, prev, rfl, touch, joined⟩ | ⟨same, -⟩
    · rw [joined]
      unfold Region.limit at *
      dsimp only
      omega
    · rw [same]
  constructor
  · rw [joinUp_base]
    rcases joinDown_cases placed.ascending frontPositive with ⟨earlier, prev, rfl, touch, joined⟩ |
      ⟨same, apart⟩
    · rw [joined]
      have member : prev ∈ earlier ++ [prev] ++ back := by simp
      exact Or.inl ⟨represents.onFreeList_iff.mpr ⟨prev, member, rfl⟩, by
        rw [represents.sizes prev member]
        exact touch⟩
    · rw [same]
      refine Or.inr ⟨rfl, fun base listed => ?_⟩
      obtain ⟨other, member, rfl⟩ := represents.onFreeList_iff.mp listed
      rw [represents.sizes other member]
      rcases mem_append.mp member with inFront | inBack
      · exact apart other inFront
      · have order := above other inBack
        unfold Region.limit at order
        omega
  · rcases joinUp_cases placed.joinDown.ascending backPositive with
      ⟨next, rest, rfl, touch, joined⟩ | ⟨same, apart⟩
    · rw [joined]
      rw [limit] at touch
      have member : next ∈ front ++ next :: rest := by simp
      refine Or.inl ⟨represents.onFreeList_iff.mpr ⟨next, member, touch.symm⟩, ?_⟩
      rw [touch, represents.sizes next member]
      unfold Region.limit at *
      dsimp only
      omega
    · rw [same, limit]
      refine Or.inr ⟨rfl, fun listed => ?_⟩
      obtain ⟨other, member, begins⟩ := represents.onFreeList_iff.mp listed
      rcases mem_append.mp member with inFront | inBack
      · have order := below other inFront
        unfold Region.limit at *
        omega
      · exact apart other inBack (by rw [limit, begins])

theorem joins_subset :
    ∀ other ∈ (FreeList.joinDown front block).1 ++
      (FreeList.joinUp (FreeList.joinDown front block).2 back).2, other ∈ front ++ back := by
  obtain ⟨-, frontPositive, backPositive⟩ := placed.positive
  intro other member
  rcases mem_append.mp member with inFront | inBack
  · refine mem_append_left _ ?_
    rcases joinDown_cases placed.ascending frontPositive with
      ⟨earlier, prev, rfl, -, joined⟩ | ⟨same, -⟩
    · rw [joined] at inFront
      exact mem_append_left _ inFront
    · rwa [same] at inFront
  · refine mem_append_right _ ?_
    rcases joinUp_cases placed.joinDown.ascending backPositive with
      ⟨next, rest, rfl, -, joined⟩ | ⟨same, -⟩
    · rw [joined] at inBack
      exact mem_cons_of_mem _ inBack
    · rwa [same] at inBack

end Placed

/-! ### Slices -/

theorem borders_bounds (block : Region) :
    block.base ≤ firstBorder block ∧ lastBorder block ≤ block.limit ∧
      firstBorder block % pageSize = 0 ∧ lastBorder block % pageSize = 0 := by
  unfold firstBorder lastBorder pageSize
  omega

theorem tiling_lowerSlice :
    Tiling owned (⟨block.base, firstBorder block - block.base⟩ :: tiles) ↔
      Tiling owned (lowerSlice block ++ tiles) := by
  unfold lowerSlice
  split
  · rfl
  · rw [show firstBorder block - block.base = 0 by omega]
    exact Tiling.empty_iff

theorem tiling_upperSlice :
    Tiling owned (⟨lastBorder block, block.limit - lastBorder block⟩ :: tiles) ↔
      Tiling owned (upperSlice block ++ tiles) := by
  unfold upperSlice
  split
  · rfl
  · rw [show block.limit - lastBorder block = 0 by omega]
    exact Tiling.empty_iff

theorem mem_lowerSlice (member : slice ∈ lowerSlice block) :
    slice = ⟨block.base, firstBorder block - block.base⟩ ∧ block.base < firstBorder block := by
  unfold lowerSlice at member
  split at member
  · rename_i inside
    exact ⟨mem_singleton.mp member, inside⟩
  · cases member

theorem mem_upperSlice (member : slice ∈ upperSlice block) :
    slice = ⟨lastBorder block, block.limit - lastBorder block⟩ ∧
      lastBorder block < block.limit := by
  unfold upperSlice at member
  split at member
  · rename_i inside
    exact ⟨mem_singleton.mp member, inside⟩
  · cases member

/-- The slices of a fine block that have room for a header are fine, and lie inside of it. -/
theorem slices_fine (fine : Fine abi block) (whole : firstBorder block < lastBorder block)
    (member : slice ∈ lowerSlice block ++ upperSlice block) (room : abi.headerSize ≤ slice.size) :
    Fine abi slice ∧ block.base ≤ slice.base ∧ slice.limit ≤ block.limit := by
  obtain ⟨lower, upper, firstAligned, lastAligned⟩ := borders_bounds block
  obtain ⟨baseAligned, sizeAligned, -, inside⟩ := fine
  have place : slice.base % allocAlign = 0 ∧ slice.size % allocAlign = 0 ∧
      block.base ≤ slice.base ∧ slice.limit ≤ block.limit := by
    unfold Region.limit pageSize allocAlign at *
    rcases mem_append.mp member with isLower | isUpper
    · rw [(mem_lowerSlice isLower).1]
      dsimp only
      omega
    · rw [(mem_upperSlice isUpper).1]
      unfold Region.limit
      dsimp only
      omega
  exact ⟨⟨place.1, place.2.1, room, (Nat.add_le_add_right place.2.2.2 _).trans inside⟩, place.2.2⟩

/-- The slices lie in front of and behind the whole pages. -/
theorem ascending_slices (whole : firstBorder block < lastBorder block) :
    (lowerSlice block ++ upperSlice block).Pairwise fun first second =>
      first.limit ≤ second.base := by
  refine pairwise_append.mpr ⟨?_, ?_, fun first isLower second isUpper => ?_⟩
  · unfold lowerSlice
    split
    · exact pairwise_singleton _ _
    · exact List.Pairwise.nil
  · unfold upperSlice
    split
    · exact pairwise_singleton _ _
    · exact List.Pairwise.nil
  · obtain ⟨first, inside⟩ := mem_lowerSlice isLower
    rw [first, (mem_upperSlice isUpper).1]
    unfold Region.limit
    dsimp only
    omega

/-- A tile with whole pages, cut where they end. -/
theorem Tiled.cutUpper (tiled : Tiled abi head owned (block :: tiles))
    (whole : firstBorder block < lastBorder block)
    (room : ∀ slice ∈ lowerSlice block ++ upperSlice block, abi.headerSize ≤ slice.size) :
    Tiled abi head owned
      (⟨block.base, lastBorder block - block.base⟩ :: (upperSlice block ++ tiles)) := by
  obtain ⟨lower, upper, firstAligned, lastAligned⟩ := borders_bounds block
  have fine := tiled.fine block mem_cons_self
  refine ⟨?_, forall_mem_cons.mpr ⟨?_, fun tile member => ?_⟩, tiled.outside⟩
  · have cut : Tiling owned (⟨block.base, lastBorder block - block.base⟩ ::
        ⟨block.base + (lastBorder block - block.base), block.limit - lastBorder block⟩ ::
          tiles) := by
      refine Tiling.cut_iff.mp ?_
      rw [show lastBorder block - block.base + (block.limit - lastBorder block) = block.size by
        unfold Region.limit at *; omega]
      exact tiled.tiling
    rw [Nat.add_sub_cancel' (by omega)] at cut
    have swapped := tiling_upperSlice.mp (cut.perm (List.Perm.swap _ _ _))
    exact swapped.perm perm_middle
  · have header : abi.headerSize ≤ 4096 := by cases abi <;> decide
    obtain ⟨baseAligned, sizeAligned, roomy, inside⟩ := fine
    refine ⟨baseAligned, ?_, ?_, ?_⟩
    · unfold allocAlign pageSize at *
      dsimp only
      omega
    · unfold pageSize at *
      dsimp only
      omega
    · unfold Region.limit at *
      dsimp only
      omega
  · rcases mem_append.mp member with slice | old
    · have inSlices := mem_append_right (lowerSlice block) slice
      exact (slices_fine fine whole inSlices (room tile inSlices)).1
    · exact tiled.fine tile (mem_cons_of_mem _ old)

/-- The slices of a tile tile what is left without its whole pages. -/
theorem Tiled.slices (tiled : Tiled abi head owned (block :: tiles))
    (whole : firstBorder block < lastBorder block)
    (room : ∀ slice ∈ lowerSlice block ++ upperSlice block, abi.headerSize ≤ slice.size) :
    Tiled abi head
      (owned \ (⟨firstBorder block, lastBorder block - firstBorder block⟩ : Region).bytes)
      (lowerSlice block ++ upperSlice block ++ tiles) := by
  obtain ⟨lower, upper, -, -⟩ := borders_bounds block
  have fine := tiled.fine block mem_cons_self
  refine ⟨?_, fun tile member => ?_, fun inside => tiled.outside.1 inside.1,
    fun inside => tiled.outside.2 inside.1⟩
  · have cut : Tiling owned (⟨block.base, firstBorder block - block.base⟩ ::
        ⟨block.base + (firstBorder block - block.base), lastBorder block - firstBorder block⟩ ::
          (upperSlice block ++ tiles)) := by
      refine Tiling.cut_iff.mp ?_
      rw [show firstBorder block - block.base + (lastBorder block - firstBorder block) =
        lastBorder block - block.base by omega]
      exact (tiled.cutUpper whole room).tiling
    rw [Nat.add_sub_cancel' lower] at cut
    have removed := (Tiling.cons_iff.mp (cut.perm (List.Perm.swap _ _ _))).2
    rw [append_assoc]
    exact tiling_lowerSlice.mp removed
  · rcases mem_append.mp member with slice | old
    · exact (slices_fine fine whole slice (room tile slice)).1
    · exact tiled.fine tile (mem_cons_of_mem _ old)

/-! ### `__free` -/

/-- What has happened when `__free` comes to returning pages: the block is on the list, joined with
its neighbours, and the other objects have the blocks they had. -/
structure Merged (abi : Abi) (head : Nat) (usage : Usage) (object : Object) (free : List Region)
    (mem : Memory) (front : List Region) (joined : Region) (back : List Region) : Prop where
  represents : Represents abi head mem (front ++ joined :: back)
  placed : Placed abi head usage.owned front joined back
    ((usage.live.erase object).map (Object.block abi usage.mem))
  same : (usage.live.erase object).map (Object.block abi mem) =
    (usage.live.erase object).map (Object.block abi usage.mem)
  extent : Extent abi head usage.mem (object.block abi usage.mem) joined
  old : ∀ other ∈ front ++ back, other ∈ free
  frame : Set.EqOn mem usage.mem (territory abi head usage.owned)ᶜ

/-- `__free` up to returning pages. -/
theorem Invariant.merge (invariant : Invariant abi head usage free) {object : Object}
    (member : object ∈ usage.live) {fuel : Nat} (enough : free.length < fuel) :
    ∃ after front joined back, FreeList.free abi head fuel object.obj usage.mem =
        some (returnPages abi joined.base after) ∧
      Merged abi head usage object free after front joined back := by
  obtain ⟨freePositive, flagsAbove, nodeAbove, wordPositive, headerFits⟩ := abi.header_fields
  generalize isBlock : object.block abi usage.mem = block
  generalize isRest : (usage.live.erase object).map (Object.block abi usage.mem) = rest
  have base : header abi object.obj = block.base := by rw [← isBlock]; rfl
  have size : usage.mem block.base = block.size := by rw [← base, ← isBlock]; rfl
  have tiled : Tiled abi head usage.owned (block :: (free ++ rest)) := by
    refine invariant.tiled.perm ?_
    have erased := (perm_cons_erase member).map (Object.block abi usage.mem)
    rw [map_cons, isBlock, isRest] at erased
    exact (erased.append_left free).trans perm_middle
  have listed : Tiled abi head usage.owned ((block :: free) ++ rest) := tiled
  have blockListed : block.base ∈ (block :: free).map Region.base := mem_cons_self
  have fresh : ∀ other ∈ free, other.base ≠ block.base := fun other inList =>
    tiled.base_ne other (mem_append_left _ inList)
  have started : During abi head ((block :: free).map Region.base) usage.mem usage.mem free :=
    During.start invariant.represents fun other inList =>
      mem_cons_of_mem _ (mem_map_of_mem inList)
  have marked := started.write listed.headers 1 blockListed
    (show abi.freeOffset < abi.headerSize by omega) (Or.inl fresh)
  obtain ⟨front, back, inserted, rfl, below, above, found, linked⟩ :=
    marked.insertInOrder listed.headers
    blockListed fresh (by rw [Function.update_of_ne (by omega), size]) enough
  have placed := tiled.placed invariant.ascending below above
  obtain ⟨lowered, down, loweredDuring⟩ := linked.mergeDown listed.headers placed.small.1
  have joinedDuring := loweredDuring.mergeUp listed.headers placed.joinDown.small.2
  refine ⟨_, _, (joinUp (joinDown front block).2 back).1, _, ?_,
    joinedDuring.represents, ?_, ?_, ?_, placed.joins_subset,
    joinedDuring.frame.mono (Set.compl_subset_compl.mpr listed.headerCells_subset)⟩
  · rw [FreeList.free, base, found, joinUp_base]
    simp only [down]
  · rw [isRest]
    exact placed.joinDown.joinUp
  · subst isRest
    exact listed.objects joinedDuring.frame
  · rw [isBlock]
    exact placed.extent invariant.represents

namespace Merged

variable {object : Object} {joined : Region}

/-- The other objects stay as large as they were asked for. -/
theorem holds (merged : Merged abi head usage object free mem front joined back) {after : Memory}
    (same : (usage.live.erase object).map (Object.block abi after) =
      (usage.live.erase object).map (Object.block abi mem))
    (held : usage.Holds abi) {owned : Set Nat} :
    Usage.Holds abi ⟨after, usage.live.erase object, owned⟩ := by
  intro other member
  rw [map_inj_left.mp (same.trans merged.same) other member]
  exact held other (mem_of_mem_erase member)

/-- A region without whole pages stays on the list. -/
theorem keep (merged : Merged abi head usage object free mem front joined back)
    (held : usage.Holds abi) (none : ¬ firstBorder joined < lastBorder joined) :
    returnPages abi joined.base mem = (Option.none, mem) ∧
      Invariant abi head ⟨mem, usage.live.erase object, usage.owned⟩ (front ++ joined :: back) := by
  refine ⟨returnPages_none (merged.placed.tiled.fine joined mem_cons_self).inside
    (merged.represents.sizes joined (by simp)) none, merged.represents, merged.placed.ascending, ?_,
    merged.holds rfl held⟩
  rw [Usage.blocks, merged.same]
  exact merged.placed.tiled.perm (perm_middle.symm.append_right _)

/-- The whole pages of a region are passed on, and its slices stay on the list. -/
theorem giveBack (merged : Merged abi head usage object free mem front joined back)
    (held : usage.Holds abi) (whole : firstBorder joined < lastBorder joined)
    (room : ∀ slice ∈ lowerSlice joined ++ upperSlice joined, abi.headerSize ≤ slice.size) :
    ∃ flags after, returnPages abi joined.base mem =
        (some ⟨firstBorder joined, lastBorder joined - firstBorder joined, flags, 0⟩, after) ∧
      Invariant abi head ⟨after, usage.live.erase object, usage.owned \
          (⟨firstBorder joined, lastBorder joined - firstBorder joined⟩ : Region).bytes⟩
        (front ++ lowerSlice joined ++ upperSlice joined ++ back) ∧
      (usage.live.erase object).map (Object.block abi after) =
        (usage.live.erase object).map (Object.block abi usage.mem) := by
  obtain ⟨represents, ⟨ascending, tiled⟩, same, -, -, -⟩ := id merged
  obtain ⟨lower, upper, -, -⟩ := borders_bounds joined
  have fine := tiled.fine joined mem_cons_self
  rw [← same] at tiled
  have listed : Tiled abi head usage.owned
      ((⟨joined.base, lastBorder joined - joined.base⟩ :: (upperSlice joined ++ (front ++ back))) ++
        (usage.live.erase object).map (Object.block abi mem)) := by
    rw [cons_append, append_assoc]
    exact tiled.cutUpper whole room
  have started : During abi head ((⟨joined.base, lastBorder joined - joined.base⟩ ::
      (upperSlice joined ++ (front ++ back))).map Region.base) mem mem
        (front ++ joined :: back) := by
    refine During.start represents fun other member => ?_
    rcases mem_cons.mp (perm_middle.mem_iff.mp member) with rfl | old
    · exact mem_cons_self
    · exact mem_cons_of_mem _ (mem_map_of_mem (mem_append_right _ old))
  obtain ⟨flags, after, returned, ended⟩ := started.returnPages listed.headers fine.inside whole
    fun above => by
      have isSlice : (⟨lastBorder joined, joined.limit - lastBorder joined⟩ : Region) ∈
          upperSlice joined := by
        rw [upperSlice, if_pos above]
        exact mem_singleton_self _
      refine ⟨mem_cons_of_mem _ (mem_map_of_mem (mem_append_left _ isSlice)),
        fun other member => ?_⟩
      rcases mem_cons.mp (perm_middle.mem_iff.mp member) with rfl | old
      · omega
      · have cut := tiled.slices whole room
        rw [upperSlice, if_pos above, append_assoc, singleton_append] at cut
        exact (cut.perm perm_middle).base_ne other (mem_append_right _ (mem_append_left _ old))
  have kept := listed.objects ended.frame
  refine ⟨flags, after, returned, ⟨ended.represents, ?_, ?_, merged.holds kept held⟩,
    kept.trans same⟩
  · rw [append_assoc front]
    exact ascending.replace (ascending_slices whole) fun slice member =>
      (slices_fine fine whole member (room slice member)).2
  · rw [Usage.blocks, kept]
    refine (tiled.slices whole room).perm ?_
    simpa only [append_assoc] using
      perm_append_comm_assoc (lowerSlice joined ++ upperSlice joined) front (back ++ _)

end Merged

end FreeList

end AIMv6
