/-
This file states the invariant of the free-list allocator and proves that `__alloc` keeps it.

The free blocks and the blocks of the live objects tile the memory that `alloc_pages` has
granted and that has not been returned. The blocks are aligned and large enough for their
headers, the free ones are represented by the memory in the order of their addresses, and
the list head lies outside. `__alloc` keeps all of this when it finds a block that is large
enough, and when the pages it asks for have room for the block. The source asks for pages by
the rounded size of the request without the header, so the latter is a condition.
-/

import AIMv6.FreeListCalls

namespace AIMv6

open List Region

namespace FreeList

/-- An object that has been handed out: its address and the size it was asked for with. -/
structure Object where
  obj : Nat
  size : Nat
  deriving DecidableEq, Repr

/-- The block of an object, by the size in its header. -/
def Object.block (abi : Abi) (mem : Memory) (object : Object) : Region :=
  ⟨header abi object.obj, mem (header abi object.obj)⟩

/-- The memory with what its users know: the live objects, and the addresses of the pages that
have been granted and not returned. -/
structure Usage where
  mem : Memory
  live : List Object
  owned : Set Nat

/-- The blocks of the live objects. -/
def Usage.blocks (abi : Abi) (usage : Usage) : List Region :=
  usage.live.map (Object.block abi usage.mem)

/-- A block that can hold its header, below the last page of the address space. -/
structure Fine (abi : Abi) (block : Region) : Prop where
  baseAligned : block.base % allocAlign = 0
  sizeAligned : block.size % allocAlign = 0
  roomy : abi.headerSize ≤ block.size
  inside : block.limit + pageSize ≤ abi.modulus

/-- Blocks that make up the memory that is owned, which the list head is not part of. -/
structure Tiled (abi : Abi) (head : Nat) (owned : Set Nat) (tiles : List Region) : Prop where
  tiling : Tiling owned tiles
  fine : ∀ tile ∈ tiles, Fine abi tile
  outside : head ∉ owned ∧ head + abi.wordSize ∉ owned

/-- The block of every object holds a header and what was asked for. -/
def Usage.Holds (abi : Abi) (usage : Usage) : Prop :=
  ∀ object ∈ usage.live, abi.headerSize ≤ object.obj ∧
    abi.headerSize + object.size ≤ (object.block abi usage.mem).size

/-- What holds between the calls, with the list of the free blocks. -/
structure Invariant (abi : Abi) (head : Nat) (usage : Usage) (free : List Region) : Prop where
  represents : Represents abi head usage.mem free
  ascending : Ascending free
  tiled : Tiled abi head usage.owned (free ++ usage.blocks abi)
  holds : usage.Holds abi

variable {abi : Abi} {head : Nat} {blocks : List Nat} {initial mem : Memory} {usage : Usage}
  {free front back tiles : List Region} {block : Region} {owned : Set Nat}

/-! ### Headers of tiles -/

theorem Fine.positive (fine : Fine abi block) : 0 < block.size := by
  obtain ⟨freePositive, flagsAbove, nodeAbove, wordPositive, fits⟩ := abi.header_fields
  exact lt_of_lt_of_le (by omega) fine.roomy

theorem Fine.base_mem (fine : Fine abi block) : block.base ∈ block.bytes :=
  Region.base_mem fine.positive

theorem Fine.base_ne {other : Region} (fine : Fine abi block) (otherFine : Fine abi other)
    (disjoint : Disjoint block.bytes other.bytes) : block.base ≠ other.base := fun same =>
  Set.disjoint_left.mp disjoint fine.base_mem (same ▸ otherFine.base_mem)

namespace Tiled

variable {listed live others : List Region}

theorem perm (tiled : Tiled abi head owned tiles) (same : tiles.Perm others) :
    Tiled abi head owned others :=
  ⟨tiled.tiling.perm same, fun tile member => tiled.fine tile (same.mem_iff.mpr member),
    tiled.outside⟩

variable {first second tile : Region}

theorem ordered (tiled : Tiled abi head owned tiles) (firstMember : first ∈ tiles)
    (secondMember : second ∈ tiles) (different : first ≠ second) :
    first.limit ≤ second.base ∨ second.limit ≤ first.base :=
  (disjoint_iff (tiled.fine first firstMember).positive
    (tiled.fine second secondMember).positive).mp
    (tiled.tiling.apart.forall firstMember secondMember different)

theorem eq_of_overlap (tiled : Tiled abi head owned tiles) (firstMember : first ∈ tiles)
    (secondMember : second ∈ tiles) (above : second.base < first.limit)
    (below : first.base < second.limit) : first = second := by
  by_contra different
  have ordered := tiled.ordered firstMember secondMember different
  omega

theorem base_lt (tiled : Tiled abi head owned tiles) (member : tile ∈ tiles) :
    tile.base < tile.limit :=
  Nat.lt_add_of_pos_right (tiled.fine tile member).positive

theorem base_ne (tiled : Tiled abi head owned (block :: tiles)) :
    ∀ other ∈ tiles, other.base ≠ block.base := fun other member =>
  Ne.symm ((tiled.fine block mem_cons_self).base_ne (tiled.fine other (mem_cons_of_mem _ member))
    ((pairwise_cons.mp tiled.tiling.apart).1 other member))

theorem add (tiled : Tiled abi head owned tiles) (fresh : Disjoint block.bytes owned)
    (fine : Fine abi block) (outside : head ∉ block.bytes ∧ head + abi.wordSize ∉ block.bytes) :
    Tiled abi head (block.bytes ∪ owned) (block :: tiles) :=
  ⟨tiled.tiling.add fresh, forall_mem_cons.mpr ⟨fine, tiled.fine⟩,
    fun inside => inside.elim outside.1 tiled.outside.1,
    fun inside => inside.elim outside.2 tiled.outside.2⟩

/-- A call that works on the headers of some tiles finds them in order. -/
theorem headers (tiled : Tiled abi head owned (listed ++ live)) :
    Headers abi head (listed.map Region.base) := by
  constructor
  · intro first firstMember second secondMember different
    obtain ⟨firstTile, firstInside, rfl⟩ := mem_map.mp firstMember
    obtain ⟨secondTile, secondInside, rfl⟩ := mem_map.mp secondMember
    have ordered := tiled.ordered (mem_append_left _ firstInside)
      (mem_append_left _ secondInside) fun same => different (congrArg Region.base same)
    have firstRoomy := (tiled.fine firstTile (mem_append_left _ firstInside)).roomy
    have secondRoomy := (tiled.fine secondTile (mem_append_left _ secondInside)).roomy
    unfold Region.limit at ordered
    omega
  · intro base member offset bound
    obtain ⟨tile, inside, rfl⟩ := mem_map.mp member
    have cell : tile.base + offset ∈ owned := tiled.tiling.subset (mem_append_left _ inside)
      (mem_bytes.mpr ⟨Nat.le_add_right _ _, by
        have := (tiled.fine tile (mem_append_left _ inside)).roomy
        omega⟩)
    exact ⟨fun same => tiled.outside.1 (same ▸ cell), fun same => tiled.outside.2 (same ▸ cell)⟩

/-- A call that works on the headers of some tiles leaves the headers of the others alone. -/
theorem frame (tiled : Tiled abi head owned (listed ++ live))
    (frame : Set.EqOn mem initial (headerCells abi head (listed.map Region.base))ᶜ)
    (member : tile ∈ live) : mem tile.base = initial tile.base := by
  have inside := (tiled.fine tile (mem_append_right _ member)).base_mem
  have inOwned := tiled.tiling.subset (mem_append_right _ member) inside
  refine frame ?_
  rintro (isHead | isHead | ⟨base, baseMember, offset, bound, same⟩)
  · exact tiled.outside.1 (isHead ▸ inOwned)
  · exact tiled.outside.2 (isHead ▸ inOwned)
  · obtain ⟨other, otherMember, rfl⟩ := mem_map.mp baseMember
    have room := (tiled.fine other (mem_append_left _ otherMember)).roomy
    refine Set.disjoint_left.mp
      ((pairwise_append.mp tiled.tiling.apart).2.2 other otherMember tile member) ?_ inside
    rw [same]
    exact mem_bytes.mpr ⟨Nat.le_add_right _ _, by omega⟩

/-- The blocks of objects whose headers are left alone stay as they are. -/
theorem objects {objects : List Object}
    (tiled : Tiled abi head owned (listed ++ objects.map (Object.block abi initial)))
    (frame : Set.EqOn mem initial (headerCells abi head (listed.map Region.base))ᶜ) :
    objects.map (Object.block abi mem) = objects.map (Object.block abi initial) := by
  refine map_congr_left fun object member => ?_
  exact congrArg (Region.mk (header abi object.obj))
    (tiled.frame frame (mem_map_of_mem (f := Object.block abi initial) member))

end Tiled

/-! ### Cutting a block down -/

theorem cutBlock_base (need : Nat) : (cutBlock abi block need).1.base = block.base := by
  unfold cutBlock
  split <;> rfl

variable {need size fuel : Nat}

theorem le_cutBlock_size (fits : need ≤ block.size) : need ≤ (cutBlock abi block need).1.size := by
  unfold cutBlock
  split
  · exact le_rfl
  · exact fits

theorem mem_cutBlock_rest {rest : Region} (member : rest ∈ (cutBlock abi block need).2) :
    rest = ⟨block.base + need, block.size - need⟩ := by
  unfold cutBlock at member
  split at member
  · exact mem_singleton.mp member
  · cases member

/-- What is left of a block lies inside it. -/
theorem ascending_cutBlock (fits : need ≤ block.size)
    (ascending : Ascending (front ++ block :: back)) :
    Ascending (front ++ (cutBlock abi block need).2 ++ back) := by
  refine ascending.replace ?_ fun part member => ?_
  · unfold cutBlock
    split
    · exact pairwise_singleton _ _
    · exact List.Pairwise.nil
  · rw [mem_cutBlock_rest member]
    exact ⟨Nat.le_add_right _ _, by unfold Region.limit; dsimp only; omega⟩

/-- A block that is cut down, and what is left of it. -/
def cutParts (abi : Abi) (block : Region) (need : Nat) : List Region :=
  (cutBlock abi block need).1 :: (cutBlock abi block need).2

theorem Tiled.cut (tiled : Tiled abi head owned (block :: tiles)) (fits : need ≤ block.size)
    (aligned : need % allocAlign = 0) (room : abi.headerSize ≤ need) :
    Tiled abi head owned (cutParts abi block need ++ tiles) := by
  obtain ⟨baseAligned, sizeAligned, roomy, inside⟩ := tiled.fine block mem_cons_self
  unfold Region.limit at inside
  unfold cutParts cutBlock
  split
  · rename_i large
    refine ⟨Tiling.cut_iff.mp ?_, fun tile member => ?_, tiled.outside⟩
    · rw [Nat.add_sub_cancel' fits]
      exact tiled.tiling
    · simp only [cons_append, nil_append, mem_cons] at member
      rcases member with rfl | rfl | old
      · exact ⟨baseAligned, aligned, room, by unfold Region.limit; dsimp only; omega⟩
      · refine ⟨?_, ?_, by dsimp only; omega, ?_⟩
        · dsimp only
          unfold allocAlign at *
          omega
        · dsimp only
          unfold allocAlign at *
          omega
        · unfold Region.limit
          dsimp only
          omega
      · exact tiled.fine tile (mem_cons_of_mem _ old)
  · exact tiled

/-- A block at its place among the free blocks, which together with the live blocks make up the
memory that is owned. -/
structure Placed (abi : Abi) (head : Nat) (owned : Set Nat) (front : List Region) (block : Region)
    (back live : List Region) : Prop where
  ascending : Ascending (front ++ block :: back)
  tiled : Tiled abi head owned (block :: ((front ++ back) ++ live))

theorem Invariant.placed (invariant : Invariant abi head usage (front ++ block :: back)) :
    Placed abi head usage.owned front block back (usage.blocks abi) :=
  ⟨invariant.ascending, invariant.tiled.perm (perm_middle.append_right _)⟩

variable {live : List Region} {kva : Nat → Nat} {flags : Nat}

/-- A tile that is inserted in front of the first block above it is at its place. -/
theorem Tiled.placed (tiled : Tiled abi head owned (block :: ((front ++ back) ++ live)))
    (ascending : Ascending (front ++ back)) (below : ∀ other ∈ front, other.base < block.base)
    (above : ∀ other ∈ back.head?, block.base ≤ other.base) :
    Placed abi head owned front block back live := by
  refine ⟨ascending.insert (fun other member => (tiled.fine other ?_).positive)
    (fun other member => (pairwise_cons.mp tiled.tiling.apart).1 other
      (mem_append_left _ member)) below above, tiled⟩
  rcases mem_cons.mp member with rfl | old
  · exact mem_cons_self
  · exact mem_cons_of_mem _ (mem_append_left _ old)

/-- The cells a call may write: those of the list head, and those that are owned. -/
def territory (abi : Abi) (head : Nat) (owned : Set Nat) : Set Nat :=
  {address | address = head ∨ address = head + abi.wordSize ∨ address ∈ owned}

theorem Tiled.headerCells_subset {listed : List Region}
    (tiled : Tiled abi head owned (listed ++ live)) :
    headerCells abi head (listed.map Region.base) ⊆ territory abi head owned := by
  rintro address (isHead | isHead | ⟨base, member, offset, bound, rfl⟩)
  · exact Or.inl isHead
  · exact Or.inr (Or.inl isHead)
  · obtain ⟨tile, inside, rfl⟩ := mem_map.mp member
    have roomy := (tiled.fine tile (mem_append_left _ inside)).roomy
    exact Or.inr (Or.inr (tiled.tiling.subset (mem_append_left _ inside)
      (mem_bytes.mpr ⟨Nat.le_add_right _ _, by omega⟩)))

/-- What handing out a block leaves: the invariant with one more object, whose block is no larger
than it has to be, and the other objects in their blocks. -/
structure HandedOut (abi : Abi) (head : Nat) (usage : Usage) (owned : Set Nat) (need size obj : Nat)
    (after : Memory) (left : List Region) : Prop where
  invariant : Invariant abi head ⟨after, ⟨obj, size⟩ :: usage.live, owned⟩ left
  snug : (Object.block abi after ⟨obj, size⟩).size < need + (abi.headerSize + allocAlign)
  same : usage.live.map (Object.block abi after) = usage.blocks abi
  frame : Set.EqOn after usage.mem (territory abi head owned)ᶜ

/-- The front of a block is handed out, and what is left of the block stays on the list. -/
structure CutFrom (abi : Abi) (head : Nat) (usage : Usage) (owned : Set Nat) (need size : Nat)
    (front : List Region) (block : Region) (back : List Region) (after : Memory) : Prop where
  handedOut : HandedOut abi head usage owned need size (payload abi block.base) after
    (front ++ (cutBlock abi block need).2 ++ back)
  isBlock : Object.block abi after ⟨payload abi block.base, size⟩ = (cutBlock abi block need).1

theorem cutBlock_size_lt (fits : need ≤ block.size) :
    (cutBlock abi block need).1.size < need + (abi.headerSize + allocAlign) := by
  obtain ⟨freePositive, flagsAbove, nodeAbove, wordPositive, bound⟩ := abi.header_fields
  unfold cutBlock
  split
  · dsimp only
    omega
  · dsimp only
    omega

/-- Cutting a block of the list down hands out its front. -/
theorem Placed.handOut (placed : Placed abi head owned front block back (usage.blocks abi))
    (during : During abi head ((cutParts abi block need ++ (front ++ back)).map Region.base)
      usage.mem mem (front ++ block :: back))
    (holds : usage.Holds abi) (fits : need ≤ block.size) (aligned : need % allocAlign = 0)
    (room : abi.headerSize + size ≤ need) :
    CutFrom abi head usage owned need size front block back
      (FreeList.cutDown abi block.base need mem) := by
  have blockFine := placed.tiled.fine block mem_cons_self
  have cutTiled : Tiled abi head owned
      ((cutParts abi block need ++ (front ++ back)) ++ usage.blocks abi) := by
    rw [append_assoc]
    exact placed.tiled.cut fits aligned (by omega)
  obtain ⟨after, newSize⟩ := during.cutDown cutTiled.headers fits (by
    have inside := blockFine.inside
    unfold pageSize at inside
    omega) fun large => by
      have part : (⟨block.base + need, block.size - need⟩ :
          Region) ∈ (cutBlock abi block need).2 := by
        rw [cutBlock, if_pos large]
        exact mem_singleton_self _
      have inParts : (⟨block.base + need, block.size - need⟩ : Region) ∈ cutParts abi block need :=
        mem_cons_of_mem _ part
      refine ⟨mem_map_of_mem (mem_append_left (front ++ back) inParts), fun other member => ?_⟩
      rcases mem_cons.mp (perm_middle.mem_iff.mp member) with rfl | old
      · have header := abi.header_fields
        omega
      · have apart := (pairwise_append.mp
          (pairwise_append.mp cutTiled.tiling.apart).1).2.2 _ inParts other old
        exact (cutTiled.fine other (by simp only [mem_append] at old ⊢; tauto)).base_ne
          (cutTiled.fine _ (mem_append_left _ (mem_append_left _ inParts))) apart.symm
  have liveSame := cutTiled.objects after.frame
  have newBlock : Object.block abi (FreeList.cutDown abi block.base need mem)
      ⟨payload abi block.base, size⟩ = (cutBlock abi block need).1 := by
    rw [Object.block, header, payload, Nat.add_sub_cancel, newSize, ← cutBlock_base need]
  have allBlocks : Usage.blocks abi ⟨FreeList.cutDown abi block.base need mem,
      ⟨payload abi block.base, size⟩ :: usage.live, owned⟩ =
        (cutBlock abi block need).1 :: usage.blocks abi := by
    rw [Usage.blocks, map_cons, newBlock]
    exact congrArg _ liveSame
  have same : ((cutParts abi block need ++ (front ++ back)) ++ usage.blocks abi).Perm
      ((front ++ (cutBlock abi block need).2 ++ back) ++
        (cutBlock abi block need).1 :: usage.blocks abi) := by
    rw [append_assoc front]
    refine List.Perm.trans ?_ perm_middle.symm
    exact ((perm_append_comm_assoc _ front back).append_right _).cons _
  refine ⟨⟨⟨after.represents, ascending_cutBlock fits placed.ascending, ?_, ?_⟩, ?_, liveSame,
    after.frame.mono (Set.compl_subset_compl.mpr cutTiled.headerCells_subset)⟩, newBlock⟩
  · rw [allBlocks]
    exact cutTiled.perm same
  · intro object member
    rcases mem_cons.mp member with rfl | old
    · rw [newBlock]
      exact ⟨Nat.le_add_left _ _, room.trans (le_cutBlock_size fits)⟩
    · rw [map_inj_left.mp liveSame object old]
      exact holds object old
  · rw [newBlock]
    exact cutBlock_size_lt fits

/-! ### `__alloc` -/

/-- The sizes `__alloc` computes for a request that does not wrap. -/
theorem request_sizes (small : size + abi.headerSize + pageSize < abi.modulus) :
    allocSize abi size = (size + 15) / 16 * 16 + abi.headerSize ∧
      pagesSize abi size = ((size + 15) / 16 * 16 + 4095) / 4096 * 4096 := by
  obtain ⟨freePositive, flagsAbove, nodeAbove, wordPositive, headerFits⟩ := abi.header_fields
  have header : 32 ≤ abi.headerSize := by cases abi <;> decide
  have modulus : abi.modulus = 2 ^ abi.bits := rfl
  have page : pageSize = 4096 := rfl
  have rounded : alignAbove abi.bits size allocAlign = (size + 15) / 16 * 16 := by
    rw [show allocAlign = 2 ^ 4 from rfl]
    exact alignAbove_of_room (by omega)
  refine ⟨?_, ?_⟩
  · rw [allocSize, rounded, Nat.mod_eq_of_lt (by omega)]
  · rw [pagesSize, rounded, show pageSize = 2 ^ 12 from rfl]
    exact alignAbove_of_room (by omega)

/-- What `alloc_pages` promises about the pages it grants: they begin at a page border, they are
not in use, and the list head does not lie in them. -/
structure Granted (abi : Abi) (head : Nat) (usage : Usage) (pages : Region) : Prop where
  aligned : pages.base % pageSize = 0
  fresh : Disjoint pages.bytes usage.owned
  outside : head ∉ pages.bytes ∧ head + abi.wordSize ∉ pages.bytes

/-- Granted pages that end below the top of the address space make a fine block. -/
theorem Granted.fine {pages : Region} (granted : Granted abi head usage pages)
    (inside : pages.limit < abi.modulus) (whole : pages.size % pageSize = 0)
    (roomy : abi.headerSize ≤ pages.size) : Fine abi pages := by
  obtain ⟨aligned, -, -⟩ := granted
  have modulus : abi.modulus % 4096 = 0 := by cases abi <;> decide
  refine ⟨?_, ?_, roomy, ?_⟩
  · unfold pageSize at aligned
    unfold allocAlign
    omega
  · unfold pageSize at whole
    unfold allocAlign
    omega
  · unfold pageSize Region.limit at *
    omega

/-- The search of `__alloc` ends at a block that is large enough, or at the list head when none
is. -/
theorem Represents.firstFit (represents : Represents abi head mem free) {fuel need : Nat}
    (enough : free.length < fuel) :
    (∃ front block back, free = front ++ block :: back ∧ need ≤ block.size ∧
      (∀ other ∈ front, other.size < need) ∧ node abi block.base ≠ head ∧
      Ring.seek mem head (fun this => need ≤ mem (entry abi this)) fuel (mem head) =
        some (node abi block.base)) ∨
    (∀ block ∈ free, block.size < need) ∧
      Ring.seek mem head (fun this => need ≤ mem (entry abi this)) fuel (mem head) = some head := by
  obtain ⟨front, back, rfl, passed, stops, found⟩ := represents.seek
    (fun this => need ≤ mem (entry abi this)) enough
  have smaller : ∀ block ∈ front, block.size < need := by
    intro block member
    have small := passed block member
    rw [entry_node, represents.sizes block (mem_append_left _ member)] at small
    exact Nat.lt_of_not_le (of_decide_eq_false small)
  rcases back with _ | ⟨block, rest⟩
  · refine Or.inr ⟨fun block member => ?_, found⟩
    rw [append_nil] at member
    exact smaller block member
  · have large := stops block rfl
    rw [entry_node, represents.sizes block (by simp)] at large
    refine Or.inl ⟨front, block, rest, rfl, of_decide_eq_true large, smaller, ?_, found⟩
    rintro same
    refine (nodup_cons.mp represents.ring.separate.nodup).1 ?_
    rw [nodes_append, nodes_cons, same]
    exact mem_append_right _ mem_cons_self

theorem allocSize_fits (small : size + abi.headerSize + pageSize < abi.modulus) :
    allocSize abi size % allocAlign = 0 ∧ abi.headerSize + size ≤ allocSize abi size := by
  have header : abi.headerSize % 16 = 0 := by cases abi <;> decide
  rw [(request_sizes small).1]
  unfold allocAlign
  omega

section AllocFirst

variable (invariant : Invariant abi head usage free) {kva : Nat → Nat} {fuel size flags : Nat}
  {answer : Option Nat}
  (request : allocSize abi size % allocAlign = 0 ∧ abi.headerSize + size ≤ allocSize abi size)
  (enough : free.length < fuel) (fit : ∃ block ∈ free, allocSize abi size ≤ block.size)

include invariant request enough fit

/-- When a block on the list is large enough `__alloc` hands out the front of the first such
block. -/
theorem Invariant.alloc_first :
    ∃ front block back after, free = front ++ block :: back ∧ allocSize abi size ≤ block.size ∧
      (∀ other ∈ front, other.size < allocSize abi size) ∧
      alloc abi kva head fuel size flags answer usage.mem =
        some ⟨some (payload abi block.base), after, none⟩ ∧
      CutFrom abi head usage usage.owned (allocSize abi size) size front block back after := by
  obtain ⟨aligned, room⟩ := request
  rcases @Represents.firstFit _ _ _ _ invariant.represents _ (allocSize abi size)
    enough with ⟨front, block, back, rfl, large, smaller, notHead, found⟩ | ⟨none, -⟩
  · refine ⟨front, block, back, FreeList.cutDown abi block.base (allocSize abi size) usage.mem,
      rfl, large,
      smaller, ?_, invariant.placed.handOut
        (During.start invariant.represents fun other member => ?_)
        invariant.holds large aligned room⟩
    · rw [alloc, found]
      simp only [if_neg notHead, entry_node]
    · rcases mem_cons.mp (perm_middle.mem_iff.mp member) with rfl | old
      · rw [← cutBlock_base (allocSize abi size)]
        exact mem_map_of_mem (mem_append_left _ mem_cons_self)
      · exact mem_map_of_mem (mem_append_right _ old)
  · obtain ⟨block, member, large⟩ := fit
    exact absurd (none block member) (not_lt.mpr large)

theorem Invariant.alloc_found :
    ∃ obj after left,
      alloc abi kva head fuel size flags answer usage.mem = some ⟨some obj, after, none⟩ ∧
      HandedOut abi head usage usage.owned (allocSize abi size) size obj after left := by
  obtain ⟨front, block, back, after, -, -, -, returned, cutFrom⟩ :=
    @Invariant.alloc_first _ _ _ _ invariant kva _ _ flags answer request enough fit
  exact ⟨_, after, _, returned, cutFrom.handedOut⟩

end AllocFirst

theorem size_lt_of_no_fit (fit : ¬ ∃ block ∈ free, need ≤ block.size) :
    ∀ block ∈ free, block.size < need := by
  push Not at fit
  exact fit

/-- When no block on the list is large enough the search ends at the list head. -/
theorem Represents.noFit (represents : Represents abi head mem free) (enough : free.length < fuel)
    (none : ∀ block ∈ free, block.size < need) :
    Ring.seek mem head (fun this => need ≤ mem (entry abi this)) fuel (mem head) = some head := by
  rcases @Represents.firstFit _ _ _ _ represents _ need enough with
    ⟨front, block, back, rfl, fit, -, -⟩ | ⟨-, found⟩
  · exact absurd (none block (by simp)) (not_lt.mpr fit)
  · exact found

section TakePages

variable (invariant : Invariant abi head usage free) {kva : Nat → Nat} {fuel size flags paddr : Nat}
  (small : size + abi.headerSize + pageSize < abi.modulus) (enough : free.length < fuel)
  (granted : Granted abi head usage ⟨kva paddr, pagesSize abi size⟩)
  (inside : (⟨kva paddr, pagesSize abi size⟩ : Region).limit < abi.modulus)
  (large : allocSize abi size ≤ pagesSize abi size)

include invariant small enough granted inside large

/-- Pages that are granted and have room for a block are taken in, and their front is handed out. -/
theorem Invariant.takePages_parts :
    ∃ front back after, free = front ++ back ∧
      takePages abi kva head fuel size flags paddr usage.mem =
        some (payload abi (kva paddr), after) ∧
      CutFrom abi head usage ((⟨kva paddr, pagesSize abi size⟩ : Region).bytes ∪ usage.owned)
        (allocSize abi size) size front ⟨kva paddr, pagesSize abi size⟩ back after := by
  obtain ⟨aligned, room⟩ := allocSize_fits small
  generalize pagesIs : (⟨kva paddr, pagesSize abi size⟩ : Region) = pages at granted inside
  have base : pages.base = kva paddr := by rw [← pagesIs]
  have total : pages.size = pagesSize abi size := by rw [← pagesIs]
  have fits : allocSize abi size ≤ pages.size := by omega
  have pagesFine : Fine abi pages := granted.fine inside
    (by rw [total, (request_sizes small).2]; exact Nat.mul_mod_left _ _) (by omega)
  have tiled : Tiled abi head (pages.bytes ∪ usage.owned) (pages :: (free ++ usage.blocks abi)) :=
    invariant.tiled.add granted.fresh pagesFine granted.outside
  have cutTiled : Tiled abi head (pages.bytes ∪ usage.owned)
      ((cutParts abi pages (allocSize abi size) ++ free) ++ usage.blocks abi) := by
    rw [append_assoc]
    exact tiled.cut fits aligned (by omega)
  have pagesListed : pages.base ∈
      (cutParts abi pages (allocSize abi size) ++ free).map Region.base := by
    rw [← cutBlock_base (allocSize abi size)]
    exact mem_map_of_mem (mem_append_left _ mem_cons_self)
  have fresh : ∀ other ∈ free, other.base ≠ pages.base := fun other member =>
    tiled.base_ne other (mem_append_left _ member)
  have started : During abi head ((cutParts abi pages (allocSize abi size) ++ free).map Region.base)
      usage.mem usage.mem free := During.start invariant.represents fun other member =>
    mem_map_of_mem (mem_append_right _ member)
  obtain ⟨made, madeSize⟩ :=
    started.makeBlock cutTiled.headers pages.size (fun _ => flags) pagesListed fresh
  obtain ⟨front, back, after, split, below, above, inserted, ready⟩ := made.insertInOrder
    cutTiled.headers pagesListed fresh madeSize enough
  subst split
  rw [← base]
  refine ⟨front, back, FreeList.cutDown abi pages.base (allocSize abi size) after, rfl, ?_,
    (tiled.placed invariant.ascending below above).handOut ready invariant.holds fits aligned room⟩
  rw [FreeList.takePages, ← base, ← total, inserted]

theorem Invariant.takePages :
    ∃ obj after left, takePages abi kva head fuel size flags paddr usage.mem = some (obj, after) ∧
      HandedOut abi head usage ((⟨kva paddr, pagesSize abi size⟩ : Region).bytes ∪ usage.owned)
        (allocSize abi size) size obj after left := by
  obtain ⟨front, back, after, -, taken, cutFrom⟩ := @Invariant.takePages_parts _ _ _ _ invariant
    _ _ _ flags _ small enough granted inside large
  exact ⟨_, after, _, taken, cutFrom.handedOut⟩

end TakePages

/-- When no block on the list is large enough and pages are granted, `__alloc` takes them in. -/
theorem Represents.alloc_takePages (represents : Represents abi head mem free) {paddr : Nat}
    (enough : free.length < fuel) (none : ∀ block ∈ free, block.size < allocSize abi size) :
    alloc abi kva head fuel size flags (some paddr) mem =
      (FreeList.takePages abi kva head fuel size flags paddr mem).map fun result =>
        ⟨some result.1, result.2, some ⟨0, pagesSize abi size, flags, 0⟩⟩ := by
  rw [alloc, represents.noFit enough none]
  simp only [if_true]

/-- When no block on the list is large enough and no pages are granted, `__alloc` returns
`NULL`. -/
theorem Invariant.alloc_refused (invariant : Invariant abi head usage free)
    (enough : free.length < fuel) (none : ∀ block ∈ free, block.size < allocSize abi size) :
    alloc abi kva head fuel size flags Option.none usage.mem =
      some ⟨Option.none, usage.mem, some ⟨0, pagesSize abi size, flags, 0⟩⟩ := by
  rw [alloc, invariant.represents.noFit enough none]
  simp only [if_true]

end FreeList

end AIMv6
