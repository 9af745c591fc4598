/-
This file relates the memory of the free-list allocator to the list of free blocks it holds.

A memory represents a list of regions when the nodes of the regions, in order, are the ring
of the list head and the size fields hold the sizes. As long as no two of the headers a call
works on overlap and none of them lies on the list head, the single writes of a call are
operations on the list: linking a block in, taking one out, changing a size, or nothing at
all. `During` is what holds between two writes of a call, with the cells the call has not
touched.
-/

import AIMv6.FreeList
import AIMv6.Tiling

namespace AIMv6

open List Function

theorem Abi.header_fields (abi : Abi) :
    0 < abi.freeOffset ∧ abi.freeOffset < abi.flagsOffset ∧ abi.flagsOffset < abi.nodeOffset ∧
      0 < abi.wordSize ∧ abi.nodeOffset + abi.wordSize < abi.headerSize := by
  cases abi <;> decide

namespace FreeList

/-- Headers that overlap neither each other nor the list head. -/
structure Headers (abi : Abi) (head : Nat) (blocks : List Nat) : Prop where
  apart : ∀ first ∈ blocks, ∀ second ∈ blocks, first ≠ second →
    first + abi.headerSize ≤ second ∨ second + abi.headerSize ≤ first
  outside : ∀ block ∈ blocks, ∀ offset < abi.headerSize,
    head ≠ block + offset ∧ head + abi.wordSize ≠ block + offset

/-- The cells of the list head and of the given headers. -/
def headerCells (abi : Abi) (head : Nat) (blocks : List Nat) : Set Nat :=
  {address | address = head ∨ address = head + abi.wordSize ∨
    ∃ block ∈ blocks, ∃ offset < abi.headerSize, address = block + offset}

/-- The nodes of a list of blocks. -/
def nodes (abi : Abi) (free : List Region) : List Nat := (free.map Region.base).map (node abi)

/-- The memory holds the given free list. -/
structure Represents (abi : Abi) (head : Nat) (mem : Memory) (free : List Region) : Prop where
  ring : Ring.IsRing abi.wordSize mem head (nodes abi free)
  sizes : ∀ block ∈ free, mem block.base = block.size

/-- What holds between two writes of a call that works on the given headers. -/
structure During (abi : Abi) (head : Nat) (blocks : List Nat) (initial mem : Memory)
    (free : List Region) : Prop where
  represents : Represents abi head mem free
  known : ∀ block ∈ free, block.base ∈ blocks
  frame : Set.EqOn mem initial (headerCells abi head blocks)ᶜ

variable {abi : Abi} {head place first second base : Nat} {blocks : List Nat} {initial mem : Memory}
  {free front back : List Region} {block new : Region}

theorem mem_nodes : place ∈ nodes abi free ↔ ∃ block ∈ free, node abi block.base = place := by
  rw [nodes, map_map, mem_map]
  rfl

@[simp] theorem nodes_append : nodes abi (front ++ back) = nodes abi front ++ nodes abi back := by
  rw [nodes, nodes, nodes, map_append, map_append]

@[simp] theorem nodes_cons : nodes abi (block :: free) = node abi block.base :: nodes abi free :=
  rfl

theorem Represents.nodup (represents : Represents abi head mem free) :
    (free.map Region.base).Nodup :=
  (nodup_cons.mp represents.ring.separate.nodup).2.of_map

/-- The free list depends on the list head and on the headers of the free blocks only. -/
theorem Represents.congr {after : Memory} (represents : Represents abi head mem free)
    (same : Set.EqOn after mem (headerCells abi head (free.map Region.base))) :
    Represents abi head after free := by
  obtain ⟨-, -, -, wordPositive, fits⟩ := abi.header_fields
  have field : ∀ block ∈ free, ∀ offset < abi.headerSize,
      after (block.base + offset) = mem (block.base + offset) := fun block member offset bound =>
    same (Or.inr (Or.inr ⟨block.base, mem_map_of_mem member, offset, bound, rfl⟩))
  refine ⟨represents.ring.congr fun place member => ?_, fun block member => ?_⟩
  · rcases mem_cons.mp member with rfl | inside
    · exact ⟨same (Or.inl rfl), same (Or.inr (Or.inl rfl))⟩
    · obtain ⟨block, blockMember, rfl⟩ := mem_nodes.mp inside
      refine ⟨field block blockMember abi.nodeOffset (by omega), ?_⟩
      have link := field block blockMember (abi.nodeOffset + abi.wordSize) fits
      rwa [← add_assoc] at link
  · rw [← represents.sizes block member]
    exact field block member 0 (by omega)

theorem Headers.cell_inj (headers : Headers abi head blocks) {i j : Nat}
    (firstMember : first ∈ blocks) (secondMember : second ∈ blocks) (iBound : i < abi.headerSize)
    (jBound : j < abi.headerSize) (same : first + i = second + j) : first = second ∧ i = j := by
  by_cases equal : first = second
  · exact ⟨equal, by omega⟩
  · have apart := headers.apart first firstMember second secondMember equal
    omega

theorem During.start (represents : Represents abi head mem free)
    (known : ∀ block ∈ free, block.base ∈ blocks) : During abi head blocks mem mem free :=
  ⟨represents, known, fun _ _ => rfl⟩

/-- A write to a header changes no other cell. -/
theorem frame_write {address offset value : Nat} (member : address ∈ blocks)
    (bound : offset < abi.headerSize)
    (frame : Set.EqOn mem initial (headerCells abi head blocks)ᶜ) :
    Set.EqOn (Function.update mem (address + offset) value) initial
      (headerCells abi head blocks)ᶜ := by
  intro other outside
  rw [update_of_ne, frame outside]
  rintro rfl
  exact outside (Or.inr (Or.inr ⟨address, member, offset, bound, rfl⟩))

/-- A write that hits no size and no link of a free block changes nothing about the list. -/
theorem During.write (during : During abi head blocks initial mem free)
    (headers : Headers abi head blocks) {address offset : Nat} (value : Nat)
    (member : address ∈ blocks) (bound : offset < abi.headerSize)
    (other : (∀ block ∈ free, block.base ≠ address) ∨
      (offset ≠ 0 ∧ offset ≠ abi.nodeOffset ∧ offset ≠ abi.nodeOffset + abi.wordSize)) :
    During abi head blocks initial (Function.update mem (address + offset) value) free := by
  obtain ⟨-, -, -, wordPositive, fits⟩ := abi.header_fields
  have field : ∀ block ∈ free, ∀ place < abi.headerSize,
      (place = 0 ∨ place = abi.nodeOffset ∨ place = abi.nodeOffset + abi.wordSize) →
      block.base + place ≠ address + offset := by
    intro block blockMember place placeBound relevant same
    obtain ⟨sameBlock, samePlace⟩ := headers.cell_inj (during.known block blockMember) member
      placeBound bound same
    rcases other with elsewhere | otherField
    · exact elsewhere block blockMember sameBlock
    · omega
  refine ⟨⟨during.represents.ring.congr ?_, fun block blockMember => ?_⟩, during.known,
    frame_write member bound during.frame⟩
  · intro place placeMember
    rcases mem_cons.mp placeMember with rfl | inside
    · obtain ⟨first, second⟩ := headers.outside address member offset bound
      exact ⟨update_of_ne first _ _, update_of_ne second _ _⟩
    · obtain ⟨block, blockMember, rfl⟩ := mem_nodes.mp inside
      have first := field block blockMember abi.nodeOffset (by omega) (by omega)
      have second := field block blockMember (abi.nodeOffset + abi.wordSize) fits (by omega)
      exact ⟨update_of_ne first _ _, update_of_ne (by unfold node; omega) _ _⟩
  · have size : block.base ≠ address + offset := field block blockMember 0 (by omega) (by omega)
    rw [update_of_ne size]
    exact during.represents.sizes block blockMember

/-- A write to the size of a free block changes the size of the block. -/
theorem During.resize (during : During abi head blocks initial mem (front ++ block :: back))
    (headers : Headers abi head blocks) (size : Nat) :
    During abi head blocks initial (Function.update mem block.base size)
      (front ++ ⟨block.base, size⟩ :: back) := by
  obtain ⟨freePositive, flagsAbove, nodeAbove, wordPositive, fits⟩ := abi.header_fields
  have member : block.base ∈ blocks := during.known block (by simp)
  have same : nodes abi (front ++ block :: back) =
      nodes abi (front ++ ⟨block.base, size⟩ :: back) := by
    simp only [nodes_append, nodes_cons]
  have ring := during.represents.ring
  have nodup := during.represents.nodup
  refine ⟨⟨?_, fun other otherMember => ?_⟩, fun other otherMember => ?_,
    @frame_write _ _ _ _ _ _ 0 _ member (by omega) during.frame⟩
  · rw [same] at ring
    refine ring.congr ?_
    intro place placeMember
    rcases mem_cons.mp placeMember with rfl | inside
    · obtain ⟨first, second⟩ := headers.outside block.base member 0 (by omega)
      exact ⟨update_of_ne first _ _, update_of_ne second _ _⟩
    · rw [← same] at inside
      obtain ⟨other, otherMember, rfl⟩ := mem_nodes.mp inside
      have cell : ∀ i < abi.headerSize, i ≠ 0 → other.base + i ≠ block.base := by
        intro i bound nonzero same
        exact nonzero (headers.cell_inj (during.known other otherMember) member bound (by omega)
          (same.trans (add_zero _).symm)).2
      have first := cell abi.nodeOffset (by omega) (by omega)
      have second := cell (abi.nodeOffset + abi.wordSize) fits (by omega)
      exact ⟨update_of_ne first _ _, update_of_ne (by unfold node; omega) _ _⟩
  · rw [map_append, map_cons] at nodup
    rcases mem_append.mp otherMember with inFront | inBack
    · have different : other.base ≠ block.base := fun same =>
        (nodup_append.mp nodup).2.2 _ (mem_map_of_mem inFront) _ mem_cons_self same
      rw [update_of_ne different]
      exact during.represents.sizes other (mem_append_left _ inFront)
    · rcases mem_cons.mp inBack with rfl | later
      · exact update_self _ _ _
      · have different : other.base ≠ block.base := fun same =>
          (nodup_cons.mp (nodup_append.mp nodup).2.1).1 (same ▸ mem_map_of_mem later)
        rw [update_of_ne different]
        exact during.represents.sizes other (mem_append_right _ (mem_cons_of_mem _ later))
  · rcases mem_append.mp otherMember with inFront | inBack
    · exact during.known other (mem_append_left _ inFront)
    · rcases mem_cons.mp inBack with rfl | later
      · exact member
      · exact during.known other (mem_append_right _ (mem_cons_of_mem _ later))

theorem Headers.node_ne (headers : Headers abi head blocks) (firstMember : first ∈ blocks)
    (secondMember : second ∈ blocks) :
    first ≠ node abi second ∧ first ≠ node abi second + abi.wordSize := by
  obtain ⟨freePositive, flagsAbove, nodeAbove, wordPositive, fits⟩ := abi.header_fields
  constructor
  · intro same
    have cell := headers.cell_inj firstMember secondMember (show 0 < abi.headerSize by omega)
      (show abi.nodeOffset < abi.headerSize by omega) same
    omega
  · intro same
    have cell := headers.cell_inj firstMember secondMember (show 0 < abi.headerSize by omega) fits
      (by unfold node at same; omega)
    omega

theorem Headers.separate (headers : Headers abi head blocks) {bases : List Nat}
    (nodup : bases.Nodup) (known : ∀ base ∈ bases, base ∈ blocks) :
    Ring.Separate abi.wordSize (head :: bases.map (node abi)) := by
  obtain ⟨freePositive, flagsAbove, nodeAbove, wordPositive, fits⟩ := abi.header_fields
  refine ⟨nodup_cons.mpr ⟨?_, nodup.map fun first second same => ?_⟩, ?_⟩
  · intro member
    obtain ⟨base, inside, same⟩ := mem_map.mp member
    exact (headers.outside base (known base inside) abi.nodeOffset (by omega)).1 same.symm
  · exact add_right_cancel same
  · intro first firstMember second secondMember
    rcases mem_cons.mp firstMember with rfl | firstInside
    · rcases mem_cons.mp secondMember with rfl | secondInside
      · omega
      · obtain ⟨base, inside, rfl⟩ := mem_map.mp secondInside
        have cell := (headers.outside base (known base inside) _ fits).1
        unfold node
        omega
    · obtain ⟨base, inside, rfl⟩ := mem_map.mp firstInside
      rcases mem_cons.mp secondMember with rfl | secondInside
      · exact Ne.symm (headers.outside base (known base inside) abi.nodeOffset (by omega)).2
      · obtain ⟨other, otherInside, rfl⟩ := mem_map.mp secondInside
        intro same
        have cell := headers.cell_inj (known base inside) (known other otherInside)
          (show abi.nodeOffset < abi.headerSize by omega) fits (by unfold node at same; omega)
        omega

theorem link_mem {place : Nat} (member : place = head ∨ ∃ base ∈ blocks, place = node abi base) :
    place ∈ headerCells abi head blocks ∧ place + abi.wordSize ∈ headerCells abi head blocks := by
  obtain ⟨-, -, -, -, fits⟩ := abi.header_fields
  rcases member with rfl | ⟨base, inside, rfl⟩
  · exact ⟨Or.inl rfl, Or.inr (Or.inl rfl)⟩
  · exact ⟨Or.inr (Or.inr ⟨base, inside, abi.nodeOffset, by omega, rfl⟩),
      Or.inr (Or.inr ⟨base, inside, _, fits, add_assoc _ _ _⟩)⟩

/-- The node in front of a place, and the node behind it. -/
def lastNode (abi : Abi) (head : Nat) (front : List Region) : Nat :=
  (nodes abi front).getLast?.getD head

def firstNode (abi : Abi) (head : Nat) (back : List Region) : Nat :=
  (nodes abi back).head?.getD head

theorem lastNode_known (known : ∀ block ∈ front, block.base ∈ blocks) :
    lastNode abi head front = head ∨ ∃ base ∈ blocks, lastNode abi head front = node abi base := by
  rcases found : (nodes abi front).getLast? with _ | place
  · exact Or.inl (by rw [lastNode, found]; rfl)
  · obtain ⟨block, member, same⟩ := mem_nodes.mp (mem_of_getLast? found)
    exact Or.inr ⟨block.base, known block member, by rw [lastNode, found]; exact same.symm⟩

theorem firstNode_known (known : ∀ block ∈ back, block.base ∈ blocks) :
    firstNode abi head back = head ∨ ∃ base ∈ blocks, firstNode abi head back = node abi base := by
  rcases found : (nodes abi back).head? with _ | place
  · exact Or.inl (by rw [firstNode, found]; rfl)
  · obtain ⟨block, member, same⟩ := mem_nodes.mp (mem_of_head? found)
    exact Or.inr ⟨block.base, known block member, by rw [firstNode, found]; exact same.symm⟩

theorem Headers.place_ne (headers : Headers abi head blocks)
    (member : place = head ∨ ∃ base ∈ blocks, place = node abi base) (inside : base ∈ blocks) :
    base ≠ place ∧ base ≠ place + abi.wordSize := by
  obtain ⟨freePositive, flagsAbove, nodeAbove, wordPositive, fits⟩ := abi.header_fields
  rcases member with rfl | ⟨other, otherInside, rfl⟩
  · have cell := headers.outside base inside 0 (by omega)
    omega
  · exact headers.node_ne inside otherInside

theorem Headers.insert_size (headers : Headers abi head blocks) {new before behind : Nat}
    (member : new ∈ blocks) (beforeKnown : before = head ∨ ∃ base ∈ blocks, before = node abi base)
    (behindKnown : behind = head ∨ ∃ base ∈ blocks, behind = node abi base)
    (inside : base ∈ blocks) :
    Ring.insert abi.wordSize mem (node abi new) before behind base = mem base := by
  rw [Ring.insert_apply, if_neg (headers.place_ne beforeKnown inside).1,
    if_neg (headers.node_ne inside member).2, if_neg (headers.node_ne inside member).1,
    if_neg (headers.place_ne behindKnown inside).2]

/-- Linking a block in at a place of the list. -/
theorem During.link (during : During abi head blocks initial mem (front ++ back))
    (headers : Headers abi head blocks) (member : new.base ∈ blocks)
    (fresh : ∀ block ∈ front ++ back, block.base ≠ new.base) (size : mem new.base = new.size) :
    During abi head blocks initial (Ring.insert abi.wordSize mem (node abi new.base)
      (lastNode abi head front) (firstNode abi head back)) (front ++ new :: back) := by
  have known : ∀ block ∈ front ++ new :: back, block.base ∈ blocks := by
    intro block blockMember
    rcases mem_cons.mp (perm_middle.mem_iff.mp blockMember) with rfl | old
    · exact member
    · exact during.known block old
  have beforeKnown := @lastNode_known abi head _ _ fun block inside =>
    known block (mem_append_left _ inside)
  have behindKnown := @firstNode_known abi head _ _ fun block inside =>
    known block (mem_append_right _ (mem_cons_of_mem _ inside))
  have ring := during.represents.ring
  rw [nodes_append] at ring
  have apart : Ring.Separate abi.wordSize (head :: node abi new.base ::
      (nodes abi front ++ nodes abi back)) := by
    rw [← nodes_append]
    refine headers.separate (nodup_cons.mpr ⟨?_, during.represents.nodup⟩) ?_
    · intro inside
      obtain ⟨block, blockMember, same⟩ := mem_map.mp inside
      exact fresh block blockMember same
    · intro base inside
      rcases mem_cons.mp inside with rfl | old
      · exact member
      · obtain ⟨block, blockMember, rfl⟩ := mem_map.mp old
        exact during.known block blockMember
  refine ⟨⟨?_, fun block blockMember => ?_⟩, known, fun address outside => ?_⟩
  · rw [nodes_append, nodes_cons]
    exact ring.insert apart
  · rw [headers.insert_size member beforeKnown behindKnown (known block blockMember)]
    rcases mem_cons.mp (perm_middle.mem_iff.mp blockMember) with rfl | old
    · exact size
    · exact during.represents.sizes block old
  · have newCells := @link_mem abi head _ (node abi new.base) (Or.inr ⟨_, member, rfl⟩)
    have away : ∀ place ∈ headerCells abi head blocks, address ≠ place :=
      fun place inside same => outside (same ▸ inside)
    rw [Ring.insert_apply, if_neg (away _ (link_mem beforeKnown).1), if_neg (away _ newCells.2),
      if_neg (away _ newCells.1), if_neg (away _ (link_mem behindKnown).2), during.frame outside]

/-- The neighbours of a block on the list. -/
theorem During.neighbours (during : During abi head blocks initial mem (front ++ block :: back)) :
    mem (node abi block.base + abi.wordSize) = lastNode abi head front ∧
      mem (node abi block.base) = firstNode abi head back ∧
      (lastNode abi head front = head ∨ ∃ base ∈ blocks, lastNode abi head front = node abi base) ∧
      (firstNode abi head back = head ∨ ∃ base ∈ blocks,
        firstNode abi head back = node abi base) := by
  have ring := during.represents.ring
  rw [nodes_append, nodes_cons] at ring
  have again : Ring.IsRing abi.wordSize mem head
      ((nodes abi front ++ [node abi block.base]) ++ nodes abi back) := by
    rw [append_assoc]
    exact ring
  have forward := again.forward
  rw [List.getLast?_concat] at forward
  exact ⟨ring.backward, forward,
    lastNode_known fun other inside => during.known other (mem_append_left _ inside),
    firstNode_known fun other inside =>
      during.known other (mem_append_right _ (mem_cons_of_mem _ inside))⟩

theorem During.unlink_size (during : During abi head blocks initial mem (front ++ block :: back))
    (headers : Headers abi head blocks) (inside : base ∈ blocks) :
    listDel abi mem (node abi block.base) base = mem base := by
  obtain ⟨toBefore, toBehind, beforeKnown, behindKnown⟩ := during.neighbours
  rw [listDel, Ring.remove_apply, toBefore, toBehind,
    if_neg (headers.place_ne beforeKnown inside).1, if_neg (headers.place_ne behindKnown inside).2]

theorem During.unlink (during : During abi head blocks initial mem (front ++ block :: back))
    (headers : Headers abi head blocks) :
    During abi head blocks initial (listDel abi mem (node abi block.base)) (front ++ back) := by
  have ring := during.represents.ring
  rw [nodes_append, nodes_cons] at ring
  have fewer : ∀ other ∈ front ++ back, other ∈ front ++ block :: back := fun other member =>
    ((sublist_cons_self block back).append_left front).subset member
  obtain ⟨toBefore, toBehind, beforeKnown, behindKnown⟩ := during.neighbours
  refine ⟨⟨?_, fun other member => ?_⟩, fun other member => during.known other (fewer other member),
    fun address outside => ?_⟩
  · rw [nodes_append]
    exact ring.remove
  · rw [during.unlink_size headers (during.known other (fewer other member))]
    exact during.represents.sizes other (fewer other member)
  · have away : ∀ place ∈ headerCells abi head blocks, address ≠ place :=
      fun place inside same => outside (same ▸ inside)
    rw [listDel, Ring.remove_apply, toBefore, toBehind, if_neg (away _ (link_mem beforeKnown).1),
      if_neg (away _ (link_mem behindKnown).2), during.frame outside]

/-! ### The writes of the source -/

/-- `list_add_after` of a new block and a block on the list. -/
theorem During.addAfter (during : During abi head blocks initial mem (front ++ block :: back))
    (headers : Headers abi head blocks) {new : Region} (member : new.base ∈ blocks)
    (fresh : ∀ other ∈ front ++ block :: back, other.base ≠ new.base)
    (size : mem new.base = new.size) :
    During abi head blocks initial (listAddAfter abi mem (node abi new.base) (node abi block.base))
        (front ++ block :: new :: back) ∧
      ∀ base ∈ blocks,
        listAddAfter abi mem (node abi new.base) (node abi block.base) base = mem base := by
  obtain ⟨-, toBehind, -, behindKnown⟩ := during.neighbours
  have place : lastNode abi head (front ++ [block]) = node abi block.base := by
    rw [lastNode, nodes_append, nodes_cons]
    exact congrArg (·.getD head) List.getLast?_concat
  have whole : (front ++ [block]) ++ back = front ++ block :: back := by simp
  have split : During abi head blocks initial mem ((front ++ [block]) ++ back) := whole ▸ during
  have linked := split.link headers member (whole ▸ fresh) size
  rw [place, ← toBehind, append_assoc] at linked
  refine ⟨linked, fun base inside => ?_⟩
  rw [← toBehind] at behindKnown
  exact headers.insert_size member (Or.inr ⟨_, during.known block (by simp), rfl⟩)
    behindKnown inside

/-- `list_add_before` of a new block at a place of the list. -/
theorem During.addBefore (during : During abi head blocks initial mem (front ++ back))
    (headers : Headers abi head blocks) (member : new.base ∈ blocks)
    (fresh : ∀ other ∈ front ++ back, other.base ≠ new.base) (size : mem new.base = new.size) :
    During abi head blocks initial
      (listAddBefore abi mem (node abi new.base) (firstNode abi head back))
        (front ++ new :: back) := by
  have ring := during.represents.ring
  rw [nodes_append] at ring
  have toBefore : mem (firstNode abi head back + abi.wordSize) = lastNode abi head front :=
    ring.backward
  rw [listAddBefore, toBefore]
  exact during.link headers member fresh size

/-- Filling in a header that is not on the list. -/
theorem During.makeBlock (during : During abi head blocks initial mem free)
    (headers : Headers abi head blocks) (size : Nat) (flags : Memory → Nat) (member : base ∈ blocks)
    (fresh : ∀ other ∈ free, other.base ≠ base) :
    During abi head blocks initial (FreeList.makeBlock abi mem base size flags) free ∧
      FreeList.makeBlock abi mem base size flags base = size := by
  obtain ⟨freePositive, flagsAbove, nodeAbove, wordPositive, fits⟩ := abi.header_fields
  have first := during.write headers size member (show 0 < abi.headerSize by omega) (Or.inl fresh)
  have second := first.write headers 1 member (show abi.freeOffset < abi.headerSize by omega)
    (Or.inl fresh)
  refine ⟨second.write headers _ member (show abi.flagsOffset < abi.headerSize by omega)
    (Or.inl fresh), ?_⟩
  rw [FreeList.makeBlock, update_of_ne (by omega), update_of_ne (by omega), update_self]

/-- A search over the list of blocks. -/
theorem Represents.seek (represents : Represents abi head mem free) (stop : Nat → Bool) {fuel : Nat}
    (enough : free.length < fuel) :
    ∃ front back, free = front ++ back ∧ (∀ block ∈ front, stop (node abi block.base) = false) ∧
      (∀ block ∈ back.head?, stop (node abi block.base) = true) ∧
      Ring.seek mem head stop fuel (mem head) = some (firstNode abi head back) := by
  obtain ⟨frontNodes, backNodes, split, passed, stops, found⟩ := represents.ring.seek stop
    (by rwa [nodes, length_map, length_map])
  rw [nodes, map_map, map_eq_append_iff] at split
  obtain ⟨front, back, rfl, rfl, rfl⟩ := split
  refine ⟨front, back, rfl, fun block member => passed _ (mem_map_of_mem member),
    fun block member => ?_, ?_⟩
  · refine stops _ ?_
    rw [List.head?_map, Option.mem_def.mp member]
    rfl
  · rw [found, firstNode, nodes, map_map]

end FreeList

end AIMv6
