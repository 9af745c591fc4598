/-
This file says what the parts of `__alloc` and `__free` do to the list of free blocks.

Each part of the source is matched with a function on lists of regions: cutting a block down,
joining a block with the one below and the one above it, and keeping the slices in front of
and behind the whole pages of a block. On a memory that represents a list, the source leaves
a memory that represents what the list function makes of it.
-/

import AIMv6.FreeListHeaders

namespace AIMv6

open List Nat Function

namespace FreeList

/-! ### On lists of regions -/

/-- A block cut down to a size, and what is left of it when that is large enough. -/
def cutBlock (abi : Abi) (block : Region) (need : Nat) : Region × List Region :=
  if abi.headerSize + allocAlign ≤ block.size - need then
    (⟨block.base, need⟩, [⟨block.base + need, block.size - need⟩])
  else (block, [])

/-- A block and the one below it, if that ends where the block begins. -/
def joinDown (front : List Region) (block : Region) : List Region × Region :=
  match front.getLast? with
  | none => (front, block)
  | some prev =>
    if prev.limit = block.base then (front.dropLast, ⟨prev.base, prev.size + block.size⟩)
    else (front, block)

/-- A block and the one above it, if that begins where the block ends. -/
def joinUp (block : Region) : List Region → Region × List Region
  | [] => (block, [])
  | next :: rest =>
    if block.limit = next.base then (⟨block.base, block.size + next.size⟩, rest)
    else (block, next :: rest)

/-- The first page border not below a block's base, and the last one not above its limit. -/
def firstBorder (block : Region) : Nat := (block.base + (pageSize - 1)) / pageSize * pageSize

def lastBorder (block : Region) : Nat := block.limit / pageSize * pageSize

/-- What stays of a block in front of its whole pages. -/
def lowerSlice (block : Region) : List Region :=
  if block.base < firstBorder block then [⟨block.base, firstBorder block - block.base⟩] else []

/-- What stays of a block behind its whole pages. -/
def upperSlice (block : Region) : List Region :=
  if lastBorder block < block.limit then
    [⟨lastBorder block, block.limit - lastBorder block⟩] else []

variable {abi : Abi} {head : Nat} {blocks : List Nat} {initial mem : Memory}
  {free front back : List Region} {block : Region}

theorem entry_node (base : Nat) : entry abi (node abi base) = base := Nat.add_sub_cancel _ _

theorem firstNode_cons : firstNode abi head (block :: back) = node abi block.base := rfl

theorem firstNode_nil : firstNode abi head [] = head := rfl

theorem lastNode_nil : lastNode abi head [] = head := rfl

theorem lastNode_concat : lastNode abi head (front ++ [block]) = node abi block.base := by
  rw [lastNode, nodes_append, nodes_cons]
  exact congrArg (·.getD head) List.getLast?_concat

theorem Headers.node_ne_head (headers : Headers abi head blocks) {base : Nat}
    (member : base ∈ blocks) : node abi base ≠ head := by
  obtain ⟨-, -, -, -, fits⟩ := abi.header_fields
  exact Ne.symm (headers.outside base member abi.nodeOffset (by omega)).1

/-! ### Inserting and cutting -/

/-- The loop that inserts a block finds its place. -/
theorem During.insertInOrder (during : During abi head blocks initial mem free)
    (headers : Headers abi head blocks) {new : Region} (member : new.base ∈ blocks)
    (fresh : ∀ block ∈ free, block.base ≠ new.base) (size : mem new.base = new.size) {fuel : Nat}
    (enough : free.length < fuel) :
    ∃ front back after, free = front ++ back ∧ (∀ block ∈ front, block.base < new.base) ∧
      (∀ block ∈ back.head?, new.base ≤ block.base) ∧
      FreeList.insertInOrder abi head fuel new.base mem = some after ∧
      During abi head blocks initial after (front ++ new :: back) := by
  obtain ⟨front, back, rfl, passed, stops, found⟩ := during.represents.seek
    (fun tmp => new.base ≤ entry abi tmp) enough
  refine ⟨front, back, _, rfl, fun block inside => ?_, fun block inside => ?_, ?_,
    during.addBefore headers member fresh size⟩
  · have below := passed block inside
    rw [entry_node] at below
    exact Nat.lt_of_not_le (of_decide_eq_false below)
  · have above := stops block inside
    rw [entry_node] at above
    exact of_decide_eq_true above
  · rw [FreeList.insertInOrder, found]

/-- Cutting a block of the list down and taking it out. -/
theorem During.cutDown (during : During abi head blocks initial mem (front ++ block :: back))
    (headers : Headers abi head blocks) {need : Nat} (fits : need ≤ block.size)
    (inside : block.limit < abi.modulus)
    (room : abi.headerSize + allocAlign ≤ block.size - need → block.base + need ∈ blocks ∧
      ∀ other ∈ front ++ block :: back, other.base ≠ block.base + need) :
    During abi head blocks initial (FreeList.cutDown abi block.base need mem)
        (front ++ (cutBlock abi block need).2 ++ back) ∧
      FreeList.cutDown abi block.base need mem block.base = (cutBlock abi block need).1.size := by
  obtain ⟨freePositive, flagsAbove, nodeAbove, wordPositive, bound⟩ := abi.header_fields
  have member : block.base ∈ blocks := during.known block (by simp)
  have size : mem block.base = block.size := during.represents.sizes block (by simp)
  unfold Region.limit at inside
  have newsize : wrapSub abi.modulus (mem block.base) need = block.size - need := by
    rw [size, wrapSub_of_le fits (by omega)]
  have newblock : (block.base + need) % abi.modulus = block.base + need :=
    mod_eq_of_lt (by omega)
  have freeField : ∀ memory : Memory,
      Function.update memory (block.base + abi.freeOffset) 0 block.base =
      memory block.base := fun memory => update_of_ne (by omega) _ _
  unfold FreeList.cutDown cutBlock
  simp only [newsize, newblock]
  by_cases large : abi.headerSize + allocAlign ≤ block.size - need
  · simp only [if_pos large]
    obtain ⟨newMember, fresh⟩ := room large
    obtain ⟨made, madeSize⟩ := during.makeBlock headers (block.size - need)
      (fun mem => mem (block.base + abi.flagsOffset)) newMember fresh
    have resized := made.resize headers need
    have keeps : ∀ other ∈ front ++ ⟨block.base, need⟩ :: back, other.base ≠ block.base + need := by
      intro other inList
      rcases mem_cons.mp (perm_middle.mem_iff.mp inList) with rfl | old
      · exact fresh block (by simp)
      · exact fresh other (((sublist_cons_self block back).append_left front).subset old)
    have newSize : Function.update
        (FreeList.makeBlock abi mem (block.base + need) (block.size - need)
        fun mem => mem (block.base + abi.flagsOffset)) block.base need (block.base + need) =
          block.size - need := by
      rw [update_of_ne (Ne.symm (fresh block (by simp))), madeSize]
    obtain ⟨linked, sizes⟩ := @During.addAfter _ _ _ _ _ _ _
      _ resized headers ⟨block.base + need, block.size - need⟩ newMember keeps newSize
    have marked := linked.write headers 0 member (show abi.freeOffset < abi.headerSize by omega)
      (Or.inr ⟨by omega, by omega, by omega⟩)
    refine ⟨?_, ?_⟩
    · have unlinked := marked.unlink headers
      rw [append_assoc]
      exact unlinked
    · rw [marked.unlink_size headers member, freeField, sizes block.base member, update_self]
  · simp only [if_neg large, append_nil]
    have marked := during.write headers 0 member (show abi.freeOffset < abi.headerSize by omega)
      (Or.inr ⟨by omega, by omega, by omega⟩)
    exact ⟨marked.unlink headers, by rw [marked.unlink_size headers member, freeField, size]⟩

/-! ### Joining -/

theorem During.mergeDown (during : During abi head blocks initial mem (front ++ block :: back))
    (headers : Headers abi head blocks)
    (small : ∀ prev ∈ front, prev.limit < abi.modulus ∧ prev.size + block.size < abi.modulus) :
    ∃ after, FreeList.mergeDown abi head block.base mem = ((joinDown front block).2.base, after) ∧
      During abi head blocks initial after
        ((joinDown front block).1 ++ (joinDown front block).2 :: back) := by
  obtain ⟨toBefore, -⟩ := during.neighbours
  have size : mem block.base = block.size := during.represents.sizes block (by simp)
  unfold FreeList.mergeDown joinDown
  simp only [toBefore]
  rcases eq_nil_or_concat' front with rfl | ⟨earlier, prev, rfl⟩
  · rw [lastNode_nil]
    exact ⟨mem, by simp, during⟩
  · have prevMember : prev.base ∈ blocks := during.known prev (by simp)
    have prevSize : mem prev.base = prev.size := during.represents.sizes prev (by simp)
    have notHead := headers.node_ne_head prevMember
    obtain ⟨prevBelow, joinedBelow⟩ := small prev (by simp)
    have touches : (prev.base + mem prev.base) % abi.modulus = block.base ↔
        prev.limit = block.base := by
      rw [prevSize, ← Region.limit, mod_eq_of_lt prevBelow]
    rw [lastNode_concat, entry_node, List.getLast?_concat]
    simp only [dropLast_concat]
    by_cases touch : prev.limit = block.base
    · rw [if_pos ⟨notHead, touches.mpr touch⟩, if_pos touch, prevSize, size,
        mod_eq_of_lt joinedBelow]
      refine ⟨_, rfl, ?_⟩
      have shaped : During abi head blocks initial mem (earlier ++ prev :: block :: back) := by
        have same : earlier ++ [prev] ++ block :: back = earlier ++ prev :: block :: back := by simp
        rwa [same] at during
      have resized := shaped.resize headers (prev.size + block.size)
      have split : During abi head blocks initial
          (Function.update mem prev.base (prev.size + block.size))
          ((earlier ++ [⟨prev.base, prev.size + block.size⟩]) ++ block :: back) := by
        have same : earlier ++ ⟨prev.base, prev.size + block.size⟩ :: block :: back =
            (earlier ++ [⟨prev.base, prev.size + block.size⟩]) ++ block :: back := by simp
        rwa [same] at resized
      have unlinked := split.unlink headers
      have same : earlier ++ [⟨prev.base, prev.size + block.size⟩] ++ back =
          earlier ++ ⟨prev.base, prev.size + block.size⟩ :: back := by simp
      rwa [same] at unlinked
    · rw [if_neg fun both => touch (touches.mp both.2), if_neg touch]
      exact ⟨mem, rfl, during⟩

theorem During.mergeUp (during : During abi head blocks initial mem (front ++ block :: back))
    (headers : Headers abi head blocks)
    (small : ∀ next ∈ back, block.limit < abi.modulus ∧ block.size + next.size < abi.modulus) :
    During abi head blocks initial (FreeList.mergeUp abi head block.base mem)
      (front ++ (joinUp block back).1 :: (joinUp block back).2) := by
  obtain ⟨-, toBehind, -, -⟩ := during.neighbours
  have size : mem block.base = block.size := during.represents.sizes block (by simp)
  unfold FreeList.mergeUp
  simp only [toBehind]
  rcases back with _ | ⟨next, rest⟩
  · rw [firstNode_nil, joinUp]
    simpa using during
  · have nextMember : next.base ∈ blocks := during.known next (by simp)
    have nextSize : mem next.base = next.size := during.represents.sizes next (by simp)
    have notHead := headers.node_ne_head nextMember
    obtain ⟨blockBelow, joinedBelow⟩ := small next (by simp)
    have touches : (block.base + mem block.base) % abi.modulus = next.base ↔
        block.limit = next.base := by
      rw [size, ← Region.limit, mod_eq_of_lt blockBelow]
    rw [firstNode_cons, entry_node, joinUp]
    by_cases touch : block.limit = next.base
    · rw [if_pos ⟨notHead, touches.mpr touch⟩, if_pos touch, nextSize, size,
        mod_eq_of_lt joinedBelow]
      have resized := during.resize headers (block.size + next.size)
      have split : During abi head blocks initial
          (Function.update mem block.base (block.size + next.size))
          ((front ++ [⟨block.base, block.size + next.size⟩]) ++ next :: rest) := by
        have same : front ++ ⟨block.base, block.size + next.size⟩ :: next :: rest =
            (front ++ [⟨block.base, block.size + next.size⟩]) ++ next :: rest := by simp
        rwa [same] at resized
      have unlinked := split.unlink headers
      have same : front ++ [⟨block.base, block.size + next.size⟩] ++ rest =
          front ++ ⟨block.base, block.size + next.size⟩ :: rest := by simp
      rwa [same] at unlinked
    · rw [if_neg fun both => touch (touches.mp both.2), if_neg touch]
      exact during

/-! ### Returning pages -/

/-- The borders the source computes, for a block that ends below the last page. -/
theorem borders_eq (inside : block.limit + pageSize ≤ abi.modulus) :
    (block.base + block.size) % abi.modulus = block.limit ∧
      alignAbove abi.bits block.base pageSize = firstBorder block ∧
      alignBelow abi.bits block.limit pageSize = lastBorder block := by
  have size : pageSize = 2 ^ 12 := rfl
  have below : block.limit < abi.modulus := by omega
  have bound : block.base ≤ block.limit := le_add_right _ _
  refine ⟨mod_eq_of_lt below, ?_, ?_⟩
  · rw [firstBorder, size]
    refine alignAbove_of_room ?_
    have modulus : abi.modulus = 2 ^ abi.bits := rfl
    omega
  · rw [lastBorder, size]
    exact alignBelow_two_pow abi.bits block.limit 12 below (by cases abi <;> decide)

/-- "return pages": the whole pages of a block are passed on, and the slices stay. -/
theorem During.returnPages (during : During abi head blocks initial mem (front ++ block :: back))
    (headers : Headers abi head blocks) (inside : block.limit + pageSize ≤ abi.modulus)
    (whole : firstBorder block < lastBorder block)
    (room : lastBorder block < block.limit → lastBorder block ∈ blocks ∧
      ∀ other ∈ front ++ block :: back, other.base ≠ lastBorder block) :
    ∃ flags after, FreeList.returnPages abi block.base mem =
        (some ⟨firstBorder block, lastBorder block - firstBorder block, flags, 0⟩, after) ∧
      During abi head blocks initial after
        (front ++ lowerSlice block ++ upperSlice block ++ back) := by
  obtain ⟨limit, first, last⟩ := borders_eq inside
  have size : mem block.base = block.size := during.represents.sizes block (by simp)
  unfold FreeList.returnPages
  simp only [size, limit, first, last, if_pos whole]
  refine ⟨_, _, rfl, ?_⟩
  have upper : During abi head blocks initial (if lastBorder block < block.limit then
        listAddAfter abi (FreeList.makeBlock abi mem (lastBorder block)
          (block.limit - lastBorder block)
          fun mem => mem (block.base + abi.flagsOffset)) (node abi (lastBorder block))
          (node abi block.base)
      else mem) (front ++ block :: (upperSlice block ++ back)) := by
    unfold upperSlice
    split
    · rename_i above
      obtain ⟨member, fresh⟩ := room above
      obtain ⟨made, madeSize⟩ := during.makeBlock headers (block.limit - lastBorder block)
        (fun mem => mem (block.base + abi.flagsOffset)) member fresh
      exact (@During.addAfter _ _ _ _ _ _ _ _ made headers
        ⟨lastBorder block, block.limit - lastBorder block⟩ member fresh madeSize).1
    · exact during
  unfold lowerSlice
  split
  · have resized := upper.resize headers (firstBorder block - block.base)
    have same : front ++ ⟨block.base, firstBorder block - block.base⟩ ::
        (upperSlice block ++ back) =
        front ++ [⟨block.base, firstBorder block - block.base⟩] ++ upperSlice block ++ back := by
          simp
    rwa [same] at resized
  · have unlinked := upper.unlink headers
    rw [append_nil, append_assoc]
    exact unlinked

theorem returnPages_none (inside : block.limit + pageSize ≤ abi.modulus)
    (size : mem block.base = block.size) (none : ¬ firstBorder block < lastBorder block) :
    returnPages abi block.base mem = (Option.none, mem) := by
  obtain ⟨limit, first, last⟩ := borders_eq inside
  unfold returnPages
  simp only [size, limit, first, last, if_neg none]

end FreeList

end AIMv6
