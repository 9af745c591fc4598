/-
This file follows the page allocator and the free-list allocator through runs in which they call
each other.

`__free` of `kern/mm/pmm/ff.c` goes on with the block `prev` after it has passed its own node to
`kfree`, and `kfree` may pass the page of that node to `free_pages`, which takes `prev` off the list
when the page ends where it begins. This takes a node in a page of its own, one that `kmalloc` has
just been granted: a node that comes from the heap's free list joins the blocks it was cut from
again, and they have no whole page. All other calls of `kfree` are made when no node is used any
more. So the calls may nest as deep as they like as long as every `free_pages` finds its node on the
free list of the heap.
-/

import AIMv6.FreeListTrim
import AIMv6.MemoryFuel
import AIMv6.PageAllocatorMove
import Mathlib.Data.Set.Card

namespace AIMv6

open List hiding Disjoint Vector
open Nat Set

/-! ### Sizes -/

theorem Region.ncard_bytes (region : Region) : region.bytes.ncard = region.size := by
  rw [Region.bytes, ncard_eq_toFinset_card', toFinset_Ico, card_Ico, Region.limit,
    Nat.add_sub_cancel_left]

theorem Region.finite_bytes (region : Region) : region.bytes.Finite := finite_Ico _ _

theorem finite_covered (regions : List Region) : (covered regions).Finite := by
  induction regions with
  | nil =>
    rw [covered_nil]
    exact finite_empty
  | cons region regions inductionHypothesis =>
    rw [covered_cons]
    exact region.finite_bytes.union inductionHypothesis

theorem ncard_covered {regions : List Region}
    (apart : regions.Pairwise fun first second => Disjoint first.bytes second.bytes) :
    (covered regions).ncard = totalSize regions := by
  induction regions with
  | nil => rw [covered_nil, ncard_empty, totalSize_nil]
  | cons region regions inductionHypothesis =>
    obtain ⟨first, rest⟩ := pairwise_cons.mp apart
    rw [covered_cons, ncard_union_eq (disjoint_covered.mpr first) region.finite_bytes
      (finite_covered regions), region.ncard_bytes, inductionHypothesis rest, totalSize_cons]

/-- Disjoint regions that leave an address out are smaller than the address space. -/
theorem totalSize_lt {regions : List Region}
    (apart : regions.Pairwise fun first second => Disjoint first.bytes second.bytes)
    {bound gap : Nat} (inside : ∀ region ∈ regions, region.limit ≤ bound) (below : gap < bound)
    (outside : gap ∉ covered regions) : totalSize regions < bound := by
  have within : covered regions ⊂ Set.Iio bound := by
    refine ssubset_iff_of_subset ?_ |>.mpr ⟨gap, below, outside⟩
    rintro address ⟨region, member, here⟩
    exact lt_of_lt_of_le (Region.mem_bytes.mp here).2 (inside region member)
  have fewer := ncard_lt_ncard within (finite_Iio bound)
  rw [ncard_covered apart, ncard_eq_toFinset_card', toFinset_Iio, card_Iio] at fewer
  exact fewer

/-! ### The nodes of the page list -/

namespace PageAllocator

/-- The blocks below a new one and the block that is `this` after merging downwards, with the node
passed to `kfree`. -/
def lowered (this : PageBlock) (before : List PageBlock) : List PageBlock × PageBlock × List Nat :=
  match before.getLast? with
  | none => (before, this, [])
  | some prev =>
    if (prev.paddr + prev.size) % addrModulus = this.paddr then
      (before.dropLast, { prev with size := (prev.size + this.size) % addrModulus }, [this.node])
    else (before, this, [])

variable (this : PageBlock)

theorem splice_eq (before after : List PageBlock) :
    (splice this before after).1 =
      (lowered this before).1 ++ (mergeUp (lowered this before).2.1 after).1 := by
  unfold splice lowered
  cases last : before.getLast? with
  | none =>
    rw [List.getLast?_eq_none_iff.mp last]
    rfl
  | some prev =>
    dsimp only
    by_cases touch : (prev.paddr + prev.size) % addrModulus = this.paddr
    · rw [if_pos touch, if_pos touch]
    · rw [if_neg touch, if_neg touch]

/-- Merging downwards keeps every node but the one it frees. -/
theorem lowered_nodes (before after : List PageBlock) :
    ((lowered this before).2.2 ++
        ((lowered this before).1 ++ (lowered this before).2.1 :: after).map PageBlock.node).Perm
      (this.node :: (before ++ after).map PageBlock.node) := by
  unfold lowered
  split
  · exact perm_middle.map _
  · rename_i prev isLast
    obtain ⟨lowest, rfl⟩ := List.getLast?_eq_some_iff.mp isLast
    split
    · simp
    · exact perm_middle.map _

theorem mergeUp_nodes (after : List PageBlock) :
    ((mergeUp this after).2 ++ (mergeUp this after).1.map PageBlock.node).Perm
      ((this :: after).map PageBlock.node) := by
  unfold mergeUp
  split
  · exact List.Perm.refl _
  · split
    · exact List.Perm.swap _ _ _
    · exact List.Perm.refl _

theorem mergeUp_freed (after : List PageBlock) : (mergeUp this after).2.length ≤ 1 := by
  unfold mergeUp
  split
  · exact Nat.zero_le _
  · split
    · exact le_rfl
    · exact Nat.zero_le _

theorem cutFirstFit_nodes {size paddr : Nat} {blocks left : List PageBlock} {freed : List Nat}
    (cut : cutFirstFit size blocks = some (paddr, left, freed)) :
    (freed ++ left.map PageBlock.node).Perm (blocks.map PageBlock.node) ∧ freed.length ≤ 1 := by
  induction blocks generalizing paddr left freed with
  | nil => cases cut
  | cons this rest inductionHypothesis =>
    unfold cutFirstFit at cut
    split at cut
    · dsimp only at cut
      split at cut <;> cases cut
      · exact ⟨List.Perm.refl _, le_rfl⟩
      · exact ⟨List.Perm.refl _, Nat.zero_le _⟩
    · split at cut
      · cases cut
      · rename_i inner
        cases cut
        obtain ⟨same, few⟩ := inductionHypothesis inner
        exact ⟨perm_middle.trans (same.cons _), few⟩

end PageAllocator

namespace MemorySystem

open FreeList PageAllocator Ledger

/-! ### A kernel that is frugal with pages -/

instance (abi : Abi) (place : Nat) : Decidable (Clear abi place) :=
  inferInstanceAs (Decidable (_ ∨ _))

/-- A block on the list is not cut, or cut at a clear place. -/
def CutsClear (heap : Heap) (size : Nat) (mem : Memory) (block : Nat) : Prop :=
  heap.abi.headerSize + allocAlign ≤ mem block - allocSize heap.abi size →
    Clear heap.abi (block + allocSize heap.abi size)

instance (heap : Heap) (size : Nat) (mem : Memory) (block : Nat) :
    Decidable (CutsClear heap size mem block) := inferInstanceAs (Decidable (_ → _))

/-- What follows if there is a block on the free list for a node of the page list. Otherwise the
call panics, where the kernel asks for a page. -/
def frugally {α : Type} (heap : Heap) (loops : Nat) (mem : Memory) (next : Except Trap α) :
    Except Trap α :=
  match search heap loops heap.abi.blockSize mem with
  | none => .error .stuck
  | some found =>
    if found ≠ heap.head ∧
      CutsClear heap heap.abi.blockSize mem (FreeList.entry heap.abi found) then next
    else .error .panic

/-- The `kfree` of a kernel whose `free_pages` does not ask for pages. -/
def frugalKfree (heap : Heap) (loops : Nat) : Nat → Release
  | 0, _, _ => .error .stuck
  | depth + 1, obj, sys =>
    let result := FreeList.kfree heap.abi heap.head loops obj sys.mem
    let rest := giveBack heap loops (frugalKfree heap loops depth) (.kfree obj) result sys
    match result with
    | some (some _, mem) => frugally heap loops mem rest
    | _ => rest

variable {α : Type} {usage : Usage} {free : List Region} {release : Release}
  {front after : List PageBlock} {current : PageBlock} {pages : Pages}

theorem frugally_below {heap : Heap} {loops more : Nat} (bound : loops ≤ more) (mem : Memory)
    {first second : Except Trap α} (below : Below first second) :
    Below (frugally heap loops mem first) (frugally heap more mem second) := by
  unfold frugally
  rcases found : search heap loops heap.abi.blockSize mem with _ | place
  · exact Below.stuck
  · have again : search heap more heap.abi.blockSize mem = some place := Ring.seek_mono bound found
    rw [again]
    dsimp only
    split
    · exact below
    · exact Below.refl _

theorem frugalKfree_below {heap : Heap} {loops more : Nat} (bound : loops ≤ more)
    {depth deeper : Nat}
    (nesting : depth ≤ deeper) :
    Less (frugalKfree heap loops depth) (frugalKfree heap more deeper) := by
  induction depth generalizing deeper with
  | zero => exact fun _ _ => Below.stuck
  | succ depth inductionHypothesis =>
    obtain ⟨deeper, rfl⟩ := exists_eq_succ_of_ne_zero (Nat.ne_zero_of_lt nesting)
    intro obj sys
    have less := inductionHypothesis (le_of_succ_le_succ nesting)
    rw [frugalKfree, frugalKfree]
    rcases freed : FreeList.kfree heap.abi heap.head loops obj sys.mem with _ | ⟨pages, mem⟩
    · exact Below.stuck
    · rw [kfree_mono bound freed]
      rcases pages with _ | pages
      · exact Below.refl _
      · exact frugally_below bound mem (freePages_below less bound pages _)

/-! ### What holds between the calls -/

/-- The objects that the nodes of the page list are. -/
def nodeObjects (heap : Heap) (blocks : List PageBlock) : List Object :=
  (blocks.map PageBlock.node).map (nodeObject heap.abi)

/-- The heap is in order, and its live objects are those given and the nodes of the page list. The
page list is in order, and what is free is not part of the heap. -/
structure Balanced (heap : Heap) (objects : List Object) (owned : Set Nat)
    (sys : System) : Prop where
  neat : ∃ free, Neat heap.abi heap.head ⟨sys.mem,
    objects ++ nodeObjects heap sys.pages.blocks, owned⟩ free
  sound : Sound sys.pages.blocks
  apart : Disjoint owned (covered (regions sys.pages.blocks))

/-- The books of a call: it was granted some free regions, gave pages of the heap back, and the rest
of what was free still is, with what was returned. -/
structure Booked (owned returned : Set Nat) (sys after : System)
    (taken given : List Region) : Prop where
  granted : granted after.log = taken ++ granted sys.log
  released : released after.log = given ++ released sys.log
  available : covered taken ⊆ covered (regions sys.pages.blocks)
  within : covered given ⊆ owned
  freeSet : covered (regions after.pages.blocks) =
    returned ∪ (covered (regions sys.pages.blocks) \ covered taken) ∪ covered given

/-- A call that leaves things in order, the heap without the pages it gave back. -/
structure Settled (heap : Heap) (objects : List Object) (owned returned : Set Nat)
    (sys after : System) (taken given : List Region) : Prop where
  booked : Booked owned returned sys after taken given
  balanced : Balanced heap objects (owned \ covered given) after

variable {heap : Heap} {loops depth : Nat} {objects : List Object} {owned : Set Nat} {sys : System}

/-- With bounds that are large enough the call returns the result. -/
def Returns {α : Type} (run : Nat → Nat → Except Trap α) (result : α) : Prop :=
  ∃ bound, ∀ loops ≥ bound, ∀ depth ≥ bound, run loops depth = .ok result

theorem Returns.bind {β : Type} {run : Nat → Nat → Except Trap α} {result : α} {last : β}
    {next : α → Except Trap β} (returns : Returns run result) (ends : next result = .ok last) :
    Returns (fun loops depth => run loops depth >>= next) last := by
  obtain ⟨bound, returned⟩ := returns
  refine ⟨bound, fun loops enough depth deep => ?_⟩
  dsimp only
  rw [returned loops enough depth deep]
  exact ends

/-- With bounds that are large enough the call does not panic. -/
def Calm {α : Type} (run : Nat → Nat → Except Trap α) : Prop :=
  ∃ bound, ∀ loops ≥ bound, ∀ depth, run loops depth ≠ .error .panic

/-- Every `kfree` of an object of a heap in order returns and leaves things in order, unless the
frugal kernel panics. -/
def Releases (heap : Heap) (owned : Set Nat) : Prop :=
  ∀ (object : Object) (objects : List Object) (sys : System),
    Balanced heap (object :: objects) owned sys →
    Calm (fun loops depth => frugalKfree heap loops depth object.obj sys) →
    ∃ after given, Settled heap objects owned ∅ sys after [] given ∧
      Returns (fun loops depth => kfree heap loops depth object.obj sys) after

/-- A `kfree` that returns when no page is gathered. -/
def Quiet (heap : Heap) (loops : Nat) (release : Release) : Prop :=
  ∀ obj sys mem, FreeList.kfree heap.abi heap.head loops obj sys.mem = some (none, mem) →
    release obj sys = .ok { sys with mem, log := .kfree obj :: sys.log }

theorem kfree_quiet : Quiet heap loops (kfree heap loops (depth + 1)) := by
  intro obj sys mem returned
  rw [kfree, returned]
  rfl

theorem frugalKfree_quiet : Quiet heap loops (frugalKfree heap loops (depth + 1)) := by
  intro obj sys mem returned
  rw [frugalKfree, returned]
  rfl

/-! ### Nodes -/

theorem Balanced.perm {others : List Object} (balanced : Balanced heap objects owned sys)
    (same : objects.Perm others) : Balanced heap others owned sys := by
  obtain ⟨⟨free, neat⟩, sound, apart⟩ := balanced
  exact ⟨⟨free, neat.perm (same.append_right _)⟩, sound, apart⟩

theorem nodup_live {abi : Abi} {head : Nat}
    (neat : Neat abi head usage free) : (usage.live.map Object.obj).Nodup := by
  have apart := neat.invariant.separated.apart
  refine pairwise_map.mpr (apart.imp_of_mem fun {first second} firstMember _ disjoint same => ?_)
  have fine := neat.invariant.tiled.fine _ (mem_append_right _ (mem_map_of_mem firstMember))
  have blocks : first.block abi usage.mem = second.block abi usage.mem := by
    rw [Object.block, Object.block, same]
  exact Set.disjoint_left.mp disjoint fine.base_mem (blocks ▸ fine.base_mem)

theorem Balanced.nodup (balanced : Balanced heap objects owned sys) :
    (sys.pages.blocks.map PageBlock.node).Nodup := by
  obtain ⟨free, neat⟩ := balanced.neat
  have nodup := nodup_live neat
  rw [map_append] at nodup
  have nodes := (nodup_append.mp nodup).2.1
  rw [nodeObjects, map_map] at nodes
  exact nodes.of_map _

theorem Balanced.owned_lt (balanced : Balanced heap objects owned sys) {address : Nat}
    (member : address ∈ owned) : address < heap.abi.modulus := by
  obtain ⟨free, neat⟩ := balanced.neat
  have tiled : Tiled heap.abi heap.head owned _ := neat.invariant.tiled
  rw [← tiled.tiling.cover] at member
  obtain ⟨tile, isTile, inside⟩ := member
  have limit := (tiled.fine tile isTile).inside
  have below := (Region.mem_bytes.mp inside).2
  unfold Region.limit at limit
  omega

/-! ### Linking a block in -/

/-- Merging upwards is merging upwards on the list, with the node passed to `kfree`. -/
theorem mergeUp_eq (blocks : sys.pages.blocks = front ++ current :: after)
    (fresh : current.node ∉ front.map PageBlock.node) :
    mergeUp release current.node sys =
      (PageAllocator.mergeUp current after).2.foldlM (fun sys node => release node sys)
        (sys.withBlocks (front ++ (PageAllocator.mergeUp current after).1)) := by
  have same : sys.withBlocks (front ++ current :: after) = sys := by rw [← blocks]; rfl
  unfold mergeUp
  rw [blocks, splitAtNode_middle fresh]
  cases after with
  | nil =>
    rw [PageAllocator.mergeUp, same]
    rfl
  | cons next rest =>
    unfold PageAllocator.mergeUp
    by_cases touch : (current.paddr + current.size) % addrModulus = next.paddr
    · simp only [if_pos touch, foldlM_cons, foldlM_nil, bind_pure]
    · simp only [if_neg touch, same]
      rfl

/-- Merging downwards is merging downwards on the list, with the node passed to `kfree`. -/
theorem mergeDown_eq (this : PageBlock) (before after : List PageBlock) :
    mergeDown release this before after sys =
      (lowered this before).2.2.foldlM (fun sys node => release node sys)
          (sys.withBlocks ((lowered this before).1 ++ (lowered this before).2.1 :: after)) >>=
            fun sys =>
        .ok ((lowered this before).2.1.node, sys) := by
  unfold mergeDown lowered
  cases last : before.getLast? with
  | none =>
    rw [List.getLast?_eq_none_iff.mp last]
    rfl
  | some prev =>
    dsimp only
    by_cases touch : (prev.paddr + prev.size) % addrModulus = this.paddr
    · rw [if_pos touch, if_pos touch, foldlM_cons]
      dsimp only [foldlM_nil]
      rw [bind_pure]
    · rw [if_neg touch, if_neg touch]
      rfl

/-! ### The search for a block -/

/-- The search of `kmalloc` ends at the lowest block that is large enough, or at the list head. -/
theorem search_cases (neat : Neat heap.abi heap.head usage free) (size : Nat) :
    (∃ block ∈ free, allocSize heap.abi size ≤ block.size ∧
      FirstFit heap.abi heap.head usage.mem (allocSize heap.abi size) block.base ∧
      node heap.abi block.base ≠ heap.head ∧
      ∀ loops > free.length, search heap loops size usage.mem = some (node heap.abi block.base)) ∨
    (∀ block ∈ free, block.size < allocSize heap.abi size) ∧
      ∀ loops > free.length, search heap loops size usage.mem = some heap.head := by
  rcases @Represents.firstFit _ _ _ _ neat.invariant.represents _
    (allocSize heap.abi size) (lt_succ_self _) with
    ⟨front, block, back, rfl, large, smaller, notHead, found⟩ | ⟨none, found⟩
  · exact Or.inl ⟨block, by simp, large, neat.invariant.firstFit large smaller, notHead,
      fun loops enough => Ring.seek_mono enough found⟩
  · exact Or.inr ⟨none, fun loops enough => Ring.seek_mono enough found⟩

/-- When the frugal kernel does not panic there is room for a node. -/
theorem room_of_calm (neat : Neat heap.abi heap.head usage free) {next : Except Trap α}
    (enough : free.length < loops) (calm : frugally heap loops usage.mem next ≠ .error .panic) :
    (∃ block ∈ free, allocSize heap.abi heap.abi.blockSize ≤ block.size) ∧
      (∀ block, FirstFit heap.abi heap.head usage.mem
        (allocSize heap.abi heap.abi.blockSize) block →
        CutsClear heap heap.abi.blockSize usage.mem block) ∧
      ∀ more > free.length, ∀ {β : Type} (further : Except Trap β),
        frugally heap more usage.mem further = further := by
  rcases search_cases neat heap.abi.blockSize with ⟨block, member, large, first, notHead, found⟩ |
    ⟨-, found⟩
  · have clear : CutsClear heap heap.abi.blockSize usage.mem block.base := by
      by_contra unclear
      refine calm ?_
      rw [frugally, found loops enough]
      dsimp only
      rw [entry_node, if_neg fun both => unclear both.2]
    refine ⟨⟨block, member, large⟩, fun other isFirst => first.unique isFirst ▸ clear,
      fun more bound β further => ?_⟩
    rw [frugally, found more bound]
    dsimp only
    rw [entry_node, if_pos ⟨notHead, clear⟩]
  · refine absurd ?_ calm
    rw [frugally, found loops enough]
    dsimp only
    rw [if_neg fun both => both.1 rfl]

/-! ### `free_pages` -/

/-- The counter after pages were freed. -/
def credit (size : Nat) (sys : System) : System :=
  { sys with pages := { sys.pages with freeSpace := (sys.pages.freeSpace + size) % addrModulus } }

theorem lowered_freed (this : PageBlock) (before : List PageBlock) :
    (lowered this before).2.2 = [] ∨ (lowered this before).2.2 = [this.node] := by
  unfold lowered
  split
  · exact Or.inl rfl
  · split
    · exact Or.inr rfl
    · exact Or.inl rfl

/-- The list after merging downwards: a node that is not used any more has been freed, and that has
given no page back. -/
theorem lowered_heap {usage : Usage} {free : List Region} {this : PageBlock}
    {before after : List PageBlock}
    (neat : Neat heap.abi heap.head ⟨usage.mem, nodeObject heap.abi this.node ::
      (objects ++ nodeObjects heap (before ++ after)), owned⟩ free)
    (again : ∀ extent, Extent heap.abi heap.head usage.mem
        (Object.block heap.abi usage.mem (nodeObject heap.abi this.node)) extent →
      ¬ firstBorder extent < lastBorder extent) (freeSpace : Nat) (log : List Event) :
    ∃ mem later left, granted later = granted log ∧ released later = released log ∧
      Neat heap.abi heap.head ⟨mem, objects ++
        nodeObjects heap ((lowered this before).1 ++ (lowered this before).2.1 :: after),
          owned⟩ left ∧
      ∀ loops > free.length, ∀ release, Quiet heap loops release →
        (lowered this before).2.2.foldlM (fun sys node => release node sys)
            ⟨usage.mem, ⟨(lowered this before).1 ++ (lowered this before).2.1 :: after, freeSpace⟩,
              log⟩ =
          .ok ⟨mem, ⟨(lowered this before).1 ++ (lowered this before).2.1 :: after, freeSpace⟩,
            later⟩ := by
  have nodes := (lowered_nodes this before after).map (nodeObject heap.abi)
  rw [map_append, map_cons] at nodes
  rcases lowered_freed this before with none | one
  · rw [none] at nodes ⊢
    refine ⟨usage.mem, log, free, rfl, rfl, neat.perm ?_, fun loops _ release _ => rfl⟩
    exact perm_middle.symm.trans (nodes.symm.append_left objects)
  · rw [one] at nodes ⊢
    obtain ⟨mem, left, returned, kept⟩ := neat.kfree_quiet mem_cons_self again
    rw [erase_cons_head] at kept
    refine ⟨mem, .kfree this.node :: log, left, rfl, rfl, kept.perm ?_,
      fun loops enough release quiet => ?_⟩
    · exact ((perm_cons _).mp nodes).symm.append_left objects
    · rw [foldlM_cons, quiet _ _ mem (returned loops enough)]
      rfl

theorem node_fresh {mem : Memory}
    (neat : Neat heap.abi heap.head ⟨mem, objects ++ nodeObjects heap (front ++ current ::
      after), owned⟩ free) :
    current.node ∉ front.map PageBlock.node := by
  have nodup := nodup_live neat
  rw [map_append, nodeObjects, map_map] at nodup
  have distinct := (nodup_append.mp nodup).2.1.of_map _
  rw [map_append, map_cons] at distinct
  exact fun inFront => (nodup_append.mp distinct).2.2 _ inFront _ mem_cons_self rfl

/-- The list after merging upwards: a node that is not used any more is still an object. -/
theorem raised_heap {mem : Memory}
    (neat : Neat heap.abi heap.head ⟨mem, objects ++ nodeObjects heap (front ++ current ::
      after), owned⟩ free) :
    Neat heap.abi heap.head ⟨mem,
      ((PageAllocator.mergeUp current after).2.map (nodeObject heap.abi) ++ objects) ++
        nodeObjects heap (front ++ (PageAllocator.mergeUp current after).1), owned⟩ free := by
  have nodes := (mergeUp_nodes current after).map (nodeObject heap.abi)
  rw [map_append] at nodes
  refine neat.perm ?_
  simp only [nodeObjects, map_append]
  refine ((nodes.symm.append_left _).append_left objects).trans ?_
  refine ((perm_append_comm_assoc _ _ _).append_left objects).trans ?_
  rw [append_assoc]
  exact perm_append_comm_assoc _ _ _

theorem freePages_eq {node : Nat} {ready : System} (whole : WholePages ⟨pages.paddr, pages.size⟩)
    (returned : kmalloc heap loops release heap.abi.blockSize 0 sys = .ok (some node, ready)) :
    freePages heap loops release pages sys =
      mergeDown release ⟨pages.paddr, pages.size, pages.flags, node⟩
          (ready.pages.blocks.takeWhile fun block => block.paddr < pages.paddr)
          (ready.pages.blocks.dropWhile fun block => block.paddr < pages.paddr) ready >>=
            fun result =>
        mergeUp release result.1 result.2 >>= fun sys => .ok (credit pages.size sys) := by
  have baseAligned : isAligned pages.paddr pageSize = true :=
    (isAligned_two_pow _ 12).mpr whole.baseAligned
  have sizeAligned : isAligned pages.size pageSize = true :=
    (isAligned_two_pow _ 12).mpr whole.sizeAligned
  rw [freePages, baseAligned, sizeAligned, returned]
  rfl

/-- There is less free than there are addresses, because the heap has some. -/
theorem Balanced.small (balanced : Balanced heap objects owned sys)
    (neat : Neat heap.abi heap.head ⟨sys.mem, objects ++ nodeObjects heap sys.pages.blocks,
      owned⟩ free) {block : Region} (member : block ∈ free) {region : Region}
    (whole : WholePages region)
    (unlisted : Disjoint region.bytes (covered (regions sys.pages.blocks)))
    (unowned : Disjoint region.bytes owned) :
    region.size + totalSize (regions sys.pages.blocks) < addrModulus := by
  have tiled : Tiled heap.abi heap.head owned _ := neat.invariant.tiled
  have inHeap : block.base ∈ owned := tiled.tiling.subset (mem_append_left _ member)
    (tiled.fine block (mem_append_left _ member)).base_mem
  have narrow : heap.abi.modulus ≤ addrModulus := by cases heap.abi <;> decide
  rw [← totalSize_cons]
  refine totalSize_lt (pairwise_cons.mpr ⟨disjoint_covered.mp unlisted, ?_⟩) ?_
    ((balanced.owned_lt inHeap).trans_le narrow) ?_
  · refine pairwise_map.mpr (balanced.sound.spread.imp fun {first second} below => ?_)
    exact Region.disjoint_of_limit_le below.le
  · refine forall_mem_cons.mpr ⟨whole.inside, fun other isBlock => ?_⟩
    obtain ⟨page, isPage, rfl⟩ := mem_map.mp isBlock
    exact (balanced.sound.fine page isPage).inside
  · rw [covered_cons]
    rintro (inside | inside)
    · exact Set.disjoint_left.mp unowned inside inHeap
    · exact Set.disjoint_left.mp balanced.apart inHeap inside

/-- What `free_pages` comes to when its node is on the free list: it links the region in, and frees
the node of the block above, if it has merged with that. -/
theorem Balanced.freePages_shape (balanced : Balanced heap objects owned sys)
    (neat : Neat heap.abi heap.head ⟨sys.mem, objects ++ nodeObjects heap sys.pages.blocks,
      owned⟩ free) (fit : ∃ block ∈ free, allocSize heap.abi heap.abi.blockSize ≤ block.size)
    (clear : ∀ block, FirstFit heap.abi heap.head sys.mem (allocSize heap.abi heap.abi.blockSize)
      block → CutsClear heap heap.abi.blockSize sys.mem block)
    (whole : WholePages ⟨pages.paddr, pages.size⟩)
    (unlisted : Disjoint (⟨pages.paddr, pages.size⟩ : Region).bytes (covered (regions
      sys.pages.blocks))) (unowned : Disjoint (⟨pages.paddr, pages.size⟩ : Region).bytes owned) :
    ∃ (ready : System) (pending : List Nat) (bound : Nat), pending.length ≤ 1 ∧
      Balanced heap (pending.map (nodeObject heap.abi) ++ objects) owned ready ∧
      granted ready.log = granted sys.log ∧ released ready.log = released sys.log ∧
      covered (regions ready.pages.blocks) =
        (⟨pages.paddr, pages.size⟩ : Region).bytes ∪ covered (regions sys.pages.blocks) ∧
      ∀ loops ≥ bound, ∀ release, Quiet heap loops release →
        freePages heap loops release pages sys =
          pending.foldlM (fun sys node => release node sys) ready >>= fun sys =>
            .ok (credit pages.size sys) := by
  obtain ⟨node, mem, left, allocated, kept, again⟩ :=
    @Neat.alloc _ _ _ _ _ neat
    heap.abi.blockSize 0 (node_request heap.abi).1 fit clear
  obtain ⟨block, member, -⟩ := id fit
  obtain ⟨this, isThis⟩ : ∃ this : PageBlock, this = ⟨pages.paddr, pages.size, pages.flags, node⟩ :=
    ⟨_, rfl⟩
  have fine : PageAllocator.Fine this := by
    rw [isThis]
    exact ⟨whole.baseAligned, whole.sizeAligned, whole.nonempty, whole.inside⟩
  have small : this.size + totalSize (regions sys.pages.blocks) < addrModulus := by
    rw [isThis]
    exact balanced.small neat member whole unlisted unowned
  have linked := link_spec fine balanced.sound (by rw [isThis]; exact unlisted) small
  obtain ⟨before, isBefore⟩ : ∃ before, before =
    sys.pages.blocks.takeWhile fun block => block.paddr < this.paddr := ⟨_, rfl⟩
  obtain ⟨after, isAfter⟩ : ∃ after, after =
    sys.pages.blocks.dropWhile fun block => block.paddr < this.paddr := ⟨_, rfl⟩
  have split : before ++ after = sys.pages.blocks := by
    rw [isBefore, isAfter]
    exact takeWhile_append_dropWhile
  rw [link, ← isBefore, ← isAfter, splice_eq] at linked
  have same : this.node = node := by rw [isThis]
  rw [← same, ← split] at kept
  obtain ⟨later, log, rest, sameGranted, sameReleased, lower, merged⟩ :=
    @lowered_heap _ _ _
    ⟨mem, [], ∅⟩ left this before after kept (same ▸ again) sys.pages.freeSpace
      (.kmalloc node :: sys.log)
  have covers : covered (regions ((lowered this before).1 ++
      (PageAllocator.mergeUp (lowered this before).2.1 after).1)) =
      (⟨pages.paddr, pages.size⟩ : Region).bytes ∪ covered (regions sys.pages.blocks) := by
    rw [linked.covers, isThis]
    rfl
  refine ⟨⟨later, ⟨_, sys.pages.freeSpace⟩, log⟩, _, max free.length left.length + 1,
    mergeUp_freed (lowered this before).2.1 after, ⟨⟨rest, raised_heap lower⟩, linked.sound, ?_⟩,
    sameGranted, sameReleased, covers, fun loops enough release quiet => ?_⟩
  · rw [covers, disjoint_union_right]
    exact ⟨unowned.symm, balanced.apart⟩
  · obtain ⟨first, second⟩ := max_lt_iff.mp (lt_of_succ_le enough)
    have returned : kmalloc heap loops release heap.abi.blockSize 0 sys =
        .ok (some node, { sys with mem, log := .kmalloc node :: sys.log }) :=
      kmalloc_fit (allocated loops first)
    have step := merged loops second release quiet
    rw [freePages_eq whole returned, ← isThis]
    rw [isThis] at isBefore isAfter
    rw [← isBefore, ← isAfter, mergeDown_eq]
    dsimp only [System.withBlocks]
    rw [step]
    dsimp only [bind, Except.bind]
    rw [mergeUp_eq rfl (node_fresh lower)]
    rfl

/-! ### Nested calls -/

theorem Balanced.congr (balanced : Balanced heap objects owned sys) {other : System}
    (mem : other.mem = sys.mem) (blocks : other.pages.blocks = sys.pages.blocks) :
    Balanced heap objects owned other := by
  obtain ⟨neat, sound, apart⟩ := balanced
  rw [← mem, ← blocks] at neat
  rw [← blocks] at sound apart
  exact ⟨neat, sound, apart⟩

theorem bind_ne_panic {β : Type} {first : Except Trap α} {next : α → Except Trap β}
    (calm : first >>= next ≠ .error .panic) : first ≠ .error .panic := by
  rintro rfl
  exact calm rfl

theorem booked_of_same {after : System} (blocks : after.pages.blocks = sys.pages.blocks)
    (sameGranted : granted after.log = granted sys.log)
    (sameReleased : released after.log = released sys.log) : Booked owned ∅ sys after [] [] := by
  refine ⟨sameGranted, sameReleased, ?_, ?_, ?_⟩
  · rw [covered_nil]
    exact empty_subset _
  · rw [covered_nil]
    exact empty_subset _
  · rw [blocks, covered_nil, sdiff_empty, empty_union, union_empty]

theorem Balanced.settled {after : System} (balanced : Balanced heap objects owned after)
    (booked : Booked owned ∅ sys after [] []) : Settled heap objects owned ∅ sys after [] [] := by
  refine ⟨booked, ?_⟩
  rw [covered_nil, sdiff_empty]
  exact balanced

/-- The node that a call of the page allocator frees last. -/
theorem Releases.pending (releases : Releases heap owned) {pending : List Nat}
    (few : pending.length ≤ 1)
    (balanced : Balanced heap (pending.map (nodeObject heap.abi) ++ objects) owned sys)
    (calm : Calm fun loops depth =>
      pending.foldlM (fun sys node => frugalKfree heap loops depth node sys) sys) :
    ∃ after given, Settled heap objects owned ∅ sys after [] given ∧ Returns (fun loops depth =>
        pending.foldlM (fun sys node => kfree heap loops depth node sys) sys) after := by
  match pending, few with
  | [], _ => exact ⟨sys, [], balanced.settled (booked_of_same rfl rfl rfl), 0, fun _ _ _ _ => rfl⟩
  | [node], _ =>
    simp only [foldlM_cons, foldlM_nil, bind_pure] at calm ⊢
    exact releases (nodeObject heap.abi node) objects sys balanced calm

/-- `free_pages`, with whatever calls are nested in it. -/
theorem Releases.freePages (releases : Releases heap owned)
    (balanced : Balanced heap objects owned sys) (whole : WholePages ⟨pages.paddr, pages.size⟩)
    (unlisted : Disjoint (⟨pages.paddr, pages.size⟩ : Region).bytes
      (covered (regions sys.pages.blocks)))
    (unowned : Disjoint (⟨pages.paddr, pages.size⟩ : Region).bytes owned)
    (calm : Calm fun loops depth => frugally heap loops sys.mem
      (MemorySystem.freePages heap loops (frugalKfree heap loops depth) pages sys)) :
    ∃ after given,
      Settled heap objects owned (⟨pages.paddr, pages.size⟩ : Region).bytes sys after [] given ∧
      Returns (fun loops depth =>
        MemorySystem.freePages heap loops (kfree heap loops depth) pages sys) after := by
  obtain ⟨free, neat⟩ := balanced.neat
  obtain ⟨calmBound, calm⟩ := calm
  obtain ⟨fit, clear, passes⟩ := room_of_calm neat
    (Nat.lt_of_lt_of_le (lt_succ_self _) (le_max_left (free.length + 1) calmBound))
    (calm _ (le_max_right _ _) 0)
  obtain ⟨ready, pending, bound, few, kept, sameGranted, sameReleased, covers, shape⟩ :=
    balanced.freePages_shape neat fit clear whole unlisted unowned
  have calmPending : Calm fun loops depth =>
      pending.foldlM (fun sys node => frugalKfree heap loops depth node sys) ready := by
    refine ⟨max (max calmBound bound) (free.length + 1), fun loops enough depth => ?_⟩
    obtain ⟨both, third⟩ := max_le_iff.mp enough
    obtain ⟨first, second⟩ := max_le_iff.mp both
    cases depth with
    | zero =>
      match pending, few with
      | [], _ => exact nofun
      | [node], _ => exact nofun
    | succ depth =>
      have call := calm loops first (depth + 1)
      dsimp only at call
      rw [passes loops third, shape loops second _ frugalKfree_quiet] at call
      exact bind_ne_panic call
  obtain ⟨after, given, settled, returnBound, returned⟩ := releases.pending few kept calmPending
  obtain ⟨⟨grantedAfter, releasedAfter, -, within, freeSet⟩, keptAfter⟩ := settled
  refine ⟨credit pages.size after, given, ⟨⟨grantedAfter.trans sameGranted,
    releasedAfter.trans (sameReleased ▸ rfl), ?_, within, ?_⟩, keptAfter.congr rfl rfl⟩,
    max (max bound returnBound) 1, fun loops enough depth deep => ?_⟩
  · rw [covered_nil]
    exact empty_subset _
  · refine freeSet.trans ?_
    rw [covers, covered_nil, sdiff_empty, sdiff_empty, empty_union]
  · obtain ⟨both, -⟩ := max_le_iff.mp enough
    obtain ⟨first, second⟩ := max_le_iff.mp both
    obtain ⟨bothDeep, positive⟩ := max_le_iff.mp deep
    obtain ⟨-, secondDeep⟩ := max_le_iff.mp bothDeep
    obtain ⟨less, rfl⟩ := exists_eq_succ_of_ne_zero (Nat.one_le_iff_ne_zero.mp positive)
    have call := returned loops second _ secondDeep
    dsimp only at call ⊢
    rw [shape loops first _ kfree_quiet, call]
    rfl

theorem Balanced.finite (balanced : Balanced heap objects owned sys) : owned.Finite :=
  (finite_Iio heap.abi.modulus).subset fun _ member => balanced.owned_lt member

theorem Balanced.wholePages (balanced : Balanced heap objects owned sys) {region : Region}
    (baseAligned : region.base % pageSize = 0) (sizeAligned : region.size % pageSize = 0)
    (positive : 0 < region.size) (inHeap : region.bytes ⊆ owned) : WholePages region := by
  have top : region.limit - 1 ∈ region.bytes := by
    rw [Region.mem_bytes]
    unfold Region.limit
    omega
  have below := balanced.owned_lt (inHeap top)
  have narrow : heap.abi.modulus ≤ addrModulus := by cases heap.abi <;> decide
  refine ⟨baseAligned, sizeAligned, positive, ?_⟩
  unfold Region.limit at below
  omega

/-- `kfree` of an object that becomes part of a region with whole pages, when `free_pages` is known
to do its work for a smaller heap. -/
theorem Balanced.kfree_pages
    (smaller : ∀ less : Set Nat, less.ncard < owned.ncard → Releases heap less) {object : Object}
    (balanced : Balanced heap (object :: objects) owned sys) {extent : Region}
    (isExtent : Extent heap.abi heap.head sys.mem (object.block heap.abi sys.mem) extent)
    (whole : firstBorder extent < lastBorder extent)
    (calm : Calm fun loops depth => frugalKfree heap loops depth object.obj sys) :
    ∃ after given, Settled heap objects owned ∅ sys after [] given ∧
      Returns (fun loops depth => kfree heap loops depth object.obj sys) after := by
  obtain ⟨⟨free, neat⟩, sound, apart⟩ := id balanced
  obtain ⟨calmBound, calm⟩ := calm
  obtain ⟨region, flags, mem, left, baseAligned, sizeAligned, positive, inHeap, returned, kept⟩ :=
    neat.kfree_pages mem_cons_self isExtent whole
  have less : (owned \ region.bytes).ncard < owned.ncard := by
    have inside := Region.base_mem positive
    refine ncard_lt_ncard (Set.sdiff_subset.ssubset_of_mem_notMem (inHeap inside) ?_)
      balanced.finite
    exact fun outside => outside.2 inside
  have wholePages := balanced.wholePages baseAligned sizeAligned positive inHeap
  have ready : Balanced heap objects (owned \ region.bytes)
      { sys with mem, log := .release region :: .kfree object.obj :: sys.log } := by
    refine ⟨⟨left, ?_⟩, sound, apart.mono_left sdiff_subset⟩
    rw [cons_append, erase_cons_head] at kept
    exact kept
  have calmReady : Calm fun loops depth => frugally heap loops mem
      (MemorySystem.freePages heap loops (frugalKfree heap loops depth) ⟨region.base,
        region.size, flags, 0⟩
        { sys with mem, log := .release region :: .kfree object.obj :: sys.log }) := by
    refine ⟨max calmBound (free.length + 1), fun loops enough depth => ?_⟩
    obtain ⟨early, late⟩ := max_le_iff.mp enough
    have call := calm loops early (depth + 1)
    dsimp only at call
    rw [frugalKfree, returned loops late] at call
    exact call
  obtain ⟨after, given, settled, bound, ends⟩ := (smaller _ less).freePages ready wholePages
    ((Set.disjoint_of_subset_left inHeap apart)) disjoint_sdiff_right calmReady
  obtain ⟨⟨grantedAfter, releasedAfter, -, within, freeSet⟩, keptAfter⟩ := settled
  have covers : covered (given ++ [region]) = region.bytes ∪ covered given := by
    rw [covered_append, covered_cons, covered_nil, union_empty, union_comm]
  refine ⟨after, given ++ [region], ⟨⟨grantedAfter, ?_, ?_, ?_, ?_⟩, ?_⟩,
    max bound (free.length + 1) + 1, fun loops enough depth deep => ?_⟩
  · rw [releasedAfter, append_assoc]
    rfl
  · rw [covered_nil]
    exact empty_subset _
  · rw [covers]
    exact union_subset inHeap (within.trans sdiff_subset)
  · rw [freeSet, covers, empty_union, ← union_assoc, union_comm region.bytes]
  · rw [covers, ← Set.sdiff_sdiff]
    exact keptAfter
  · obtain ⟨depth, rfl⟩ := exists_eq_succ_of_ne_zero (Nat.ne_zero_of_lt deep)
    obtain ⟨early, late⟩ := max_le_iff.mp ((le_succ _).trans enough)
    have call := ends loops early depth ((le_max_left _ _).trans (le_of_succ_le_succ deep))
    dsimp only
    rw [kfree, returned loops late]
    exact call

/-- `kfree` when every `kfree` of a smaller heap is known to do its work. -/
theorem releases_of_smaller
    (smaller : ∀ less : Set Nat, less.ncard < owned.ncard → Releases heap less) :
    Releases heap owned := by
  intro object objects sys balanced calm
  by_cases whole : ∃ extent,
      Extent heap.abi heap.head sys.mem (object.block heap.abi sys.mem) extent ∧
      firstBorder extent < lastBorder extent
  · obtain ⟨extent, isExtent, pages⟩ := whole
    exact balanced.kfree_pages smaller isExtent pages calm
  · obtain ⟨⟨free, neat⟩, sound, apart⟩ := balanced
    obtain ⟨mem, left, returned, kept⟩ := neat.kfree_quiet mem_cons_self
      fun extent isExtent pages => whole ⟨extent, isExtent, pages⟩
    rw [cons_append, erase_cons_head] at kept
    have after : Balanced heap objects owned
        { sys with mem, log := .kfree object.obj :: sys.log } :=
      ⟨⟨left, kept⟩, sound, apart⟩
    refine ⟨_, [], after.settled (booked_of_same rfl rfl rfl), free.length + 1,
      fun loops enough depth deep => ?_⟩
    obtain ⟨depth, rfl⟩ := exists_eq_succ_of_ne_zero (Nat.ne_zero_of_lt deep)
    exact kfree_quiet _ _ _ (returned loops enough)

theorem releases (heap : Heap) (owned : Set Nat) : Releases heap owned := by
  induction size : owned.ncard using Nat.strong_induction_on generalizing owned with
  | h size inductionHypothesis =>
    subst size
    exact releases_of_smaller fun less fewer => inductionHypothesis _ fewer less rfl

end MemorySystem

end AIMv6
