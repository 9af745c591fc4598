/-
This file follows the page allocator through runs of `alloc_pages` with any request and `free_pages`
with any region that is not free. It proves two things about the states such a run can reach.

The list is a canonical form of the set of free pages: ascending, with a gap between any two blocks,
it is determined by what it covers, whatever the calls were that led to it.

What `alloc_pages` returns can be relied on exactly when the size is aligned and not above
`__free_space`. For every other request `__alloc` returns `NULL`, which is the zero that reports
success, and grants nothing.

A run is followed as long as the free memory is less than `2 ^ 64` bytes; the block that covers the
whole address space has size zero.
-/

import AIMv6.PageConservation
import AIMv6.Tiling

namespace AIMv6

open List hiding Disjoint Vector

namespace PageAllocator

open Ledger

/-! ### Runs -/

/-- The calls: `alloc_pages`, and `free_pages` with the flags of the pages and the node `kmalloc`
gives it. -/
inductive Call where
  | alloc (request : Pages)
  | free (region : Region) (flags node : Nat)
  deriving DecidableEq, Repr

namespace Call

def apply (allocator : PageAllocator) : Call → PageAllocator
  | alloc request => (allocator.alloc request).2.2.1
  | free region flags node => freePages allocator region flags node

/-- What is freed is whole pages, not empty, and not free yet. -/
def Proper (allocator : PageAllocator) : Call → Prop
  | alloc _ => True
  | free region _ _ =>
    WholePages region ∧ Disjoint region.bytes (covered (regions allocator.blocks))

/-- The free memory can be counted in an `addr_t`. -/
def Countable (allocator : PageAllocator) : Call → Prop
  | alloc _ => True
  | free region _ _ => region.size + totalSize (regions allocator.blocks) < addrModulus

end Call

/-- The states that calls of some kind lead to from `page_allocator_init`. -/
inductive Reached (allowed : PageAllocator → Call → Prop) : PageAllocator → Prop
  | start : Reached allowed init
  | call {allocator : PageAllocator} (call : Call) (earlier : Reached allowed allocator)
      (isAllowed : allowed allocator call) : Reached allowed (call.apply allocator)

/-- The states of the runs that are followed. -/
def Reachable : PageAllocator → Prop :=
  Reached fun allocator call => call.Proper allocator ∧ call.Countable allocator

/-- What holds between the calls. -/
structure Formed (allocator : PageAllocator) : Prop where
  sound : Sound allocator.blocks
  counter : allocator.freeSpace = totalSize (regions allocator.blocks)
  small : allocator.freeSpace < addrModulus

/-! ### The calls -/

variable {allocator : PageAllocator} {request : Pages}

/-- What `alloc_pages` can do: return zero without looking, find no block, or cut the request off a
block. -/
theorem alloc_outcome (allocator : PageAllocator) (request : Pages) :
    (¬ (request.size % pageSize = 0 ∧ request.size ≤ allocator.freeSpace) ∧
        allocator.alloc request = (0, request, allocator, [])) ∨
      (request.size % pageSize = 0 ∧ request.size ≤ allocator.freeSpace) ∧
        ((cutFirstFit request.size allocator.blocks = none ∧
            allocator.alloc request = (eof, request, allocator, [])) ∨
          ∃ paddr blocks freed,
            cutFirstFit request.size allocator.blocks = some (paddr, blocks, freed) ∧
            allocator.alloc request = (0, { request with paddr },
              ⟨blocks, wrapSub addrModulus allocator.freeSpace request.size⟩, freed)) := by
  have alignment : isAligned request.size pageSize = true ↔ request.size % pageSize = 0 :=
    isAligned_two_pow request.size 12
  unfold PageAllocator.alloc
  by_cases aligned : isAligned request.size pageSize = true
  · rw [aligned, if_neg (by decide)]
    by_cases available : allocator.freeSpace < request.size
    · rw [if_pos available]
      exact Or.inl ⟨fun both => not_le.mpr available both.2, rfl⟩
    · rw [if_neg available]
      refine Or.inr ⟨⟨alignment.mp aligned, not_lt.mp available⟩, ?_⟩
      rcases found : cutFirstFit request.size allocator.blocks with _ | ⟨paddr, blocks, freed⟩
      · exact Or.inl ⟨rfl, rfl⟩
      · exact Or.inr ⟨paddr, blocks, freed, rfl, rfl⟩
  · rw [Bool.not_eq_true] at aligned
    rw [aligned, if_pos (by decide)]
    refine Or.inl ⟨fun both => ?_, rfl⟩
    rw [← alignment, aligned] at both
    cases both.1

variable {blocks : List PageBlock} {size paddr : Nat} {freed : List Nat} {block : PageBlock}

/-- What a grant leaves of the free memory is counted. -/
theorem Formed.cut (formed : Formed allocator) (aligned : request.size % pageSize = 0)
    (available : request.size ≤ allocator.freeSpace)
    (found : cutFirstFit request.size allocator.blocks = some (paddr, blocks, freed)) :
    Formed ⟨blocks, wrapSub addrModulus allocator.freeSpace request.size⟩ := by
  have cut := cutFirstFit_spec aligned allocator.blocks formed.sound found
  have total := cut.total
  have counter := formed.counter
  have small := formed.small
  refine ⟨cut.sound, ?_, ?_⟩
  · rw [wrapSub_of_le available small]
    dsimp only
    omega
  · rw [wrapSub_of_le available small]
    dsimp only
    omega

theorem Formed.alloc (formed : Formed allocator) (request : Pages) :
    Formed (allocator.alloc request).2.2.1 := by
  rcases alloc_outcome allocator request with ⟨-, call⟩ |
    ⟨⟨aligned, available⟩, ⟨-, call⟩ | ⟨paddr, blocks, freed, found, call⟩⟩
  · rw [call]
    exact formed
  · rw [call]
    exact formed
  · rw [call]
    exact formed.cut aligned available found

/-- What `free_pages` does to the list and to the counter. -/
theorem Formed.free (formed : Formed allocator) {region : Region} (pages : WholePages region)
    (apart : Disjoint region.bytes (covered (regions allocator.blocks)))
    (countable : region.size + totalSize (regions allocator.blocks) < addrModulus)
    (flags node : Nat) :
    Formed (freePages allocator region flags node) ∧
      covered (regions (freePages allocator region flags node).blocks) =
        region.bytes ∪ covered (regions allocator.blocks) ∧
      totalSize (regions (freePages allocator region flags node).blocks) =
        region.size + totalSize (regions allocator.blocks) := by
  obtain ⟨linked, counter⟩ :=
    freePages_spec flags node pages formed.sound apart countable formed.counter
  rw [getFree] at counter
  refine ⟨⟨linked.sound, counter.trans linked.total.symm, ?_⟩, linked.covers, linked.total⟩
  rw [counter]
  exact countable

theorem Reachable.formed (reachable : Reachable allocator) : Formed allocator := by
  induction reachable with
  | start => exact ⟨sound_nil, rfl, by decide⟩
  | call call earlier isAllowed formed =>
    cases call with
    | alloc request => exact formed.alloc request
    | free region flags node =>
      obtain ⟨⟨pages, apart⟩, countable⟩ := isAllowed
      exact (formed.free pages apart countable flags node).1

/-! ### The first fit -/

theorem cutFirstFit_eq_none :
    cutFirstFit size blocks = none ↔ ∀ block ∈ blocks, block.size < size := by
  induction blocks with
  | nil => exact iff_of_true rfl nofun
  | cons this rest inductionHypothesis =>
    rw [forall_mem_cons, ← inductionHypothesis, cutFirstFit]
    by_cases fits : size ≤ this.size
    · rw [if_pos fits]
      refine iff_of_false ?_ fun both => not_lt.mpr fits both.1
      dsimp only
      split <;> exact Option.some_ne_none _
    · rw [if_neg fits]
      rcases cutFirstFit size rest with _ | ⟨paddr, blocks, freed⟩
      · exact iff_of_true rfl ⟨Nat.lt_of_not_le fits, rfl⟩
      · exact iff_of_false (Option.some_ne_none _) fun both => Option.some_ne_none _ both.2

/-- The request is cut off the first block that is large enough. -/
theorem cutFirstFit_first {left : List PageBlock}
    (found : cutFirstFit size blocks = some (paddr, left, freed)) :
    ∃ front block back, blocks = front ++ block :: back ∧ (∀ other ∈ front, other.size < size) ∧
      size ≤ block.size ∧ block.paddr = paddr := by
  induction blocks generalizing paddr left freed with
  | nil => cases found
  | cons this rest inductionHypothesis =>
    by_cases fits : size ≤ this.size
    · refine ⟨[], this, rest, rfl, nofun, fits, ?_⟩
      rw [cutFirstFit, if_pos fits] at found
      dsimp only at found
      split at found
      · cases found
        rfl
      · cases found
        rfl
    · rw [cutFirstFit, if_neg fits] at found
      rcases inner : cutFirstFit size rest with _ | ⟨innerPaddr, innerLeft, innerFreed⟩
      · rw [inner] at found
        cases found
      · rw [inner] at found
        cases found
        obtain ⟨front, block, back, rfl, smaller, large, place⟩ := inductionHypothesis inner
        exact ⟨this :: front, block, back, rfl,
          forall_mem_cons.mpr ⟨Nat.lt_of_not_le fits, smaller⟩, large, place⟩

theorem Sound.first_lowest {front back : List PageBlock} (sound : Sound (front ++ block :: back))
    (smaller : ∀ other ∈ front, other.size < size) {other : PageBlock}
    (member : other ∈ front ++ block :: back) (large : size ≤ other.size) :
    block.paddr ≤ other.paddr := by
  rcases mem_append.mp member with before | here
  · exact absurd large (not_le.mpr (smaller other before))
  · rcases mem_cons.mp here with rfl | behind
    · exact le_rfl
    · have below := (sound_cons.mp (sound_append.mp sound).2.1).2.2 other behind
      omega

/-! ### What `alloc_pages` reports -/

/-- `alloc_pages` returns zero exactly when the size is aligned and a free block is large enough.
Then the front of the lowest such block is granted and leaves the free memory; otherwise the return
value is `EOF` and nothing has changed. -/
structure Truthful (allocator : PageAllocator) (request : Pages) : Prop where
  zero_iff : (allocator.alloc request).1 = 0 ↔
    request.size % pageSize = 0 ∧ ∃ block ∈ allocator.blocks, request.size ≤ block.size
  granted : (allocator.alloc request).1 = 0 → ∃ block ∈ allocator.blocks,
    request.size ≤ block.size ∧
    (∀ other ∈ allocator.blocks, request.size ≤ other.size → block.paddr ≤ other.paddr) ∧
    (allocator.alloc request).2.1 = { request with paddr := block.paddr } ∧
    covered (regions (allocator.alloc request).2.2.1.blocks) =
      covered (regions allocator.blocks) \ (⟨block.paddr, request.size⟩ : Region).bytes
  refused : (allocator.alloc request).1 ≠ 0 → (allocator.alloc request).1 = eof ∧
    (allocator.alloc request).2.1 = request ∧ (allocator.alloc request).2.2.1 = allocator

theorem size_le_totalSize (member : block ∈ blocks) : block.size ≤ totalSize (regions blocks) := by
  refine single_le_sum (fun _ _ => Nat.zero_le _) _ ?_
  rw [regions, map_map]
  exact mem_map_of_mem member

theorem Formed.truthful (formed : Formed allocator) (aligned : request.size % pageSize = 0)
    (available : request.size ≤ allocator.freeSpace) : Truthful allocator request := by
  rcases alloc_outcome allocator request with ⟨not, -⟩ |
    ⟨-, ⟨none, call⟩ | ⟨paddr, blocks, freed, found, call⟩⟩
  · exact absurd ⟨aligned, available⟩ not
  · have small := cutFirstFit_eq_none.mp none
    have notZero : (allocator.alloc request).1 ≠ 0 := by
      rw [call]
      exact (by decide : eof ≠ 0)
    refine ⟨iff_of_false notZero ?_, fun zero => absurd zero notZero, fun _ => by rw [call]; simp⟩
    rintro ⟨-, block, member, large⟩
    exact absurd large (not_le.mpr (small block member))
  · obtain ⟨front, block, back, split, smaller, large, rfl⟩ := cutFirstFit_first found
    have cut := cutFirstFit_spec aligned allocator.blocks formed.sound found
    have sound := formed.sound
    have member : block ∈ allocator.blocks := by
      rw [split]
      exact mem_append_right _ mem_cons_self
    have zero : (allocator.alloc request).1 = 0 := by rw [call]
    refine ⟨iff_of_true zero ⟨aligned, block, member, large⟩, fun _ => ⟨block, member, large,
      fun other inList fits => ?_, by rw [call], ?_⟩, fun notZero => absurd zero notZero⟩
    · rw [split] at sound inList
      exact sound.first_lowest smaller inList fits
    · rw [call, cut.covers, Set.union_sdiff_left, cut.apart.sdiff_eq_right]

/-- In every state reached, `alloc_pages` reports truthfully exactly when the size is aligned and
not above the free memory. -/
theorem alloc_truthful_iff (reachable : Reachable allocator) (request : Pages) :
    Truthful allocator request ↔
      request.size % pageSize = 0 ∧ request.size ≤ allocator.getFree := by
  have formed := reachable.formed
  constructor
  · intro truthful
    rcases alloc_outcome allocator request with ⟨not, call⟩ | ⟨both, -⟩
    · obtain ⟨aligned, block, member, large⟩ := truthful.zero_iff.mp (by rw [call])
      refine absurd ⟨aligned, ?_⟩ not
      rw [formed.counter]
      exact large.trans (size_le_totalSize member)
    · exact both
  · rintro ⟨aligned, available⟩
    exact formed.truthful aligned available

/-- The state after one page has been freed. -/
def onePageFree : PageAllocator := ⟨[⟨4096, 4096, 0, 1⟩], 4096⟩

theorem onePageFree_reachable : Reachable onePageFree := by
  have pages : WholePages ⟨4096, 4096⟩ := ⟨by decide, by decide, by decide, by decide⟩
  have freed : (Call.free ⟨4096, 4096⟩ 0 1).apply init = onePageFree := by decide +kernel
  rw [← freed]
  exact Reached.call _ Reached.start ⟨⟨pages, by simp [init]⟩, by
    simp [Call.Countable, init]; decide⟩

theorem alloc_truthful_onePage : Reachable onePageFree ∧ Truthful onePageFree ⟨0, 4096, 0, 0⟩ :=
  ⟨onePageFree_reachable, (alloc_truthful_iff onePageFree_reachable ⟨0, 4096, 0, 0⟩).mpr
    (by decide)⟩

/-- With one page free, a request for two pages and a request for a hundred bytes both return
zero. -/
theorem alloc_untruthful :
    Reachable onePageFree ∧ ¬ Truthful onePageFree ⟨0, 8192, 0, 0⟩ ∧
      ¬ Truthful onePageFree ⟨0, 100, 0, 0⟩ := by
  refine ⟨onePageFree_reachable, fun truthful => ?_, fun truthful => ?_⟩
  · obtain ⟨-, block, member, large⟩ := truthful.zero_iff.mp (by decide)
    rw [mem_singleton.mp member] at large
    exact absurd large (by decide)
  · exact absurd (truthful.zero_iff.mp (by decide)).1 (by decide)

/-! ### The list as a canonical form -/

theorem Sound.spread_regions (sound : Sound blocks) : Spread (regions blocks) :=
  pairwise_map.mpr sound.spread

theorem Sound.regions_nonempty (sound : Sound blocks) :
    ∀ region ∈ regions blocks, 0 < region.size :=
  forall_mem_map.mpr fun block member => (sound.fine block member).nonempty

theorem Sound.regions_eq {others : List PageBlock} (sound : Sound blocks) (other : Sound others)
    (same : covered (regions blocks) = covered (regions others)) :
    regions blocks = regions others :=
  sound.spread_regions.eq_of_covered sound.regions_nonempty other.spread_regions
    other.regions_nonempty same

/-- Pages that are given to `free_pages`, with the node that the call allocates. -/
structure Returned where
  region : Region
  flags : Nat
  node : Nat

/-- Free a collection, one region after the other. -/
def freeAll (allocator : PageAllocator) (collection : List Returned) : PageAllocator :=
  collection.foldl (fun allocator pages => freePages allocator pages.region pages.flags pages.node)
    allocator

/-- Regions that can be freed in any order. -/
structure Freeable (allocator : PageAllocator) (collection : List Region) : Prop where
  pages : ∀ region ∈ collection, WholePages region
  disjoint : collection.Pairwise fun first second => Disjoint first.bytes second.bytes
  apart : ∀ region ∈ collection, Disjoint region.bytes (covered (regions allocator.blocks))
  countable : totalSize collection + totalSize (regions allocator.blocks) < addrModulus

theorem Freeable.perm {collection others : List Region} (freeable : Freeable allocator collection)
    (same : collection.Perm others) : Freeable allocator others where
  pages region member := freeable.pages region (same.mem_iff.mpr member)
  disjoint := (same.pairwise_iff fun disjoint => disjoint.symm).mp freeable.disjoint
  apart region member := freeable.apart region (same.mem_iff.mpr member)
  countable := by
    have total : totalSize collection = totalSize others := (same.map Region.size).sum_eq
    rw [← total]
    exact freeable.countable

/-- Freeing a collection adds what it covers. -/
theorem Formed.freeAll {collection : List Returned} (formed : Formed allocator)
    (freeable : Freeable allocator (collection.map Returned.region)) :
    Formed (freeAll allocator collection) ∧
      covered (regions (PageAllocator.freeAll allocator collection).blocks) =
        covered (collection.map Returned.region) ∪ covered (regions allocator.blocks) := by
  induction collection generalizing allocator with
  | nil =>
    refine ⟨formed, ?_⟩
    rw [map_nil, covered_nil, Set.empty_union]
    rfl
  | cons this rest inductionHypothesis =>
    obtain ⟨pages, disjoint, apart, countable⟩ := freeable
    rw [map_cons] at pages disjoint apart countable
    rw [map_cons, covered_cons]
    obtain ⟨thisPages, restPages⟩ := forall_mem_cons.mp pages
    obtain ⟨thisDisjoint, restDisjoint⟩ := pairwise_cons.mp disjoint
    obtain ⟨thisApart, restApart⟩ := forall_mem_cons.mp apart
    rw [totalSize_cons] at countable
    obtain ⟨next, cover, total⟩ :=
      formed.free thisPages thisApart (by omega) this.flags this.node
    have later := inductionHypothesis next {
      pages := restPages
      disjoint := restDisjoint
      apart := fun region member => by
        rw [cover]
        exact ((thisDisjoint region member).symm).union_right (restApart region member)
      countable := by
        rw [total]
        omega }
    rw [cover, ← Set.union_assoc, Set.union_comm (covered (rest.map _))] at later
    exact later

/-- What `alloc_pages` has granted can be given back, and the list is as before. -/
theorem Formed.free_granted (formed : Formed allocator) (aligned : request.size % pageSize = 0)
    (nonempty : 0 < request.size) (available : request.size ≤ allocator.freeSpace)
    (granted : (allocator.alloc request).1 = 0) (flags node : Nat) :
    regions (freePages (allocator.alloc request).2.2.1
      ⟨(allocator.alloc request).2.1.paddr, request.size⟩ flags node).blocks =
      regions allocator.blocks := by
  rcases alloc_outcome allocator request with ⟨not, -⟩ |
    ⟨-, ⟨-, call⟩ | ⟨paddr, blocks, freed, found, call⟩⟩
  · exact absurd ⟨aligned, available⟩ not
  · rw [call] at granted
    exact absurd granted (by decide : eof ≠ 0)
  · rw [call]
    have cut := cutFirstFit_spec aligned allocator.blocks formed.sound found
    obtain ⟨block, member, rfl, fits⟩ := cut.origin
    obtain ⟨paddrAligned, -, -, inside⟩ := formed.sound.fine block member
    have counted : request.size + totalSize (regions blocks) < addrModulus := by
      rw [← cut.total, ← formed.counter]
      exact formed.small
    obtain ⟨next, cover, -⟩ := (formed.cut aligned available found).free
      ⟨paddrAligned, aligned, nonempty, (Nat.add_le_add_left fits _).trans inside⟩ cut.apart counted
      flags node
    exact next.sound.regions_eq formed.sound (cover.trans cut.covers.symm)

/-- The list of blocks is a canonical form of the free memory. In the states reached, two lists that
cover the same have the same blocks, and these ascend with a gap between any two; a collection of
disjoint regions gives one list whatever the order in which it is freed; and freeing what
`alloc_pages` has just granted restores the list. -/
theorem free_list_canonical {first second : PageAllocator} (reachable : Reachable first)
    (reachableSecond : Reachable second) :
    (covered (regions first.blocks) = covered (regions second.blocks) →
        regions first.blocks = regions second.blocks) ∧
      Spread (regions first.blocks) ∧
      (∀ collection others : List Returned, Freeable first (collection.map Returned.region) →
        (collection.map Returned.region).Perm (others.map Returned.region) →
        regions (freeAll first collection).blocks = regions (freeAll first others).blocks) ∧
      ∀ (request : Pages) (flags node : Nat), request.size % pageSize = 0 → 0 < request.size →
        request.size ≤ first.getFree → (first.alloc request).1 = 0 →
        regions (freePages (first.alloc request).2.2.1
          ⟨(first.alloc request).2.1.paddr, request.size⟩ flags node).blocks =
          regions first.blocks := by
  have formed := reachable.formed
  refine ⟨formed.sound.regions_eq reachableSecond.formed.sound, formed.sound.spread_regions,
    fun collection others freeable same => ?_, fun request flags node aligned nonempty available
      granted => formed.free_granted aligned nonempty available granted flags node⟩
  obtain ⟨sound, cover⟩ := formed.freeAll freeable
  obtain ⟨soundOthers, coverOthers⟩ := formed.freeAll (freeable.perm same)
  refine sound.sound.regions_eq soundOthers.sound ?_
  rw [cover, coverOthers, covered_perm same]

/-- With one page free, the two orders of freeing its neighbours give the same list, and so does
granting the page and freeing it. -/
theorem free_list_canonical_onePage :
    Reachable onePageFree ∧
      regions (freeAll onePageFree [⟨⟨0, 4096⟩, 0, 2⟩, ⟨⟨8192, 4096⟩, 0, 3⟩]).blocks =
        regions (freeAll onePageFree [⟨⟨8192, 4096⟩, 0, 2⟩, ⟨⟨0, 4096⟩, 0, 3⟩]).blocks ∧
      regions (freePages (onePageFree.alloc ⟨0, 4096, 0, 0⟩).2.2.1 ⟨4096, 4096⟩ 0 2).blocks =
        regions onePageFree.blocks := by
  have canonical := free_list_canonical onePageFree_reachable onePageFree_reachable
  have pages : ∀ region ∈ [(⟨0, 4096⟩ : Region), ⟨8192, 4096⟩], WholePages region := by
    rw [forall_mem_cons, forall_mem_singleton]
    exact ⟨⟨by decide, by decide, by decide, by decide⟩,
      ⟨by decide, by decide, by decide, by decide⟩⟩
  have freeable : Freeable onePageFree [⟨0, 4096⟩, ⟨8192, 4096⟩] := {
    pages := pages
    disjoint := List.pairwise_pair.mpr (Region.disjoint_of_limit_le (by decide))
    apart := by
      rw [forall_mem_cons, forall_mem_singleton]
      refine ⟨disjoint_covered.mpr ?_, disjoint_covered.mpr ?_⟩
      · exact List.forall_mem_singleton.mpr (Region.disjoint_of_limit_le (by decide))
      · exact List.forall_mem_singleton.mpr (Region.disjoint_of_limit_le (by decide)).symm
    countable := by decide }
  exact ⟨onePageFree_reachable,
    canonical.2.2.1 [⟨⟨0, 4096⟩, 0, 2⟩, ⟨⟨8192, 4096⟩, 0, 3⟩] [⟨⟨8192, 4096⟩, 0, 2⟩,
      ⟨⟨0, 4096⟩, 0, 3⟩] freeable (List.Perm.swap _ _ _),
    canonical.2.2.2 ⟨0, 4096, 0, 0⟩ 0 2 (by decide) (by decide) (by decide) (by decide)⟩

/-- When the whole address space is free, its block has size zero. A request for no bytes takes the
block off the list and leaves the free memory as it is. -/
theorem free_list_not_canonical :
    ∃ allocator, Reached (fun allocator call => call.Proper allocator) allocator ∧
      covered (regions ((Call.alloc ⟨0, 0, 0, 0⟩).apply allocator).blocks) =
        covered (regions allocator.blocks) ∧
      regions ((Call.alloc ⟨0, 0, 0, 0⟩).apply allocator).blocks ≠ regions allocator.blocks := by
  have lower : WholePages ⟨0, 2 ^ 63⟩ := ⟨by decide, by decide, by decide, by decide⟩
  have upper : WholePages ⟨2 ^ 63, 2 ^ 63⟩ := ⟨by decide, by decide, by decide, by decide⟩
  have half : Reached (fun allocator call => call.Proper allocator) ⟨[⟨0, 2 ^ 63, 0, 1⟩], 2 ^ 63⟩ :=
    Reached.call (.free ⟨0, 2 ^ 63⟩ 0 1) Reached.start ⟨lower, by simp [init]⟩
  have apart : Disjoint (⟨2 ^ 63, 2 ^ 63⟩ : Region).bytes (covered (regions [⟨0, 2 ^ 63, 0, 1⟩])) :=
    disjoint_covered.mpr (List.forall_mem_singleton.mpr (Region.disjoint_of_limit_le le_rfl).symm)
  have wrapped : freePages ⟨[⟨0, 2 ^ 63, 0, 1⟩], 2 ^ 63⟩ ⟨2 ^ 63, 2 ^ 63⟩ 0 2 =
      ⟨[⟨0, 0, 0, 1⟩], 0⟩ := by decide +kernel
  have whole := Reached.call (.free ⟨2 ^ 63, 2 ^ 63⟩ 0 2) half ⟨upper, apart⟩
  rw [Call.apply, wrapped] at whole
  have taken : ((Call.alloc ⟨0, 0, 0, 0⟩).apply ⟨[⟨0, 0, 0, 1⟩], 0⟩).blocks = [] := by
    decide +kernel
  refine ⟨_, whole, ?_, ?_⟩
  · rw [taken]
    simp [regions, PageBlock.region, Region.bytes, Region.limit]
  · rw [taken]
    decide

end PageAllocator

end AIMv6
