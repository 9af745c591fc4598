/-
This file models the first-fit page allocator of `kern/mm/pmm/ff.c` and proves
what one call does to the set of free bytes. The free list is the list of its
blocks in list order; a block keeps the address `kmalloc` gave its node, so
that the nodes a call hands to `kfree` can be named. `__alloc` cuts the request
off the front of the first block that is large enough; `__free` links the
region in at its place and fuses it with the block below and the block above
when they touch. The counter `__free_space` is separate from the list in the
source and is kept separate here. `addr_t` is 64 bits wide on every target.
-/

import AIMv6.Align
import AIMv6.Region

namespace AIMv6

open List Nat

/-- The number of values of `addr_t`. -/
def addrModulus : Nat := 2 ^ 64

/-- `EOF`. -/
def eof : Int := -1

/-- `struct pages`. -/
structure Pages where
  paddr : Nat
  size : Nat
  flags : Nat
  refs : Nat := 0
  deriving DecidableEq, Repr

/-- `struct block`: a `struct pages` on the free list. The list node is
represented by the address `kmalloc` returned for the block. -/
structure PageBlock where
  paddr : Nat
  size : Nat
  flags : Nat
  node : Nat
  deriving DecidableEq, Repr

/-- The bytes a block describes. -/
def PageBlock.region (block : PageBlock) : Region := ⟨block.paddr, block.size⟩

/-- `__head` and `__free_space`. -/
structure PageAllocator where
  blocks : List PageBlock
  freeSpace : Nat
  deriving DecidableEq, Repr

namespace PageAllocator

/-- `page_allocator_init`. -/
def init : PageAllocator := ⟨[], 0⟩

/-- The search loop of `__alloc` and the cut it makes: the address granted, the blocks
left, and the nodes passed to `kfree`. -/
def cutFirstFit (size : Nat) : List PageBlock → Option (Nat × List PageBlock × List Nat)
  | [] => none
  | this :: rest =>
    if size ≤ this.size then
      let left := { this with paddr := (this.paddr + size) % addrModulus, size := this.size - size }
      if left.size = 0 then some (this.paddr, rest, [this.node])
      else some (this.paddr, left :: rest, [])
    else
      match cutFirstFit size rest with
      | none => none
      | some (paddr, blocks, freed) => some (paddr, this :: blocks, freed)

/-- `__alloc`: the return value, the caller's `struct pages` afterwards, the allocator and
the nodes passed to `kfree`. The two early exits return `NULL`, which is zero. -/
def alloc (allocator : PageAllocator) (pages : Pages) : Int × Pages × PageAllocator × List Nat :=
  if !isAligned pages.size pageSize then (0, pages, allocator, [])
  else if allocator.freeSpace < pages.size then (0, pages, allocator, [])
  else
    match cutFirstFit pages.size allocator.blocks with
    | none => (eof, pages, allocator, [])
    | some (paddr, blocks, freed) =>
      (0, { pages with paddr }, ⟨blocks, wrapSub addrModulus allocator.freeSpace pages.size⟩, freed)

/-- "merge upwards": fuse a block with the one after it when they touch. -/
def mergeUp (this : PageBlock) : List PageBlock → List PageBlock × List Nat
  | [] => ([this], [])
  | next :: rest =>
    if (this.paddr + this.size) % addrModulus = next.paddr then
      ({ this with size := (this.size + next.size) % addrModulus } :: rest, [next.node])
    else (this :: next :: rest, [])

/-- "merge downwards" and then "merge upwards", with the new block linked in between the
blocks below it and the blocks above it. -/
def splice (this : PageBlock) (before after : List PageBlock) : List PageBlock × List Nat :=
  match before.getLast? with
  | none => mergeUp this after
  | some prev =>
    if (prev.paddr + prev.size) % addrModulus = this.paddr then
      let merged := mergeUp { prev with size := (prev.size + this.size) % addrModulus } after
      (before.dropLast ++ merged.1, this.node :: merged.2)
    else
      let merged := mergeUp this after
      (before ++ merged.1, merged.2)

/-- The list part of `__free`: the loop stops at the first block not below the new one. -/
def link (this : PageBlock) (blocks : List PageBlock) : List PageBlock × List Nat :=
  splice this (blocks.takeWhile fun block => block.paddr < this.paddr)
    (blocks.dropWhile fun block => block.paddr < this.paddr)

/-- `__free`, with `node` the result of its `kmalloc`; `none` is the panic when that fails. -/
def free (allocator : PageAllocator) (pages : Pages) (node : Option Nat) :
    Option (PageAllocator × List Nat) :=
  if !isAligned pages.paddr pageSize then some (allocator, [])
  else if !isAligned pages.size pageSize then some (allocator, [])
  else
    match node with
    | none => none
    | some node =>
      let linked := link ⟨pages.paddr, pages.size, pages.flags, node⟩ allocator.blocks
      some (⟨linked.1, (allocator.freeSpace + pages.size) % addrModulus⟩, linked.2)

/-- `__get_free`. -/
def getFree (allocator : PageAllocator) : Nat := allocator.freeSpace

/-- The regions on the free list. -/
def regions (blocks : List PageBlock) : List Region := blocks.map PageBlock.region

@[simp] theorem regions_nil : regions [] = [] := rfl

@[simp] theorem regions_cons (block : PageBlock) (rest : List PageBlock) :
    regions (block :: rest) = block.region :: regions rest := rfl

@[simp] theorem regions_append (first second : List PageBlock) :
    regions (first ++ second) = regions first ++ regions second := map_append

/-! ### Well-formed free lists -/

/-- What every block on the list satisfies: whole pages, not empty, inside the address space. -/
structure Fine (block : PageBlock) : Prop where
  paddrAligned : block.paddr % pageSize = 0
  sizeAligned : block.size % pageSize = 0
  nonempty : 0 < block.size
  inside : block.paddr + block.size ≤ addrModulus

/-- A well-formed free list: fine blocks in ascending order, no two of them touching. -/
structure Sound (blocks : List PageBlock) : Prop where
  fine : ∀ block ∈ blocks, Fine block
  spread : blocks.Pairwise fun first second => first.paddr + first.size < second.paddr

theorem sound_nil : Sound [] := ⟨by simp, List.Pairwise.nil⟩

variable {block prev : PageBlock} {rest blocks left lowest : List PageBlock} {size paddr : Nat}
  {freed : List Nat}

theorem sound_cons :
    Sound (block :: rest) ↔
      Fine block ∧ Sound rest ∧ ∀ other ∈ rest, block.paddr + block.size < other.paddr := by
  constructor
  · rintro ⟨fine, spread⟩
    rw [pairwise_cons] at spread
    exact ⟨fine block mem_cons_self,
      ⟨fun other member => fine other (mem_cons_of_mem _ member), spread.2⟩, spread.1⟩
  · rintro ⟨fine, ⟨fineRest, spread⟩, below⟩
    refine ⟨fun other member => ?_, pairwise_cons.mpr ⟨below, spread⟩⟩
    rcases mem_cons.mp member with rfl | tail
    · exact fine
    · exact fineRest other tail

theorem sound_append {first second : List PageBlock} :
    Sound (first ++ second) ↔
      Sound first ∧ Sound second ∧
        ∀ low ∈ first, ∀ high ∈ second, low.paddr + low.size < high.paddr := by
  constructor
  · rintro ⟨fine, spread⟩
    rw [pairwise_append] at spread
    exact ⟨⟨fun block member => fine block (mem_append_left _ member), spread.1⟩,
      ⟨fun block member => fine block (mem_append_right _ member), spread.2.1⟩, spread.2.2⟩
  · rintro ⟨⟨fineFirst, spreadFirst⟩, ⟨fineSecond, spreadSecond⟩, between⟩
    refine ⟨fun block member => ?_, pairwise_append.mpr ⟨spreadFirst, spreadSecond, between⟩⟩
    rcases mem_append.mp member with left | right
    · exact fineFirst block left
    · exact fineSecond block right

/-! ### Cutting a request off the first fit -/

/-- What a successful search leaves behind. -/
structure Cut (size : Nat) (blocks left : List PageBlock) (paddr : Nat) : Prop where
  sound : Sound left
  covers : covered (regions blocks) = (⟨paddr, size⟩ : Region).bytes ∪ covered (regions left)
  apart : Disjoint (⟨paddr, size⟩ : Region).bytes (covered (regions left))
  total : totalSize (regions blocks) = size + totalSize (regions left)
  floor : ∀ block ∈ left, ∃ old ∈ blocks, old.paddr ≤ block.paddr
  origin : ∃ old ∈ blocks, old.paddr = paddr ∧ size ≤ old.size

theorem disjoint_covered_of_below {region : Region}
    (below : ∀ block ∈ blocks, region.limit ≤ block.paddr) :
    Disjoint region.bytes (covered (regions blocks)) := by
  refine disjoint_covered.mpr fun other member => ?_
  obtain ⟨block, inList, rfl⟩ := mem_map.mp member
  exact Region.disjoint_of_limit_le (below block inList)

variable {this : PageBlock} {after : List PageBlock}

theorem cut_head (sizeAligned : size % pageSize = 0) (sound : Sound (this :: rest))
    (fits : size ≤ this.size)
    (found : cutFirstFit size (this :: rest) = some (paddr, left, freed)) :
    Cut size (this :: rest) left paddr := by
  obtain ⟨fine, soundRest, below⟩ := sound_cons.mp sound
  obtain ⟨paddrAligned, blockAligned, nonempty, inside⟩ := fine
  unfold pageSize at *
  simp only [cutFirstFit, if_pos fits] at found
  have whole : this.region.bytes = (⟨this.paddr, size⟩ : Region).bytes ∪
      (⟨this.paddr + size, this.size - size⟩ : Region).bytes :=
    Region.bytes_cut this.paddr this.size size fits
  split at found
  · rename_i exhausted
    obtain ⟨rfl, rfl, -⟩ := found
    have same : size = this.size := by omega
    subst same
    exact {
      sound := soundRest
      covers := by rw [regions_cons, covered_cons]; rfl
      apart := disjoint_covered_of_below fun block member => le_of_lt (below block member)
      total := by rw [regions_cons, totalSize_cons]; rfl
      floor := fun block member => ⟨block, mem_cons_of_mem _ member, le_rfl⟩
      origin := ⟨this, mem_cons_self, rfl, le_rfl⟩ }
  · rename_i remains
    simp only [Option.some.injEq, Prod.mk.injEq] at found
    obtain ⟨rfl, rfl, -⟩ := found
    have moved : (this.paddr + size) % addrModulus = this.paddr + size :=
      mod_eq_of_lt (by omega)
    rw [moved]
    exact {
      sound := by
        refine sound_cons.mpr ⟨⟨?_, ?_, ?_, ?_⟩, soundRest, fun other member => ?_⟩
        · show (this.paddr + size) % 4096 = 0
          omega
        · show (this.size - size) % 4096 = 0
          omega
        · show 0 < this.size - size
          omega
        · show this.paddr + size + (this.size - size) ≤ addrModulus
          omega
        · show this.paddr + size + (this.size - size) < other.paddr
          have gap := below other member
          omega
      covers := by
        rw [regions_cons, covered_cons, whole, regions_cons, covered_cons, Set.union_assoc]
        rfl
      apart := by
        refine disjoint_covered_of_below fun block member => ?_
        rcases mem_cons.mp member with rfl | tail
        · exact le_rfl
        · have gap := below block tail
          show this.paddr + size ≤ block.paddr
          omega
      total := by
        rw [regions_cons, totalSize_cons, regions_cons, totalSize_cons]
        show this.size + _ = size + (this.size - size + _)
        omega
      floor := fun block member => by
        rcases mem_cons.mp member with rfl | tail
        · exact ⟨this, mem_cons_self, le_add_right _ _⟩
        · exact ⟨block, mem_cons_of_mem _ tail, le_rfl⟩
      origin := ⟨this, mem_cons_self, rfl, fits⟩ }

theorem cutFirstFit_spec (sizeAligned : size % pageSize = 0) (blocks : List PageBlock)
    (sound : Sound blocks) (found : cutFirstFit size blocks = some (paddr, left, freed)) :
    Cut size blocks left paddr := by
  induction blocks generalizing paddr left freed with
  | nil => cases found
  | cons this rest inductionHypothesis =>
    by_cases fits : size ≤ this.size
    · exact cut_head sizeAligned sound fits found
    obtain ⟨fine, soundRest, below⟩ := sound_cons.mp sound
    simp only [cutFirstFit, if_neg fits] at found
    split at found
    · cases found
    rename_i paddr' left' freed' inner
    obtain ⟨rfl, rfl, -⟩ := found
    have cut := inductionHypothesis soundRest inner
    obtain ⟨old, oldMember, rfl, oldFits⟩ := cut.origin
    exact {
      sound := sound_cons.mpr ⟨fine, cut.sound, fun other member => by
        obtain ⟨source, sourceMember, floor⟩ := cut.floor other member
        exact lt_of_lt_of_le (below source sourceMember) floor⟩
      covers := by
        rw [regions_cons, covered_cons, cut.covers, regions_cons, covered_cons, Set.union_left_comm]
      apart := by
        rw [regions_cons, covered_cons, Set.disjoint_union_right]
        have before : this.region.limit ≤ old.paddr := le_of_lt (below old oldMember)
        exact ⟨(Region.disjoint_of_limit_le before).symm, cut.apart⟩
      total := by
        rw [regions_cons, totalSize_cons, cut.total, regions_cons, totalSize_cons]
        omega
      floor := fun block member => by
        rcases mem_cons.mp member with rfl | tail
        · exact ⟨block, mem_cons_self, le_rfl⟩
        · obtain ⟨source, sourceMember, floor⟩ := cut.floor block tail
          exact ⟨source, mem_cons_of_mem _ sourceMember, floor⟩
      origin := ⟨old, mem_cons_of_mem _ oldMember, rfl, oldFits⟩ }

/-! ### Linking a region in -/

/-- What linking a block into a list yields. -/
structure Linked (this : PageBlock) (blocks result : List PageBlock) : Prop where
  sound : Sound result
  covers : covered (regions result) = this.region.bytes ∪ covered (regions blocks)
  total : totalSize (regions result) = this.size + totalSize (regions blocks)

/-- Merging upwards below a well-formed list; everything stays above the merged block's base. -/
theorem mergeUp_spec (fine : Fine this) (sound : Sound after)
    (above : ∀ block ∈ after, this.paddr + this.size ≤ block.paddr)
    (small : this.size + totalSize (regions after) < addrModulus) :
    Linked this after (mergeUp this after).1 ∧
      ∀ block ∈ (mergeUp this after).1, this.paddr ≤ block.paddr := by
  obtain ⟨paddrAligned, sizeAligned, nonempty, inside⟩ := fine
  cases after with
  | nil =>
    refine ⟨⟨sound_cons.mpr ⟨⟨paddrAligned, sizeAligned, nonempty, inside⟩, sound, by simp⟩,
      ?_, ?_⟩, ?_⟩
    · rw [mergeUp, regions_cons, covered_cons]
    · rw [mergeUp, regions_cons, totalSize_cons]; rfl
    · simp [mergeUp]
  | cons next rest =>
    obtain ⟨⟨nextAligned, nextSizeAligned, nextNonempty, nextInside⟩, soundRest, below⟩ :=
      sound_cons.mp sound
    have touching := above next mem_cons_self
    have limit : (this.paddr + this.size) % addrModulus = this.paddr + this.size :=
      mod_eq_of_lt (by omega)
    unfold pageSize at *
    by_cases touch : this.paddr + this.size = next.paddr
    · rw [regions_cons, totalSize_cons, ← add_assoc] at small
      have fused : (this.size + next.size) % addrModulus = this.size + next.size :=
        mod_eq_of_lt (lt_of_le_of_lt (le_add_right _ _) small)
      simp only [mergeUp, limit, if_pos touch, fused]
      refine ⟨⟨sound_cons.mpr ⟨⟨paddrAligned, ?_, ?_, ?_⟩, soundRest, ?_⟩, ?_, ?_⟩, ?_⟩
      · show (this.size + next.size) % 4096 = 0
        omega
      · exact Nat.add_pos_left nonempty _
      · show this.paddr + (this.size + next.size) ≤ addrModulus
        omega
      · intro other member
        have gap := below other member
        show this.paddr + (this.size + next.size) < other.paddr
        omega
      · have fuse : (⟨this.paddr, this.size + next.size⟩ : Region).bytes =
            this.region.bytes ∪ next.region.bytes := by
          rw [Region.bytes_fuse, touch]
          rfl
        rw [regions_cons, covered_cons, regions_cons, covered_cons, ← Set.union_assoc, ← fuse]
        rfl
      · rw [regions_cons, totalSize_cons, regions_cons, totalSize_cons]
        exact add_assoc _ _ _
      · intro block member
        rcases mem_cons.mp member with rfl | tail
        · exact le_rfl
        · have gap := below block tail
          omega
    · simp only [mergeUp, limit, if_neg touch]
      refine ⟨⟨sound_cons.mpr ⟨⟨paddrAligned, sizeAligned, nonempty, inside⟩, sound, ?_⟩,
        ?_, ?_⟩, ?_⟩
      · intro other member
        rcases mem_cons.mp member with rfl | tail
        · exact lt_of_le_of_ne touching touch
        · have gap := below other tail
          omega
      · rw [regions_cons, covered_cons]
      · rw [regions_cons, totalSize_cons]; rfl
      · intro block member
        rcases mem_cons.mp member with rfl | tail
        · exact le_rfl
        · have gap := above block tail
          omega

/-- Past the insertion point of an ascending list every block is at or above the bound. -/
theorem le_of_mem_dropWhile {bound : Nat} (blocks : List PageBlock) (sound : Sound blocks)
    (member : block ∈ blocks.dropWhile fun other => other.paddr < bound) : bound ≤ block.paddr := by
  induction blocks with
  | nil => cases member
  | cons head rest inductionHypothesis =>
    obtain ⟨-, soundRest, below⟩ := sound_cons.mp sound
    rw [dropWhile_cons] at member
    split at member
    · exact inductionHypothesis soundRest member
    · rename_i stop
      have reached : bound ≤ head.paddr := by simpa using stop
      rcases mem_cons.mp member with rfl | tail
      · exact reached
      · have gap := below block tail
        omega

theorem limit_le_of_lt {low high : PageBlock} (lowFine : Fine low) (highFine : Fine high)
    (apart : Disjoint low.region.bytes high.region.bytes) (order : low.paddr ≤ high.paddr) :
    low.paddr + low.size ≤ high.paddr := by
  have either := (Region.disjoint_iff lowFine.nonempty highFine.nonempty).mp apart
  have highNonempty := highFine.nonempty
  simp only [Region.limit, PageBlock.region] at either
  omega

theorem splice_lowest (fine : Fine this) (sound : Sound after)
    (above : ∀ block ∈ after, this.paddr + this.size ≤ block.paddr)
    (small : this.size + totalSize (regions after) < addrModulus) :
    Linked this after (splice this [] after).1 :=
  (mergeUp_spec fine sound above small).1

/-- Linking after a block that ends where the new one begins. -/
theorem splice_touching (fine : Fine this) (sound : Sound (lowest ++ [prev] ++ after))
    (touch : prev.paddr + prev.size = this.paddr)
    (above : ∀ block ∈ after, this.paddr + this.size ≤ block.paddr)
    (small : this.size + totalSize (regions (lowest ++ [prev] ++ after)) < addrModulus) :
    Linked this (lowest ++ [prev] ++ after) (splice this (lowest ++ [prev]) after).1 := by
  obtain ⟨soundBefore, soundAfter, between⟩ := sound_append.mp sound
  obtain ⟨soundLowest, soundPrev, belowPrev⟩ := sound_append.mp soundBefore
  obtain ⟨aligned, sizeAligned, nonempty, inside⟩ := fine
  obtain ⟨prevAligned, prevSizeAligned, prevNonempty, prevInside⟩ :=
    soundPrev.fine prev (mem_singleton_self prev)
  simp only [regions_append, totalSize_append, regions_cons, regions_nil, totalSize_cons,
    totalSize_nil] at small
  have prevSize : prev.region.size = prev.size := rfl
  have limit : (prev.paddr + prev.size) % addrModulus = this.paddr := by
    rw [touch]
    exact mod_eq_of_lt (by omega)
  have fused : (prev.size + this.size) % addrModulus = prev.size + this.size :=
    mod_eq_of_lt (by omega)
  have joinedFine : Fine { prev with size := prev.size + this.size } := by
    refine ⟨prevAligned, ?_, Nat.add_pos_left prevNonempty _, ?_⟩
    · show (prev.size + this.size) % pageSize = 0
      rw [add_mod, prevSizeAligned, sizeAligned, add_zero, zero_mod]
    · show prev.paddr + (prev.size + this.size) ≤ addrModulus
      omega
  have joinedBytes : (⟨prev.paddr, prev.size + this.size⟩ : Region).bytes =
      prev.region.bytes ∪ this.region.bytes := by
    rw [Region.bytes_fuse, touch]
    rfl
  have joinedAbove : ∀ block ∈ after, prev.paddr + (prev.size + this.size) ≤ block.paddr := by
    intro block member
    have gap := above block member
    omega
  obtain ⟨merged, floor⟩ := mergeUp_spec joinedFine soundAfter joinedAbove
    (show prev.size + this.size + _ < addrModulus by omega)
  have result : (splice this (lowest ++ [prev]) after).1 =
      lowest ++ (mergeUp { prev with size := prev.size + this.size } after).1 := by
    simp [splice, limit, fused]
  rw [result]
  refine ⟨sound_append.mpr ⟨soundLowest, merged.sound, fun low lowMember high highMember =>
    lt_of_lt_of_le (belowPrev low lowMember prev (mem_singleton_self prev))
      (floor high highMember)⟩, ?_, ?_⟩
  · rw [regions_append, covered_append, merged.covers]
    show _ ∪ ((⟨prev.paddr, prev.size + this.size⟩ : Region).bytes ∪ _) = _
    rw [joinedBytes]
    simp only [regions_append, covered_append, regions_cons, regions_nil, covered_cons,
      covered_nil, Set.union_empty]
    ac_rfl
  · rw [regions_append, totalSize_append, merged.total]
    simp only [regions_append, totalSize_append, regions_cons, regions_nil, totalSize_cons,
      totalSize_nil, prevSize]
    omega

/-- Linking after a block that ends below the new one. -/
theorem splice_apart (fine : Fine this) (sound : Sound (lowest ++ [prev] ++ after))
    (gap : prev.paddr + prev.size < this.paddr)
    (above : ∀ block ∈ after, this.paddr + this.size ≤ block.paddr)
    (small : this.size + totalSize (regions (lowest ++ [prev] ++ after)) < addrModulus) :
    Linked this (lowest ++ [prev] ++ after) (splice this (lowest ++ [prev]) after).1 := by
  obtain ⟨soundBefore, soundAfter, between⟩ := sound_append.mp sound
  obtain ⟨soundLowest, soundPrev, belowPrev⟩ := sound_append.mp soundBefore
  have inside := fine.inside
  have limit : (prev.paddr + prev.size) % addrModulus ≠ this.paddr := by
    rw [mod_eq_of_lt (by omega)]
    omega
  rw [regions_append, totalSize_append] at small
  obtain ⟨merged, floor⟩ := mergeUp_spec fine soundAfter above (by omega)
  have result : (splice this (lowest ++ [prev]) after).1 =
      lowest ++ [prev] ++ (mergeUp this after).1 := by
    simp [splice, limit]
  rw [result]
  refine ⟨sound_append.mpr ⟨soundBefore, merged.sound, fun low lowMember high highMember => ?_⟩,
    ?_, ?_⟩
  · have bound := floor high highMember
    rcases mem_append.mp lowMember with earlier | final
    · have order := belowPrev low earlier prev (mem_singleton_self prev)
      omega
    · rw [mem_singleton] at final
      subst final
      omega
  · rw [regions_append, covered_append, merged.covers, regions_append _ after, covered_append,
      Set.union_left_comm]
  · rw [regions_append, totalSize_append, merged.total, regions_append _ after, totalSize_append]
    omega

/-- Freeing a region that is disjoint from the free list adds exactly that region. -/
theorem link_spec (fine : Fine this) (sound : Sound blocks)
    (apart : Disjoint this.region.bytes (covered (regions blocks)))
    (small : this.size + totalSize (regions blocks) < addrModulus) :
    Linked this blocks (link this blocks).1 := by
  have split : (blocks.takeWhile fun block => block.paddr < this.paddr) ++
      (blocks.dropWhile fun block => block.paddr < this.paddr) = blocks :=
    takeWhile_append_dropWhile
  have upper : ∀ block ∈ blocks.dropWhile fun block => block.paddr < this.paddr,
      this.paddr ≤ block.paddr := fun block member => le_of_mem_dropWhile blocks sound member
  have lower : ∀ block ∈ blocks.takeWhile fun block => block.paddr < this.paddr,
      block.paddr < this.paddr := fun block member =>
    of_decide_eq_true (all_eq_true.mp all_takeWhile block member)
  unfold link
  generalize (blocks.takeWhile fun block => block.paddr < this.paddr) = before at *
  generalize (blocks.dropWhile fun block => block.paddr < this.paddr) = after at *
  subst split
  have separate : ∀ block ∈ before ++ after, Disjoint this.region.bytes block.region.bytes :=
    fun block member => disjoint_covered.mp apart block.region (mem_map_of_mem member)
  have above : ∀ block ∈ after, this.paddr + this.size ≤ block.paddr := by
    intro block member
    have inList := mem_append_right before member
    exact limit_le_of_lt fine (sound.fine block inList) (separate block inList) (upper block member)
  rcases eq_nil_or_concat before with empty | ⟨lowest, prev, concat⟩
  · subst empty
    exact splice_lowest fine sound above small
  · rw [concat_eq_append] at concat
    subst concat
    have inList : prev ∈ lowest ++ [prev] ++ after := by simp
    have reach : prev.paddr + prev.size ≤ this.paddr :=
      limit_le_of_lt (sound.fine prev inList) fine (separate prev inList).symm
        (le_of_lt (lower prev (by simp)))
    rcases eq_or_lt_of_le reach with touch | gap
    · exact splice_touching fine sound touch above small
    · exact splice_apart fine sound gap above small

end PageAllocator

end AIMv6
