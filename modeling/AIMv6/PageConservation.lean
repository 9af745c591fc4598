/-
This file proves that the page allocator conserves memory over whole runs. A
run starts at `page_allocator_init` and interleaves donations of new memory,
requests, and returns of regions granted before. In every state it reaches, the
regions granted and not yet returned and the blocks on the free list are
pairwise disjoint and together are exactly the memory donated so far, and
`get_free_memory` is the total size of the list. The one thing the code cannot
represent is a machine whose whole 64-bit physical address space is memory: the
size of the block that covers it all is zero in `addr_t`.
-/

import AIMv6.PageAllocator
import Mathlib.Logic.Relation

namespace AIMv6

namespace PageAllocator

/-- The allocator together with the history its callers know: what has been donated and
which granted regions have not been returned. -/
structure Ledger where
  allocator : PageAllocator
  granted : List Region
  donated : List Region
  deriving DecidableEq, Repr

namespace Ledger

/-- The state after `page_allocator_init`. -/
def start : Ledger := ⟨PageAllocator.init, [], []⟩

/-- A nonempty run of whole pages of the physical address space. -/
structure WholePages (region : Region) : Prop where
  baseAligned : region.base % pageSize = 0
  sizeAligned : region.size % pageSize = 0
  nonempty : 0 < region.size
  inside : region.base + region.size ≤ addrModulus

/-- `free_pages` on a region, with the node `kmalloc` gave it. -/
def freePages (allocator : PageAllocator) (region : Region) (flags node : Nat) : PageAllocator :=
  match allocator.free ⟨region.base, region.size, flags, 0⟩ (some node) with
  | none => allocator
  | some (after, _) => after

/-- One call of the page allocator's interface. -/
inductive Step : Ledger → Ledger → Prop
  | donate (ledger : Ledger) (region : Region) (flags node : Nat) (pages : WholePages region)
      (freeApart : Disjoint region.bytes (covered (regions ledger.allocator.blocks)))
      (grantedApart : Disjoint region.bytes (covered ledger.granted)) :
      Step ledger {
        allocator := freePages ledger.allocator region flags node
        granted := ledger.granted
        donated := region :: ledger.donated }
  | giveBack (ledger : Ledger) (region : Region) (flags node : Nat) (pages : WholePages region)
      (member : region ∈ ledger.granted)
      (freeApart : Disjoint region.bytes (covered (regions ledger.allocator.blocks))) :
      Step ledger {
        allocator := freePages ledger.allocator region flags node
        granted := ledger.granted.erase region
        donated := ledger.donated }
  | grant (ledger : Ledger) (request result : Pages) (after : PageAllocator) (freed : List Nat)
      (aligned : request.size % pageSize = 0) (available : request.size ≤ ledger.allocator.getFree)
      (call : ledger.allocator.alloc request = (0, result, after, freed)) :
      Step ledger {
        allocator := after
        granted := ⟨result.paddr, result.size⟩ :: ledger.granted
        donated := ledger.donated }
  | refuse (ledger : Ledger) (request result : Pages) (after : PageAllocator) (freed : List Nat)
      (aligned : request.size % pageSize = 0) (available : request.size ≤ ledger.allocator.getFree)
      (call : ledger.allocator.alloc request = (eof, result, after, freed)) :
      Step ledger { ledger with allocator := after }

/-- The regions granted and not yet returned, and the free list, partition the donated memory,
and the counter is the total size of the list. -/
structure Conserved (ledger : Ledger) : Prop where
  grantedApart : ledger.granted.Pairwise fun first second => Disjoint first.bytes second.bytes
  freeApart : ∀ region ∈ ledger.granted, ∀ block ∈ ledger.allocator.blocks,
    Disjoint region.bytes block.region.bytes
  cover : covered ledger.granted ∪ covered (regions ledger.allocator.blocks) =
    covered ledger.donated
  counter : ledger.allocator.getFree = totalSize (regions ledger.allocator.blocks)

/-- The invariant of a run: conservation, a well-formed list, and a donated total below the
size of the address space. -/
structure Invariant (ledger : Ledger) : Prop where
  conserved : Conserved ledger
  sound : Sound ledger.allocator.blocks
  total : totalSize ledger.granted + totalSize (regions ledger.allocator.blocks) =
    totalSize ledger.donated

theorem invariant_start : Invariant start := {
  conserved := {
    grantedApart := List.Pairwise.nil
    freeApart := by simp [start]
    cover := by simp [start, PageAllocator.init]
    counter := rfl }
  sound := sound_nil
  total := rfl }

variable {region : Region} {ledger next : Ledger} {after allocator : PageAllocator}
  {request result : Pages} {freed : List Nat} {blocks : List PageBlock} {flags node : Nat}

/-- `free_pages` on whole pages disjoint from the free list. -/
theorem freePages_spec (flags node : Nat) (pages : WholePages region)
    (sound : Sound allocator.blocks)
    (apart : Disjoint region.bytes (covered (regions allocator.blocks)))
    (small : region.size + totalSize (regions allocator.blocks) < addrModulus)
    (counter : allocator.getFree = totalSize (regions allocator.blocks)) :
    Linked ⟨region.base, region.size, flags, node⟩ allocator.blocks
        (freePages allocator region flags node).blocks ∧
      (freePages allocator region flags node).getFree =
        region.size + totalSize (regions allocator.blocks) := by
  have baseAligned : isAligned region.base pageSize = true :=
    (isAligned_two_pow _ 12).mpr pages.baseAligned
  have sizeAligned : isAligned region.size pageSize = true :=
    (isAligned_two_pow _ 12).mpr pages.sizeAligned
  have outcome : freePages allocator region flags node =
      ⟨(link ⟨region.base, region.size, flags, node⟩ allocator.blocks).1,
        (allocator.freeSpace + region.size) % addrModulus⟩ := by
    simp [freePages, PageAllocator.free, baseAligned, sizeAligned]
  rw [outcome]
  refine ⟨link_spec ⟨pages.baseAligned, pages.sizeAligned, pages.nonempty, pages.inside⟩ sound
    apart small, ?_⟩
  rw [getFree] at counter ⊢
  rw [counter, Nat.add_comm, Nat.mod_eq_of_lt small]

theorem disjoint_blocks_of_covered (apart : Disjoint region.bytes (covered (regions blocks))) :
    ∀ block ∈ blocks, Disjoint region.bytes block.region.bytes :=
  fun block member => disjoint_covered.mp apart block.region (List.mem_map_of_mem member)

theorem covered_of_disjoint_blocks
    (apart : ∀ block ∈ blocks, Disjoint region.bytes block.region.bytes) :
    Disjoint region.bytes (covered (regions blocks)) := by
  refine disjoint_covered.mpr fun other member => ?_
  obtain ⟨block, inList, rfl⟩ := List.mem_map.mp member
  exact apart block inList

/-! ### One call -/

theorem donate_invariant (invariant : Invariant ledger) (pages : WholePages region)
    (freeApart : Disjoint region.bytes (covered (regions ledger.allocator.blocks)))
    (grantedApart : Disjoint region.bytes (covered ledger.granted))
    (small : region.size + totalSize ledger.donated < addrModulus) :
    Invariant {
      allocator := freePages ledger.allocator region flags node
      granted := ledger.granted
      donated := region :: ledger.donated } := by
  obtain ⟨conserved, sound, total⟩ := invariant
  obtain ⟨linked, counter⟩ := freePages_spec flags node pages sound freeApart
    (by omega) conserved.counter
  refine ⟨⟨conserved.grantedApart, fun other member => ?_, ?_, counter.trans linked.total.symm⟩,
    linked.sound, ?_⟩
  · refine disjoint_blocks_of_covered ?_
    rw [linked.covers, Set.disjoint_union_right]
    exact ⟨(disjoint_covered.mp grantedApart other member).symm,
      covered_of_disjoint_blocks (conserved.freeApart other member)⟩
  · show covered ledger.granted ∪ _ = covered (region :: ledger.donated)
    rw [linked.covers, covered_cons, ← conserved.cover, Set.union_left_comm]
    rfl
  · show totalSize ledger.granted + _ = totalSize (region :: ledger.donated)
    rw [linked.total, totalSize_cons, ← total]
    exact Nat.add_left_comm _ _ _

theorem giveBack_invariant (invariant : Invariant ledger) (pages : WholePages region)
    (member : region ∈ ledger.granted)
    (freeApart : Disjoint region.bytes (covered (regions ledger.allocator.blocks)))
    (small : totalSize ledger.donated < addrModulus) :
    Invariant {
      allocator := freePages ledger.allocator region flags node
      granted := ledger.granted.erase region
      donated := ledger.donated } := by
  obtain ⟨conserved, sound, total⟩ := invariant
  have perm := List.perm_cons_erase member
  have size : totalSize ledger.granted = region.size + totalSize (ledger.granted.erase region) := by
    rw [← totalSize_cons]
    exact (perm.map Region.size).sum_eq
  obtain ⟨linked, counter⟩ := freePages_spec flags node pages sound freeApart
    (by omega) conserved.counter
  have remaining := (perm.pairwise_iff fun apart => apart.symm).mp conserved.grantedApart
  rw [List.pairwise_cons] at remaining
  refine ⟨⟨remaining.2, fun other left => ?_, ?_, counter.trans linked.total.symm⟩,
    linked.sound, ?_⟩
  · refine disjoint_blocks_of_covered ?_
    rw [linked.covers, Set.disjoint_union_right]
    exact ⟨(remaining.1 other left).symm,
      covered_of_disjoint_blocks (conserved.freeApart other (List.mem_of_mem_erase left))⟩
  · show covered (ledger.granted.erase region) ∪ _ = covered ledger.donated
    rw [linked.covers, ← conserved.cover, covered_perm perm, covered_cons]
    ac_rfl
  · show totalSize (ledger.granted.erase region) + _ = totalSize ledger.donated
    rw [linked.total, ← total, size]
    show _ + (region.size + _) = _
    omega

/-- An aligned request that the counter admits is refused or cut off a block. -/
theorem alloc_cases {code : Int} (aligned : request.size % pageSize = 0)
    (available : request.size ≤ allocator.getFree)
    (call : allocator.alloc request = (code, result, after, freed)) :
    (code = eof ∧ after = allocator) ∨
      ∃ paddr blocks, code = 0 ∧ result = { request with paddr } ∧
        cutFirstFit request.size allocator.blocks = some (paddr, blocks, freed) ∧
        after = ⟨blocks, wrapSub addrModulus allocator.freeSpace request.size⟩ := by
  have accepted : isAligned request.size pageSize = true :=
    (isAligned_two_pow _ 12).mpr aligned
  have admitted : ¬ allocator.freeSpace < request.size := not_lt.mpr available
  rw [PageAllocator.alloc, accepted, if_neg (by decide), if_neg admitted] at call
  split at call
  · simp only [Prod.mk.injEq] at call
    exact Or.inl ⟨call.1.symm, call.2.2.1.symm⟩
  · rename_i paddr blocks nodes found
    obtain ⟨rfl, rfl, rfl, rfl⟩ := call
    exact Or.inr ⟨paddr, blocks, rfl, rfl, found, rfl⟩

theorem grant_invariant (invariant : Invariant ledger) (aligned : request.size % pageSize = 0)
    (available : request.size ≤ ledger.allocator.getFree)
    (call : ledger.allocator.alloc request = (0, result, after, freed))
    (small : totalSize ledger.donated < addrModulus) :
    Invariant {
      allocator := after
      granted := ⟨result.paddr, result.size⟩ :: ledger.granted
      donated := ledger.donated } := by
  obtain ⟨conserved, sound, total⟩ := invariant
  rcases alloc_cases aligned available call with ⟨failed, -⟩ | ⟨paddr, blocks, -, rfl, found, rfl⟩
  · exact absurd failed (by decide)
  have cut := cutFirstFit_spec aligned ledger.allocator.blocks sound found
  have inFree : (⟨paddr, request.size⟩ : Region).bytes ⊆
      covered (regions ledger.allocator.blocks) := by
    rw [cut.covers]
    exact Set.subset_union_left
  have leftInFree : covered (regions blocks) ⊆ covered (regions ledger.allocator.blocks) := by
    rw [cut.covers]
    exact Set.subset_union_right
  refine ⟨⟨List.pairwise_cons.mpr ⟨fun other member => ?_, conserved.grantedApart⟩,
    fun other member => disjoint_blocks_of_covered ?_, ?_, ?_⟩, cut.sound, ?_⟩
  · exact ((covered_of_disjoint_blocks (conserved.freeApart other member)).mono_right inFree).symm
  · rcases List.mem_cons.mp member with rfl | old
    · exact cut.apart
    · exact (covered_of_disjoint_blocks (conserved.freeApart other old)).mono_right leftInFree
  · show covered (_ :: ledger.granted) ∪ covered (regions blocks) = covered ledger.donated
    rw [covered_cons, ← conserved.cover, cut.covers]
    ac_rfl
  · have counter : ledger.allocator.freeSpace = _ := conserved.counter
    have counted := cut.total
    have order : request.size ≤ ledger.allocator.freeSpace := available
    show wrapSub addrModulus ledger.allocator.freeSpace request.size = totalSize (regions blocks)
    rw [wrapSub_of_le order (by omega)]
    omega
  · show totalSize (_ :: ledger.granted) + totalSize (regions blocks) = totalSize ledger.donated
    rw [totalSize_cons, ← total, cut.total]
    show request.size + _ + _ = _
    omega

theorem refuse_invariant (invariant : Invariant ledger) (aligned : request.size % pageSize = 0)
    (available : request.size ≤ ledger.allocator.getFree)
    (call : ledger.allocator.alloc request = (eof, result, after, freed)) :
    Invariant { ledger with allocator := after } := by
  rcases alloc_cases aligned available call with ⟨-, rfl⟩ | ⟨paddr, blocks, granted, -⟩
  · exact invariant
  · exact absurd granted (by decide)

/-! ### Whole runs -/

theorem donated_mono (step : Step ledger next) :
    totalSize ledger.donated ≤ totalSize next.donated := by
  cases step with
  | donate region flags node pages freeApart grantedApart =>
    rw [totalSize_cons]
    exact Nat.le_add_left _ _
  | giveBack => exact le_rfl
  | grant => exact le_rfl
  | refuse => exact le_rfl

theorem step_invariant (step : Step ledger next) (small : totalSize next.donated < addrModulus)
    (invariant : Invariant ledger) : Invariant next := by
  cases step with
  | donate region flags node pages freeApart grantedApart =>
    rw [totalSize_cons] at small
    exact donate_invariant invariant pages freeApart grantedApart small
  | giveBack region flags node pages member freeApart =>
    exact giveBack_invariant invariant pages member freeApart small
  | grant request result after freed aligned available call =>
    exact grant_invariant invariant aligned available call small
  | refuse request result after freed aligned available call =>
    exact refuse_invariant invariant aligned available call

/-- Every run whose donations do not add up to the whole address space keeps the invariant. -/
theorem run_invariant (run : Relation.ReflTransGen Step start ledger)
    (small : totalSize ledger.donated < addrModulus) : Invariant ledger := by
  induction run with
  | refl => exact invariant_start
  | tail earlier step inductionHypothesis =>
    exact step_invariant step small (inductionHypothesis (lt_of_le_of_lt (donated_mono step) small))

/-- In every state of every run of donations, requests and returns, as long as the donated
memory is not all of the `2 ^ 64` bytes an `addr_t` can count, the granted regions and the free
list partition the donated memory and `get_free_memory` is the size of the free list. -/
theorem run_conserved (ledger : Ledger) (run : Relation.ReflTransGen Step start ledger)
    (small : totalSize ledger.donated < addrModulus) : Conserved ledger :=
  (run_invariant run small).conserved

/-- Two pages donated, one of them granted. -/
def onePageOut : Ledger :=
  ⟨⟨[⟨8192, 4096, 0, 1⟩], 4096⟩, [⟨4096, 4096⟩], [⟨4096, 8192⟩]⟩

theorem run_conserved_onePageOut :
    Relation.ReflTransGen Step start onePageOut ∧ Conserved onePageOut := by
  have pages : WholePages ⟨4096, 8192⟩ := ⟨by decide, by decide, by decide, by decide⟩
  have donated : Step start ⟨⟨[⟨4096, 8192, 0, 1⟩], 8192⟩, [], [⟨4096, 8192⟩]⟩ :=
    Step.donate start ⟨4096, 8192⟩ 0 1 pages (by simp [start, PageAllocator.init]) (by simp [start])
  have granted : Step ⟨⟨[⟨4096, 8192, 0, 1⟩], 8192⟩, [], [⟨4096, 8192⟩]⟩ onePageOut :=
    Step.grant _ ⟨0, 4096, 0, 0⟩ ⟨4096, 4096, 0, 0⟩ ⟨[⟨8192, 4096, 0, 1⟩], 4096⟩ [] (by decide)
      (by decide) (by decide +kernel)
  have run := (Relation.ReflTransGen.single donated).tail granted
  exact ⟨run, run_conserved onePageOut run (by decide)⟩

/-- When the donations are the whole address space, the block that covers it has size zero and
the memory is lost. -/
theorem not_conserved_whole_space :
    ∃ ledger, Relation.ReflTransGen Step start ledger ∧ ¬ Conserved ledger := by
  have lower : WholePages ⟨0, 2 ^ 63⟩ := ⟨by decide, by decide, by decide, by decide⟩
  have upper : WholePages ⟨2 ^ 63, 2 ^ 63⟩ := ⟨by decide, by decide, by decide, by decide⟩
  have first : Step start ⟨⟨[⟨0, 2 ^ 63, 0, 1⟩], 2 ^ 63⟩, [], [⟨0, 2 ^ 63⟩]⟩ :=
    Step.donate start ⟨0, 2 ^ 63⟩ 0 1 lower (by simp [start, PageAllocator.init]) (by simp [start])
  have second := Step.donate ⟨⟨[⟨0, 2 ^ 63, 0, 1⟩], 2 ^ 63⟩, [], [⟨0, 2 ^ 63⟩]⟩ ⟨2 ^ 63, 2 ^ 63⟩
    0 2 upper
    (covered_of_disjoint_blocks (by
      intro block member
      rw [List.mem_singleton] at member
      subst member
      exact (Region.disjoint_of_limit_le le_rfl).symm))
    (by simp)
  have wrapped : freePages ⟨[⟨0, 2 ^ 63, 0, 1⟩], 2 ^ 63⟩ ⟨2 ^ 63, 2 ^ 63⟩ 0 2 =
      ⟨[⟨0, 0, 0, 1⟩], 0⟩ := by decide +kernel
  refine ⟨_, (Relation.ReflTransGen.single first).tail second, fun conserved => ?_⟩
  have cover := conserved.cover
  simp only [wrapped] at cover
  have donated : 0 ∈ covered [⟨2 ^ 63, 2 ^ 63⟩, ⟨0, 2 ^ 63⟩] :=
    ⟨⟨0, 2 ^ 63⟩, by simp, Region.mem_bytes.mpr ⟨le_rfl, by decide⟩⟩
  rw [← cover] at donated
  simp [regions, PageBlock.region, Region.bytes, Region.limit] at donated

end Ledger

end PageAllocator

end AIMv6
