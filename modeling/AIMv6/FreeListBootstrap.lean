/-
This file follows the free-list allocator while it is bootstrapped: it has one pool of memory,
and `alloc_pages` has nothing to give yet.

The blocks tile the pool at all times. Because `__free` joins a block with both of its
neighbours, no two free blocks touch, and so the free list is the list of the gaps between the
live blocks, and a request is refused exactly when no gap is large enough. When everything has
been freed the pool is one gap.

All this holds for a pool without a whole page that ends below the last page of the address
space. For a block in the last page the border `__free` computes wraps to `0`, the block is
taken for one with whole pages to return, and a header is written in front of the pool.
-/

import AIMv6.FreeListRuns

namespace AIMv6

open List Nat Option Function

namespace FreeList

/-- `simple_allocator_bootstrap`. -/
def simpleAllocatorBootstrap (abi : Abi) (head pt size : Nat) (mem : Memory) : Memory :=
  let block := Function.update (Function.update mem pt size) (pt + abi.freeOffset) 1
  listAddAfter abi (listInit abi block head) (node abi pt) head

/-- The allocator with nothing but its pool. -/
def bootstrapped (abi : Abi) (head : Nat) (pool : Region) (mem : Memory) : Usage :=
  ⟨simpleAllocatorBootstrap abi head pool.base pool.size mem, [], pool.bytes⟩

/-- The size of a request does not wrap when it is aligned and given a header. -/
def Unwrapped (abi : Abi) (size : Nat) : Prop :=
  (size + 15) / 16 * 16 + abi.headerSize < abi.modulus

/-- The steps while the allocator is bootstrapped: `alloc_pages` returns `EOF`. -/
def Call.Bootstrap (abi : Abi) (head : Nat) (usage : Usage) : Call → Prop
  | kmalloc size _ answer => Unwrapped abi size ∧ answer = none
  | kfree object => object ∈ usage.live
  | write mem => Set.EqOn mem usage.mem (usage.reserved abi head)

/-- A pool as `simple_allocator_bootstrap` is given it: aligned, with room for a block, without a
whole page, and without the list head. -/
structure IsPool (abi : Abi) (head : Nat) (pool : Region) : Prop where
  baseAligned : pool.base % allocAlign = 0
  sizeAligned : pool.size % allocAlign = 0
  roomy : abi.headerSize + allocAlign ≤ pool.size
  noPage : ∀ page, page % pageSize = 0 → pool.base ≤ page → ¬ page + pageSize ≤ pool.limit
  outside : head ∉ pool.bytes ∧ head + abi.wordSize ∉ pool.bytes

/-- The free list is the list of the gaps between the live blocks. -/
structure Exact (abi : Abi) (kva : Nat → Nat) (head : Nat) (pool : Region) (usage : Usage)
    (free : List Region) : Prop where
  list : Represents abi head usage.mem free
  spread : Spread free
  tiling : Tiling pool.bytes (free ++ usage.blocks abi)
  gaps : ∀ region, region ∈ free ↔ Gap pool.bytes (usage.blocks abi) region
  refuses : ∀ size flags, Unwrapped abi size →
    ∃ fuel result, alloc abi kva head fuel size flags none usage.mem = some result ∧
      (result.obj = none ↔ ∀ gap ∈ free, gap.size < allocSize abi size)
  whole : usage.live = [] → free = [pool]

/-- What holds between the calls. -/
structure Bootstrapped (abi : Abi) (head : Nat) (pool : Region) (usage : Usage)
    (free : List Region) : Prop where
  invariant : Invariant abi head usage free
  untouching : Untouching free
  owned : usage.owned = pool.bytes

variable {abi : Abi} {kva : Nat → Nat} {head fuel : Nat} {mem : Memory} {usage : Usage}
  {free : List Region} {pool : Region}

/-! ### The pool -/

variable {size flags : Nat}

theorem Unwrapped.rounded (unwrapped : Unwrapped abi size) :
    alignAbove abi.bits size allocAlign = (size + 15) / 16 * 16 := by
  have modulus : abi.modulus = 2 ^ abi.bits := rfl
  have header : 32 ≤ abi.headerSize := by cases abi <;> decide
  unfold Unwrapped at unwrapped
  rw [show allocAlign = 2 ^ 4 from rfl]
  exact alignAbove_of_room (by omega)

theorem Unwrapped.allocSize_eq (unwrapped : Unwrapped abi size) :
    allocSize abi size = (size + 15) / 16 * 16 + abi.headerSize := by
  rw [allocSize, unwrapped.rounded, mod_eq_of_lt unwrapped]

theorem Unwrapped.request (unwrapped : Unwrapped abi size) :
    allocSize abi size % allocAlign = 0 ∧ abi.headerSize + size ≤ allocSize abi size := by
  have header : abi.headerSize % 16 = 0 := by cases abi <;> decide
  rw [unwrapped.allocSize_eq]
  unfold allocAlign
  omega

theorem IsPool.no_borders (isPool : IsPool abi head pool) {block : Region}
    (positive : 0 < block.size)
    (inside : block.bytes ⊆ pool.bytes) : ¬ firstBorder block < lastBorder block := by
  intro whole
  obtain ⟨above, below, firstAligned, lastAligned⟩ := borders_bounds block
  obtain ⟨lower, upper⟩ := (Region.bytes_subset_iff positive).mp inside
  refine isPool.noPage (firstBorder block) firstAligned (lower.trans above) ?_
  unfold pageSize at *
  omega

theorem IsPool.fine (isPool : IsPool abi head pool) (below : pool.limit + pageSize ≤ abi.modulus) :
    Fine abi pool :=
  ⟨isPool.baseAligned, isPool.sizeAligned, (Nat.le_add_right _ _).trans isPool.roomy, below⟩

theorem IsPool.tiled (isPool : IsPool abi head pool) (below : pool.limit + pageSize ≤ abi.modulus) :
    Tiled abi head pool.bytes ([pool] ++ []) := by
  refine ⟨⟨pairwise_singleton _ _, by simp⟩, fun tile member => ?_, isPool.outside⟩
  rw [append_nil, mem_singleton] at member
  exact member ▸ isPool.fine below

/-- After `simple_allocator_bootstrap` the pool is the only block on the list. -/
theorem Tiled.bootstrap_represents (tiled : Tiled abi head pool.bytes ([pool] ++ []))
    (mem : Memory) :
    Represents abi head (simpleAllocatorBootstrap abi head pool.base pool.size mem) [pool] := by
  obtain ⟨freePositive, flagsAbove, nodeAbove, wordPositive, fits⟩ := abi.header_fields
  have headers : Headers abi head [pool.base] := tiled.headers
  generalize made : Function.update (Function.update mem pool.base pool.size)
    (pool.base + abi.freeOffset) 1 = block
  have ring := (Invariant.start abi head block).represents.ring
  have toHead : listInit abi block head head = head :=
    (@Ring.IsRing.forward _ _ _ [] _ ring : _)
  have separate := headers.separate (nodup_singleton pool.base) fun base member => member
  have linked := @Ring.IsRing.insert _ _ _ [] _ ring _ separate
  have started : simpleAllocatorBootstrap abi head pool.base pool.size mem =
      Ring.insert abi.wordSize (listInit abi block head) (node abi pool.base) head head := by
    rw [simpleAllocatorBootstrap, made, listAddAfter, toHead]
  rw [started]
  refine ⟨linked, fun other member => ?_⟩
  obtain rfl := mem_singleton.mp member
  obtain ⟨notHead, notBack⟩ := headers.outside other.base (mem_singleton_self _) 0 (by omega)
  obtain ⟨notNode, notLink⟩ :=
    headers.node_ne (mem_singleton_self other.base) (mem_singleton_self other.base)
  rw [add_zero] at notHead notBack
  rw [Ring.insert_apply, if_neg (Ne.symm notHead), if_neg notLink, if_neg notNode,
    if_neg (Ne.symm notBack), listInit, update_of_ne (Ne.symm notBack),
    update_of_ne (Ne.symm notHead), ← made, update_of_ne (by omega),
    update_self]

theorem Tiled.bootstrap_invariant (tiled : Tiled abi head pool.bytes ([pool] ++ []))
    (mem : Memory) : Invariant abi head (bootstrapped abi head pool mem) [pool] :=
  ⟨tiled.bootstrap_represents mem, pairwise_singleton _ _, tiled, nofun⟩

theorem IsPool.bootstrapped (isPool : IsPool abi head pool)
    (below : pool.limit + pageSize ≤ abi.modulus)
    (mem : Memory) : Bootstrapped abi head pool (bootstrapped abi head pool mem) [pool] := by
  refine ⟨(isPool.tiled below).bootstrap_invariant mem, ?_, rfl⟩
  intro first firstMember second secondMember same
  rw [mem_singleton.mp firstMember, mem_singleton.mp secondMember] at same
  have positive := (isPool.fine below).positive
  unfold Region.limit at same
  omega

/-! ### The calls -/

/-- The search of `__alloc` succeeds when a free block is large enough and fails when none is. -/
theorem Invariant.alloc_none_iff (invariant : Invariant abi head usage free)
    (unwrapped : Unwrapped abi size) (enough : free.length < fuel) :
    ∃ result, alloc abi kva head fuel size flags none usage.mem = some result ∧
      (result.obj = none ↔ ∀ gap ∈ free, gap.size < allocSize abi size) := by
  by_cases fit : ∃ block ∈ free, allocSize abi size ≤ block.size
  · obtain ⟨obj, after, -, returned, -⟩ :=
      @Invariant.alloc_found _ _ _ _ invariant _ _
      size flags none unwrapped.request enough fit
    refine ⟨_, returned, iff_of_false (some_ne_none _) fun refused => ?_⟩
    obtain ⟨block, member, large⟩ := fit
    exact absurd (refused block member) (not_lt.mpr large)
  · have none := size_lt_of_no_fit fit
    exact ⟨_, invariant.alloc_refused enough none, iff_of_true rfl none⟩

section Calls

variable (bootstrapped : Bootstrapped abi head pool usage free)

include bootstrapped

theorem Bootstrapped.kmalloc (unwrapped : Unwrapped abi size) (enough : free.length < fuel) :
    ∃ outcome left, (Call.kmalloc size flags none).run abi kva head fuel usage = some outcome ∧
      Bootstrapped abi head pool outcome.usage left := by
  have invariant := bootstrapped.invariant
  by_cases fit : ∃ block ∈ free, allocSize abi size ≤ block.size
  · obtain ⟨front, block, back, after, rfl, large, -, returned, cutFrom⟩ :=
      @Invariant.alloc_first _ _ _ _ invariant kva _ _ flags none unwrapped.request enough fit
    have old := ((sublist_cons_self block back).append_left front).subset
    have untouching := untouching_iff.mp bootstrapped.untouching
    refine ⟨_, _, by rw [Call.run, returned, map_some], ⟨?_, untouching_iff.mpr (cutFrom.seams large
      (fun lower lowerMember upper upperMember => untouching lower (old lowerMember) upper
        (old upperMember))
      fun upper member => untouching block (by simp) upper (old member)), ?_⟩⟩
    · simpa using cutFrom.handedOut.invariant
    · simpa using bootstrapped.owned
  · have none := size_lt_of_no_fit fit
    refine ⟨_, free, by rw [Call.run, invariant.alloc_refused enough none, map_some],
      ⟨?_, bootstrapped.untouching, ?_⟩⟩
    · simpa using invariant
    · simpa using bootstrapped.owned

theorem Bootstrapped.merged {object : Object} {after : Memory} {front back : List Region}
    {joined : Region} (merged : Merged abi head usage object free after front joined back) :
    Untouching (front ++ joined :: back) :=
  untouching_iff.mpr (merged.seams bootstrapped.invariant.represents bootstrapped.untouching)

theorem Bootstrapped.kfree (isPool : IsPool abi head pool) {object : Object}
    (member : object ∈ usage.live) (enough : free.length < fuel) :
    ∃ outcome left, (Call.kfree object).run abi kva head fuel usage = some outcome ∧
      Bootstrapped abi head pool outcome.usage left := by
  have inPool : ∀ {after front joined back},
      Merged abi head usage object free after front joined back →
        ¬ firstBorder joined < lastBorder joined := fun merged =>
    isPool.no_borders (merged.placed.tiled.fine _ mem_cons_self).positive
      (bootstrapped.owned ▸ merged.placed.tiled.tiling.subset mem_cons_self)
  have sound : (Call.kfree object).Sound abi kva head usage := by
    intro extent isExtent whole
    obtain ⟨after, front, joined, back, -, merged⟩ := bootstrapped.invariant.merge member enough
    rw [isExtent.unique bootstrapped.invariant.represents bootstrapped.invariant.tiled
      merged.extent] at whole
    exact absurd whole (inPool merged)
  obtain ⟨outcome, left, after, front, extent, back, returned, kept, -, merged, -, rest⟩ :=
    Invariant.kfree bootstrapped.invariant member sound enough
  rcases rest with ⟨-, -, owned, rfl⟩ | ⟨flags, whole, -⟩
  · exact ⟨outcome, _, returned, kept, bootstrapped.merged merged, owned.trans bootstrapped.owned⟩
  · exact absurd whole (inPool merged)

theorem Bootstrapped.step (isPool : IsPool abi head pool) {call : Call}
    (allowed : call.Bootstrap abi head usage) (enough : free.length < fuel) :
    ∃ outcome left, call.run abi kva head fuel usage = some outcome ∧
      Bootstrapped abi head pool outcome.usage left := by
  rcases call with ⟨size, flags, answer⟩ | object | mem
  · obtain ⟨unwrapped, rfl⟩ := allowed
    exact bootstrapped.kmalloc unwrapped enough
  · exact bootstrapped.kfree isPool allowed enough
  · exact ⟨_, free, rfl, @Invariant.write _ kva _ _ _ _ bootstrapped.invariant allowed,
      bootstrapped.untouching, bootstrapped.owned⟩

end Calls

/-! ### Runs -/

theorem Bootstrapped.exact (bootstrapped : Bootstrapped abi head pool usage free)
    (isPool : IsPool abi head pool) : Exact abi kva head pool usage free := by
  obtain ⟨invariant, untouching, owned⟩ := bootstrapped
  have nonempty : ∀ tile ∈ free, 0 < tile.size := fun tile member =>
    (invariant.tiled.fine tile (mem_append_left _ member)).positive
  have tiling : Tiling pool.bytes (free ++ usage.blocks abi) := owned ▸ invariant.tiled.tiling
  refine ⟨invariant.represents, invariant.ascending.spread untouching, tiling,
    fun region => tiling.mem_iff_gap nonempty untouching, fun size flags unwrapped =>
      ?_, fun none => ?_⟩
  · exact ⟨_, invariant.alloc_none_iff unwrapped (lt_succ_self _)⟩
  · have positive : 0 < pool.size := by
      have header := abi.header_fields
      have roomy := isPool.roomy
      omega
    rw [Usage.blocks, none, map_nil, append_nil] at tiling
    exact tiling.eq_singleton positive nonempty untouching

theorem Reachable.bootstrapped (isPool : IsPool abi head pool)
    (below : pool.limit + pageSize ≤ abi.modulus)
    (reachable : Reachable abi kva head (fun usage call => call.Bootstrap abi head usage)
      (FreeList.bootstrapped abi head pool mem) usage) :
    ∃ free, Bootstrapped abi head pool usage free :=
  reachable.keeps (Bootstrapped abi head pool) ⟨[pool], isPool.bootstrapped below mem⟩
    fun bootstrapped allowed enough => bootstrapped.step isPool allowed enough

/-- In every state that the calls on a pool below the last page of the address space lead to, the
free list is the list of the gaps between the live blocks, and every call returns. -/
theorem bootstrap_exact (isPool : IsPool abi head pool)
    (below : pool.limit + pageSize ≤ abi.modulus)
    (reachable : Reachable abi kva head (fun usage call => call.Bootstrap abi head usage)
      (bootstrapped abi head pool mem) usage) :
    (∃ free, Exact abi kva head pool usage free) ∧
      ∀ call : Call, call.Bootstrap abi head usage →
        ∃ fuel outcome, call.run abi kva head fuel usage = some outcome := by
  obtain ⟨free, bootstrapped⟩ := reachable.bootstrapped isPool below
  refine ⟨⟨free, bootstrapped.exact isPool⟩, fun call allowed => ?_⟩
  obtain ⟨outcome, -, returned, -⟩ :=
    bootstrapped.step isPool allowed (lt_succ_self free.length)
  exact ⟨_, outcome, returned⟩

/-- A pool above the list head that is part of one page. -/
theorem isPool_of_onePage (baseAligned : pool.base % allocAlign = 0)
    (sizeAligned : pool.size % allocAlign = 0) (roomy : abi.headerSize + allocAlign ≤ pool.size)
    (onePage : pool.limit / pageSize = pool.base / pageSize)
    (above : head + abi.wordSize < pool.base) :
    IsPool abi head pool := by
  refine ⟨baseAligned, sizeAligned, roomy, fun page aligned lower upper => ?_, fun inside => ?_,
    fun inside => ?_⟩
  · unfold pageSize at *
    omega
  · have first : pool.base ≤ head := inside.1
    omega
  · have first : pool.base ≤ head + abi.wordSize := inside.1
    omega

/-- The memory of the examples, and their list head. -/
def bootstrapExample (pool : Region) : Usage := bootstrapped .ilp32 0x900 pool fun _ => 0

/-- A first request for 16 bytes is served from a pool of 256 bytes. -/
theorem bootstrap_exact_first : ∃ usage,
    Reachable .ilp32 id 0x900 (fun usage call => call.Bootstrap .ilp32 0x900 usage)
        (bootstrapExample ⟨0x1010, 0x100⟩) usage ∧
      usage.live = [⟨0x1030, 16⟩] ∧ ∃ free, Exact .ilp32 id 0x900 ⟨0x1010, 0x100⟩ usage free := by
  have isPool : IsPool .ilp32 0x900 ⟨0x1010, 0x100⟩ :=
    isPool_of_onePage (by decide) (by decide) (by decide) (by decide) (by decide)
  have values : (alloc .ilp32 id 0x900 2 16 0 none (bootstrapExample ⟨0x1010, 0x100⟩).mem).map
      Allocated.obj = some (some 0x1030) := by decide +kernel
  obtain ⟨result, allocated, obj⟩ := map_eq_some_iff.mp values
  have reachable := Reachable.step (.kmalloc 16 0 none) Reachable.start
    (show (Call.kmalloc 16 0 none).Bootstrap .ilp32 0x900 (bootstrapExample ⟨0x1010, 0x100⟩) from
      ⟨by unfold Unwrapped; decide, rfl⟩)
    (show (Call.kmalloc 16 0 none).run .ilp32 id 0x900 2
        (bootstrapExample ⟨0x1010, 0x100⟩) = some _ by
      rw [Call.run, allocated, map_some])
  refine ⟨_, reachable, ?_, (bootstrap_exact isPool (by decide) reachable).1⟩
  simp [obj, bootstrapExample, bootstrapped]

/-- In the last page of the address space an object that is freed takes the block with it: the only
block on the list afterwards lies in front of the pool. -/
theorem bootstrap_last_page : ∃ usage, IsPool .ilp32 0x900 ⟨0xfffff010, 0x60⟩ ∧
      Reachable .ilp32 id 0x900 (fun usage call => call.Bootstrap .ilp32 0x900 usage)
        (bootstrapExample ⟨0xfffff010, 0x60⟩) usage ∧
      usage.live = [] ∧ usage.mem 0x900 = node .ilp32 0xfffff000 ∧
      ¬ ∃ free, Exact .ilp32 id 0x900 ⟨0xfffff010, 0x60⟩ usage free := by
  have isPool : IsPool .ilp32 0x900 ⟨0xfffff010, 0x60⟩ :=
    isPool_of_onePage (by decide) (by decide) (by decide) (by decide) (by decide)
  have values : (alloc .ilp32 id 0x900 2 16 0 none (bootstrapExample ⟨0xfffff010, 0x60⟩).mem).map
      Allocated.obj = some (some 0xfffff030) := by decide +kernel
  have freed : ((alloc .ilp32 id 0x900 2 16 0 none (bootstrapExample ⟨0xfffff010, 0x60⟩).mem).bind
      fun result => (FreeList.kfree .ilp32 0x900 2 0xfffff030 result.mem).map fun freed =>
        freed.2 0x900) = some (node .ilp32 0xfffff000) := by decide +kernel
  obtain ⟨result, allocated, obj⟩ := map_eq_some_iff.mp values
  have first := Reachable.step (.kmalloc 16 0 none) Reachable.start
    (show (Call.kmalloc 16 0 none).Bootstrap .ilp32 0x900 (bootstrapExample ⟨0xfffff010, 0x60⟩) from
      ⟨by unfold Unwrapped; decide, rfl⟩)
    (show (Call.kmalloc 16 0 none).run .ilp32 id 0x900 2
        (bootstrapExample ⟨0xfffff010, 0x60⟩) = some _ by
      rw [Call.run, allocated, map_some])
  rw [allocated, bind_some] at freed
  obtain ⟨after, released, value⟩ := map_eq_some_iff.mp freed
  have second := Reachable.step (.kfree ⟨0xfffff030, 16⟩) first (by simp [Call.Bootstrap, obj])
    (show (Call.kfree ⟨0xfffff030, 16⟩).run .ilp32 id 0x900 2 _ = some _ by
      rw [Call.run, released, map_some])
  have none : (Option.map (fun obj => (⟨obj, 16⟩ : Object)) result.obj).toList.erase
      ⟨0xfffff030, 16⟩ = [] := by
    rw [obj]
    decide
  refine ⟨_, isPool, second, ?_, value, ?_⟩
  · simpa [bootstrapExample, bootstrapped] using none
  rintro ⟨free, exact⟩
  have whole := exact.whole (by simpa [bootstrapExample, bootstrapped] using none)
  subst whole
  have leads := exact.list.ring.leads.1.1
  exact absurd (value.symm.trans leads) (by decide)

end FreeList

end AIMv6
