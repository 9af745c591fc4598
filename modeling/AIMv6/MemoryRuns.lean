/-
This file states what a run of the two memory allocators is, and what holds in every run whose calls
of `free_pages` find their nodes on the free list of the heap.

A run interleaves `kmalloc`, `kfree`, `alloc_pages` and `free_pages` with what the rest of the
kernel writes. Every call returns, whatever calls are nested in it, and the set of free pages
afterwards is accounted for: it is what was free before, without what `alloc_pages` granted, with
the region passed to `free_pages` and with the pages that `kfree` returned on the way. In a run in
which a `free_pages` has to ask for a page for its node this can fail: the last section has such a
run, in which `__free` goes on with a block that is not on the list any more.
-/

import AIMv6.MemoryReentry

namespace AIMv6

open List hiding Disjoint Vector
open Nat Set

namespace MemorySystem

open FreeList PageAllocator Ledger

/-! ### Runs -/

/-- The system and what its users know: the live objects that are not nodes of the page list, and
the addresses that are part of the heap. -/
structure SystemState where
  mem : Memory
  pages : PageAllocator
  objects : List Object
  owned : Set Nat

/-- The system with an empty log. -/
def SystemState.system (state : SystemState) : System := ⟨state.mem, state.pages, []⟩

/-- The addresses that are free. -/
def SystemState.freeSet (state : SystemState) : Set Nat := covered (regions state.pages.blocks)

/-- A step of a run. -/
inductive SystemCall where
  | kmalloc (size flags : Nat)
  | kfree (object : Object)
  | allocPages (request : Pages)
  | freePages (pages : Pages)
  | write (mem : Memory)

/-- What a step leads to, with its log. -/
structure SystemOutcome where
  state : SystemState
  log : List Event

namespace SystemCall

/-- The effect of a step on the system, with the object that `kmalloc` returns. -/
def perform (heap : Heap) (loops : Nat) (release : Release) (sys : System) :
    SystemCall → Except Trap (Option Nat × System)
  | kmalloc size flags => MemorySystem.kmalloc heap loops release size flags sys
  | kfree object => release object.obj sys >>= fun sys => .ok (none, sys)
  | allocPages request => MemorySystem.allocPages release request sys >>= fun result =>
    .ok (none, result.2.2)
  | freePages pages =>
      MemorySystem.freePages heap loops release pages sys >>= fun sys => .ok (none, sys)
  | write mem => .ok (none, { sys with mem })

/-- The live objects after a step that returned `obj`. -/
def objects (before : List Object) (obj : Option Nat) : SystemCall → List Object
  | kmalloc size _ => (obj.map fun obj => (⟨obj, size⟩ : Object)).toList ++ before
  | kfree object => before.erase object
  | _ => before

/-- The addresses of granted pages that a step makes part of the heap. -/
def acquired (heap : Heap) (pages : List Region) : SystemCall → Set Nat
  | kmalloc _ _ => covered (pages.map fun region => ⟨heap.kva region.base, region.size⟩)
  | _ => ∅

/-- The addresses that a step adds to the free ones by itself. -/
def returned : SystemCall → Set Nat
  | freePages pages => (⟨pages.paddr, pages.size⟩ : Region).bytes
  | _ => ∅

def outcome (heap : Heap) (state : SystemState) (call : SystemCall) (result : Option Nat × System) :
    SystemOutcome where
  state := {
    mem := result.2.mem
    pages := result.2.pages
    objects := call.objects state.objects result.1
    owned := call.acquired heap (granted result.2.log) ∪
      (state.owned \ covered (released result.2.log)) }
  log := result.2.log

/-- A step of the kernel. -/
def run (heap : Heap) (fuel : Nat) (state : SystemState) (call : SystemCall) :
    Except Trap SystemOutcome :=
  call.perform heap fuel (release heap fuel) state.system >>= fun result =>
    .ok (call.outcome heap state result)

/-- A step of the kernel whose `free_pages` does not ask for pages. -/
def frugal (heap : Heap) (loops depth : Nat) (state : SystemState) (call : SystemCall) :
    Except Trap (Option Nat × System) :=
  match call with
  | freePages pages => frugally heap loops state.mem
    ((freePages pages).perform heap loops (frugalKfree heap loops depth) state.system)
  | _ => call.perform heap loops (frugalKfree heap loops depth) state.system

/-- What a request does: it finds a block on the free list that is not cut, or cut at a clear place.
Or it asks for pages: they have room for its block, the counter covers them, and `pa2kva` puts them
where neither the heap is nor free pages are. -/
def Served (heap : Heap) (state : SystemState) (size found : Nat) : Prop :=
  if found = heap.head then
    allocSize heap.abi size ≤ pagesSize heap.abi size ∧
      pagesSize heap.abi size ≤ state.pages.freeSpace ∧
      ∀ paddr left freed,
        cutFirstFit (pagesSize heap.abi size) state.pages.blocks = some (paddr, left, freed) →
        Granted heap.abi heap.head ⟨state.mem, state.objects, state.owned⟩
            ⟨heap.kva paddr, pagesSize heap.abi size⟩ ∧
          heap.kva paddr + pagesSize heap.abi size < heap.abi.modulus ∧
          Disjoint (⟨heap.kva paddr, pagesSize heap.abi size⟩ : Region).bytes state.freeSet
  else CutsClear heap size state.mem (FreeList.entry heap.abi found)

/-- What the surroundings promise, and the requests that the heap can serve: only live objects are
freed, only whole pages that are not free and not part of the heap are passed to `free_pages`, and
what belongs to the heap is left alone. -/
def Orderly (heap : Heap) (state : SystemState) : SystemCall → Prop
  | kmalloc size _ => size + heap.abi.headerSize + pageSize < heap.abi.modulus ∧
    ∀ loops found, search heap loops size state.mem = some found → Served heap state size found
  | kfree object => object ∈ state.objects
  | allocPages _ => True
  | freePages pages => WholePages ⟨pages.paddr, pages.size⟩ ∧
    Disjoint (⟨pages.paddr, pages.size⟩ : Region).bytes state.freeSet ∧
    Disjoint (⟨pages.paddr, pages.size⟩ : Region).bytes state.owned
  | write mem => Set.EqOn mem state.mem
    (Usage.reserved heap.abi heap.head ⟨state.mem, state.objects, state.owned⟩)

/-- Every `free_pages` of the step, those nested in other calls included, finds a block for its node
on the free list of the heap: the frugal kernel does not panic. -/
def Supplied (heap : Heap) (state : SystemState) (call : SystemCall) : Prop :=
  ∀ loops depth, call.frugal heap loops depth state ≠ .error .panic

end SystemCall

/-- The states of the runs whose steps are all allowed where they are made. -/
inductive SystemReachable (heap : Heap) (allowed : SystemState → SystemCall → Prop)
    (start : SystemState) : SystemState → Prop
  | start : SystemReachable heap allowed start start
  | step {state : SystemState} {outcome : SystemOutcome} {fuel : Nat} (call : SystemCall)
    (earlier : SystemReachable heap allowed start state) (fits : allowed state call)
    (returned : call.run heap fuel state = .ok outcome) :
    SystemReachable heap allowed start outcome.state

/-- The free set after a step is accounted for, and no page is on the list twice. -/
structure SystemOutcome.Accounted (state : SystemState) (call : SystemCall)
    (outcome : SystemOutcome) : Prop where
  available : covered (granted outcome.log) ⊆ state.freeSet
  freeSet : outcome.state.freeSet =
    call.returned ∪ (state.freeSet \ covered (granted outcome.log)) ∪ covered (released outcome.log)
  disjoint : (regions outcome.state.pages.blocks).Pairwise fun first second =>
    Disjoint first.bytes second.bytes
  nodup : (outcome.state.pages.blocks.map PageBlock.node).Nodup

variable {heap : Heap} {loops depth size flags : Nat} {objects : List Object} {owned : Set Nat}
  {sys : System}

/-! ### `alloc_pages` and `kmalloc` -/

/-- The counter after pages were granted. -/
def debit (size : Nat) (sys : System) : System :=
  { sys with pages := { sys.pages with freeSpace := wrapSub addrModulus sys.pages.freeSpace size } }

/-- A request that is cut off a block of the page list, with whatever calls are nested in it. -/
theorem Balanced.grant (balanced : Balanced heap objects owned sys) {request : Pages}
    (aligned : request.size % pageSize = 0) (enough : request.size ≤ sys.pages.freeSpace)
    {paddr : Nat}
    {left : List PageBlock} {freed : List Nat}
    (cut : cutFirstFit request.size sys.pages.blocks = some (paddr, left, freed))
    (calm : Calm fun loops depth => allocPages (frugalKfree heap loops depth) request sys) :
    ∃ after given, Settled heap objects owned ∅ sys after [⟨paddr, request.size⟩] given ∧
      Returns (fun loops depth => allocPages (kfree heap loops depth) request sys)
        (0, { request with paddr }, after) := by
  obtain ⟨⟨free, neat⟩, sound, apart⟩ := balanced
  have isCut := cutFirstFit_spec aligned _ sound cut
  obtain ⟨nodes, few⟩ := cutFirstFit_nodes cut
  have page : isAligned request.size pageSize = true := (isAligned_two_pow _ 12).mpr aligned
  have ready : Balanced heap (freed.map (nodeObject heap.abi) ++ objects) owned
      ⟨sys.mem, ⟨left, sys.pages.freeSpace⟩, .grant ⟨paddr, request.size⟩ :: sys.log⟩ := by
    refine ⟨⟨free, neat.perm ?_⟩, isCut.sound, apart.mono_right ?_⟩
    · have same := (nodes.map (nodeObject heap.abi)).symm
      rw [map_append] at same
      refine (same.append_left objects).trans ?_
      rw [append_assoc]
      exact perm_append_comm_assoc _ _ _
    · rw [isCut.covers]
      exact subset_union_right
  obtain ⟨calmBound, calm⟩ := calm
  obtain ⟨after, given, ⟨⟨grantedAfter, releasedAfter, -, within, freeSet⟩, kept⟩,
    bound, returned⟩ :=
    (releases heap owned).pending few ready ⟨calmBound, fun loops enough' depth => by
      have call := calm loops enough' depth
      dsimp only at call
      rw [allocPages_cut request page enough cut] at call
      exact bind_ne_panic call⟩
  have region : covered [(⟨paddr, request.size⟩ : Region)] =
      (⟨paddr, request.size⟩ : Region).bytes := by
    rw [covered_cons, covered_nil, union_empty]
  refine ⟨debit request.size after, given,
    ⟨⟨grantedAfter, releasedAfter, ?_, within, ?_⟩, kept.congr rfl rfl⟩, bound,
    fun loops large depth deep => ?_⟩
  · rw [region, isCut.covers]
    exact subset_union_left
  · refine freeSet.trans ?_
    rw [region, isCut.covers, union_sdiff_left, isCut.apart.symm.sdiff_eq_left, covered_nil,
      sdiff_empty]
  · have call := returned loops large depth deep
    dsimp only at call ⊢
    rw [allocPages_cut request page enough cut]
    dsimp only [System.withBlocks]
    rw [call]
    rfl

/-- A request that finds a block on the free list. -/
theorem Balanced.fit (balanced : Balanced heap objects owned sys) {free : List Region}
    (neat : Neat heap.abi heap.head ⟨sys.mem, objects ++ nodeObjects heap sys.pages.blocks,
      owned⟩ free)
    (small : size + heap.abi.headerSize + pageSize < heap.abi.modulus)
    (fit : ∃ block ∈ free, allocSize heap.abi size ≤ block.size)
    (clear : ∀ block, FirstFit heap.abi heap.head sys.mem (allocSize heap.abi size) block →
      CutsClear heap size sys.mem block) (flags : Nat) :
    ∃ obj after, Balanced heap (⟨obj, size⟩ :: objects) owned after ∧
      Booked owned ∅ sys after [] [] ∧
      Returns (fun loops depth => kmalloc heap loops (kfree heap loops depth) size flags sys)
        (some obj, after) := by
  obtain ⟨obj, mem, left, allocated, kept, -⟩ := neat.alloc small fit clear
  exact ⟨obj, { sys with mem, log := .kmalloc obj :: sys.log },
    ⟨⟨left, kept⟩, balanced.sound, balanced.apart⟩, booked_of_same rfl rfl rfl, free.length + 1,
    fun loops enough depth _ => kmalloc_fit (allocated loops enough)⟩

variable {bound : Nat} {obj : Option Nat} {mem : Memory}

/-- A request that takes new pages in. -/
theorem Balanced.take (balanced : Balanced heap objects owned sys)
    (small : size + heap.abi.headerSize + pageSize < heap.abi.modulus)
    (large : allocSize heap.abi size ≤ pagesSize heap.abi size)
    (ask : ∀ loops ≥ bound, search heap loops size sys.mem = some heap.head)
    (counted : pagesSize heap.abi size ≤ sys.pages.freeSpace) {paddr : Nat} {left : List PageBlock}
    {freed : List Nat}
    (cut : cutFirstFit (pagesSize heap.abi size) sys.pages.blocks = some (paddr, left, freed))
    (granted : Granted heap.abi heap.head ⟨sys.mem, objects, owned⟩
      ⟨heap.kva paddr, pagesSize heap.abi size⟩)
    (inside : heap.kva paddr + pagesSize heap.abi size < heap.abi.modulus)
    (unlisted : Disjoint (⟨heap.kva paddr, pagesSize heap.abi size⟩ : Region).bytes
      (covered (regions sys.pages.blocks)))
    (calm : Calm fun loops depth =>
      kmalloc heap loops (frugalKfree heap loops depth) size flags sys) :
    ∃ obj after given, Balanced heap (⟨obj, size⟩ :: objects)
        ((⟨heap.kva paddr, pagesSize heap.abi size⟩ : Region).bytes ∪ (owned \ covered given))
          after ∧
      Booked owned ∅ sys after [⟨paddr, pagesSize heap.abi size⟩] given ∧
      Returns (fun loops depth => kmalloc heap loops (kfree heap loops depth) size flags sys)
        (some obj, after) := by
  have aligned : pagesSize heap.abi size % pageSize = 0 := by
    rw [(request_sizes small).2]
    exact mul_mod_left _ _
  obtain ⟨calmBound, calm⟩ := calm
  obtain ⟨ready, given, ⟨booked, kept⟩, readyBound, asked⟩ := balanced.grant aligned counted cut
    ⟨max calmBound bound, fun loops enough depth => by
      obtain ⟨first, second⟩ := max_le_iff.mp enough
      have call := calm loops first depth
      dsimp only at call
      rw [kmalloc_ask (ask loops second)] at call
      exact bind_ne_panic call⟩
  obtain ⟨⟨free, neat⟩, sound, apart⟩ := kept
  have grantedReady : Granted heap.abi heap.head ⟨ready.mem, objects ++ nodeObjects heap
      ready.pages.blocks, owned \ covered given⟩ ⟨heap.kva paddr, pagesSize heap.abi size⟩ :=
    ⟨granted.aligned, granted.fresh.mono_right sdiff_subset, granted.outside⟩
  obtain ⟨obj, mem, rest, taken, keptAfter⟩ :=
    @Neat.takePages _ _ _ _ _ neat
    size flags paddr small grantedReady inside large
  refine ⟨obj, { ready with mem, log := .kmalloc obj :: ready.log }, given,
    ⟨⟨rest, keptAfter⟩, sound, ?_⟩,
      ⟨booked.granted, booked.released, booked.available, booked.within,
      booked.freeSet⟩, max (max bound readyBound) (free.length + 1),
        fun loops enough depth deep => ?_⟩
  · refine disjoint_union_left.mpr ⟨?_, apart⟩
    rw [booked.freeSet, empty_union, disjoint_union_right]
    exact ⟨unlisted.mono_right sdiff_subset, granted.fresh.mono_right booked.within⟩
  · obtain ⟨both, third⟩ := max_le_iff.mp enough
    obtain ⟨first, second⟩ := max_le_iff.mp both
    have call := asked loops second depth ((le_max_right _ _).trans ((le_max_left _ _).trans deep))
    exact kmalloc_grant (ask loops first) call (taken loops third)

/-- A request that is refused. -/
theorem kmalloc_refused (small : size + heap.abi.headerSize + pageSize < heap.abi.modulus)
    (ask : ∀ loops ≥ bound, search heap loops size sys.mem = some heap.head)
    (counted : pagesSize heap.abi size ≤ sys.pages.freeSpace)
    (cut : cutFirstFit (pagesSize heap.abi size) sys.pages.blocks = none) (flags : Nat) :
    Returns (fun loops depth => kmalloc heap loops (kfree heap loops depth) size flags sys)
      (none, sys) := by
  have aligned : isAligned (pagesSize heap.abi size) pageSize = true := by
    refine (isAligned_two_pow _ 12).mpr ?_
    rw [(request_sizes small).2]
    exact mul_mod_left _ _
  refine ⟨bound, fun loops enough depth _ => ?_⟩
  dsimp only
  rw [kmalloc_ask (ask loops enough), allocPages, aligned, if_neg (by decide),
    if_neg (not_lt.mpr counted), cut]
  rfl

/-! ### Steps -/

section Steps

variable {state : SystemState} {call : SystemCall} {after : System}

/-- The state that a call on the books leads to. -/
theorem Booked.outcome {taken given : List Region}
    (booked : Booked state.owned call.returned state.system after taken given)
    (balanced : Balanced heap (call.objects state.objects obj)
      (call.acquired heap taken ∪ (state.owned \ covered given)) after) :
    Balanced heap (call.outcome heap state (obj, after)).state.objects
        (call.outcome heap state (obj, after)).state.owned
        (call.outcome heap state (obj, after)).state.system ∧
      (call.outcome heap state (obj, after)).Accounted state call := by
  have takenAll : MemorySystem.granted after.log = taken := booked.granted.trans (append_nil _)
  have givenAll : MemorySystem.released after.log = given :=
    booked.released.trans (append_nil _)
  refine ⟨?_, ?_, ?_, ?_, balanced.nodup⟩
  · refine @Balanced.congr _ _ _ after ?_ _ rfl rfl
    rw [SystemCall.outcome]
    rw [takenAll, givenAll]
    exact balanced
  · rw [SystemCall.outcome]
    dsimp only
    rw [takenAll]
    exact booked.available
  · rw [SystemCall.outcome]
    rw [takenAll, givenAll]
    exact booked.freeSet
  · refine pairwise_map.mpr (balanced.sound.spread.imp fun {first second} below => ?_)
    exact Region.disjoint_of_limit_le below.le

theorem frugally_bind {α β : Type} (mem : Memory) (first : Except Trap α)
    (next : α → Except Trap β) :
    frugally heap loops mem (first >>= next) = frugally heap loops mem first >>= next := by
  unfold frugally
  split
  · rfl
  · split <;> rfl

/-- What is known of every step. -/
def Settles (heap : Heap) (state : SystemState) (call : SystemCall) : Prop :=
  ∃ result, Returns (fun loops depth =>
      call.perform heap loops (kfree heap loops depth) state.system) result ∧
    Balanced heap (call.outcome heap state result).state.objects
      (call.outcome heap state result).state.owned (call.outcome heap state result).state.system ∧
    (call.outcome heap state result).Accounted state call

theorem unacquired
    (kept : Balanced heap objects owned after) : Balanced heap objects (∅ ∪ owned) after := by
  rw [empty_union]
  exact kept

variable (balanced : Balanced heap state.objects state.owned state.system)

include balanced

theorem kmalloc_settles (orderly : (SystemCall.kmalloc size flags).Orderly heap state)
    (supplied : (SystemCall.kmalloc size flags).Supplied heap state) :
    Settles heap state (.kmalloc size flags) := by
  obtain ⟨small, serves⟩ := orderly
  obtain ⟨free, neat⟩ := balanced.neat
  have nothing : covered ([].map fun region : Region =>
      (⟨heap.kva region.base, region.size⟩ : Region)) ∪
      (state.owned \ covered []) = state.owned := by
    rw [map_nil, covered_nil, sdiff_empty, empty_union]
  rcases search_cases neat size with ⟨block, member, large, first, notHead, found⟩ | ⟨none, found⟩
  · have served := serves _ _ (found _ (lt_succ_self _))
    rw [SystemCall.Served, if_neg notHead, entry_node] at served
    obtain ⟨obj, after, kept, booked, returns⟩ := balanced.fit neat small ⟨block, member, large⟩
      (fun other isFirst => FirstFit.unique first isFirst ▸ served) flags
    refine ⟨(some obj, after), returns, booked.outcome ?_⟩
    rw [SystemCall.acquired, nothing]
    exact kept
  · have served := serves _ _ (found _ (lt_succ_self _))
    rw [SystemCall.Served, if_pos rfl] at served
    obtain ⟨room, counted, fresh⟩ := served
    rcases cut : cutFirstFit (pagesSize heap.abi size) state.pages.blocks with
      _ | ⟨paddr, left, freed⟩
    · refine ⟨(Option.none, state.system), kmalloc_refused small found counted cut flags,
        Booked.outcome (booked_of_same rfl rfl rfl) ?_⟩
      rw [SystemCall.acquired, nothing]
      exact balanced
    · obtain ⟨isGranted, inside, unlisted⟩ := fresh paddr left freed cut
      obtain ⟨obj, after, given, kept, booked, returns⟩ :=
        balanced.take small room found counted cut
        isGranted inside unlisted ⟨0, fun loops _ depth => supplied loops depth⟩
      refine ⟨(some obj, after), returns, booked.outcome ?_⟩
      rw [SystemCall.acquired, map_cons, map_nil, covered_cons, covered_nil, union_empty]
      exact kept

theorem kfree_settles {object : Object} (orderly : (SystemCall.kfree object).Orderly heap state)
    (supplied : (SystemCall.kfree object).Supplied heap state) :
    Settles heap state (.kfree object) := by
  obtain ⟨after, given, ⟨booked, kept⟩, returns⟩ := releases heap state.owned object _ _
    (balanced.perm (perm_cons_erase orderly))
    ⟨0, fun loops _ depth => bind_ne_panic (supplied loops depth)⟩
  exact ⟨(none, after), returns.bind rfl, booked.outcome (unacquired kept)⟩

theorem freePages_settles {pages : Pages}
    (orderly : (SystemCall.freePages pages).Orderly heap state)
    (supplied : (SystemCall.freePages pages).Supplied heap state) :
    Settles heap state (.freePages pages) := by
  obtain ⟨whole, unlisted, unowned⟩ := orderly
  obtain ⟨after, given, ⟨booked, kept⟩, returns⟩ :=
    (releases heap state.owned).freePages balanced
    whole unlisted unowned ⟨0, fun loops _ depth => by
      have call := supplied loops depth
      rw [SystemCall.frugal, SystemCall.perform, frugally_bind] at call
      exact bind_ne_panic call⟩
  exact ⟨(none, after), returns.bind rfl, booked.outcome (unacquired kept)⟩

theorem allocPages_settles {request : Pages}
    (supplied : (SystemCall.allocPages request).Supplied heap state) :
    Settles heap state (.allocPages request) := by
  have calm : Calm fun loops depth =>
      allocPages (frugalKfree heap loops depth) request state.system :=
    ⟨0, fun loops _ depth => bind_ne_panic (supplied loops depth)⟩
  have unchanged : ∀ retcode : Int,
      (∀ release, allocPages release request state.system = .ok (retcode, request, state.system)) →
      Settles heap state (.allocPages request) := by
    intro retcode returned
    refine ⟨(none, state.system), ⟨0, fun loops _ depth _ => ?_⟩,
      Booked.outcome (booked_of_same rfl rfl rfl) ?_⟩
    · dsimp only
      rw [SystemCall.perform, returned]
      rfl
    · show Balanced heap _ (∅ ∪ _) _
      rw [empty_union, covered_nil, sdiff_empty]
      exact balanced
  by_cases page : isAligned request.size pageSize = true
  · by_cases short : state.system.pages.freeSpace < request.size
    · refine unchanged 0 fun release => ?_
      rw [allocPages, page, if_neg (by decide), if_pos short]
    · rcases cut : cutFirstFit request.size state.system.pages.blocks with _ | ⟨paddr, left, freed⟩
      · refine unchanged eof fun release => ?_
        rw [allocPages, page, if_neg (by decide), if_neg short, cut]
      · obtain ⟨after, given, ⟨booked, kept⟩, returns⟩ := balanced.grant
          ((isAligned_two_pow _ 12).mp page) (Nat.le_of_not_lt short) cut calm
        exact ⟨(none, after), returns.bind rfl, booked.outcome (unacquired kept)⟩
  · refine unchanged 0 fun release => ?_
    rw [allocPages, if_pos (by rw [Bool.not_eq_true] at page; rw [page]; rfl)]

theorem write_settles (orderly : (SystemCall.write mem).Orderly heap state) :
    Settles heap state (.write mem) := by
  obtain ⟨⟨free, neat⟩, sound, apart⟩ := balanced
  have written : Set.EqOn mem state.mem (Usage.reserved heap.abi heap.head
      ⟨state.mem, state.objects ++ nodeObjects heap state.pages.blocks, state.owned⟩) := by
    refine orderly.mono ?_
    rintro address (isHead | isHead | ⟨inside, outside⟩)
    · exact Or.inl isHead
    · exact Or.inr (Or.inl isHead)
    · exact Or.inr (Or.inr ⟨inside, fun object member =>
        outside object (mem_append_left _ member)⟩)
  refine ⟨(none, { state.system with mem }), ⟨0, fun _ _ _ _ => rfl⟩,
    Booked.outcome (booked_of_same rfl rfl rfl) ?_⟩
  show Balanced heap _ (∅ ∪ _) _
  rw [empty_union, covered_nil, sdiff_empty]
  exact ⟨⟨free, neat.write written⟩, sound, apart⟩

theorem step_settles (orderly : call.Orderly heap state) (supplied : call.Supplied heap state) :
    Settles heap state call := by
  cases call with
  | kmalloc size flags => exact kmalloc_settles balanced orderly supplied
  | kfree object => exact kfree_settles balanced orderly supplied
  | allocPages request => exact allocPages_settles balanced supplied
  | freePages pages => exact freePages_settles balanced orderly supplied
  | write mem => exact write_settles balanced orderly

end Steps

/-! ### Whole runs -/

section Runs

variable {start state : SystemState} {call : SystemCall}

theorem perform_below {more : Nat} {first second : Release} (less : Less first second)
    (bound : loops ≤ more) (call : SystemCall) :
    Below (call.perform heap loops first sys) (call.perform heap more second sys) := by
  cases call with
  | kmalloc size flags => exact kmalloc_below less bound size flags sys
  | kfree object => exact (less object.obj sys).bind fun _ => Below.refl _
  | allocPages request => exact (allocPages_below less request sys).bind fun _ => Below.refl _
  | freePages pages => exact (freePages_below less bound pages sys).bind fun _ => Below.refl _
  | write mem => exact Below.refl _

/-- A step with enough fuel ends like every step that comes to its end. -/
theorem Settles.run (settles : Settles heap state call) :
    ∃ outcome, (∃ fuel, call.run heap fuel state = .ok outcome) ∧
      (∀ fuel, Below (call.run heap fuel state) (.ok outcome)) ∧
      Balanced heap outcome.state.objects outcome.state.owned outcome.state.system ∧
      outcome.Accounted state call := by
  obtain ⟨result, ⟨bound, returned⟩, kept, accounted⟩ := settles
  have ends : call.run heap bound state = .ok (call.outcome heap state result) := by
    have call := returned bound le_rfl bound le_rfl
    dsimp only at call
    rw [SystemCall.run, release, call]
    rfl
  refine ⟨_, ⟨bound, ends⟩, fun fuel => ?_, kept, accounted⟩
  have more := returned (max bound fuel) (le_max_left _ _) (max bound fuel) (le_max_left _ _)
  have larger := le_max_right bound fuel
  have less : Less (kfree heap fuel fuel) (kfree heap (max bound fuel) (max bound fuel)) :=
    kfree_below larger larger
  have below := @perform_below heap _ state.system _ _ _ less larger call
  dsimp only at more
  rw [more] at below
  exact below.bind fun _ => Below.refl _

/-- The steps of the runs that keep the lists in order. -/
def Admitted (heap : Heap) (state : SystemState) (call : SystemCall) : Prop :=
  call.Orderly heap state ∧ call.Supplied heap state

theorem SystemReachable.balanced (reachable : SystemReachable heap (Admitted heap) start state)
    (started : Balanced heap start.objects start.owned start.system) :
    Balanced heap state.objects state.owned state.system := by
  induction reachable with
  | start => exact started
  | @step before outcome fuel call earlier fits returned inductionHypothesis =>
    obtain ⟨again, -, below, kept, -⟩ := (step_settles inductionHypothesis fits.1 fits.2).run
    have same := (below fuel).ok returned
    cases same
    exact kept

/-- In every run whose calls of `free_pages` find their nodes on the free list of the heap, every
step returns, none comes back to a node that is not on the list any more, and the free set is
accounted for. -/
theorem reentry_tolerated (started : Balanced heap start.objects start.owned start.system)
    (reachable : SystemReachable heap (Admitted heap) start state)
    (admitted : Admitted heap state call) :
    (∃ fuel outcome, call.run heap fuel state = .ok outcome) ∧
      ∀ fuel, call.run heap fuel state ≠ .error .dangling ∧
        ∀ outcome, call.run heap fuel state = .ok outcome → outcome.Accounted state call := by
  have balanced := reachable.balanced started
  obtain ⟨outcome, ⟨fuel, returned⟩, below, -, accounted⟩ :=
    (step_settles balanced admitted.1 admitted.2).run
  refine ⟨⟨fuel, outcome, returned⟩, fun more => ⟨fun dangling => ?_, fun other ends => ?_⟩⟩
  · have same := (below more).eq (by rw [dangling]; exact nofun)
    rw [dangling] at same
    cases same
  · have same := (below more).ok ends
    cases same
    exact accounted

end Runs

/-! ### A run that comes back to a node that is gone -/

section Dangling

/-- A 32-bit kernel that finds a page `0x80000000` above its physical address. -/
def heap32 : Heap := ⟨.ilp32, (· + 0x80000000), 0x900⟩

/-- The page allocator with one block of free pages, whose node is in the first page of the heap. -/
def bootState : SystemState where
  mem := ((FreeList.takePages .ilp32 heap32.kva 0x900 9 32 0 0x100000
    (listInit .ilp32 (fun _ => 0) 0x900)).map Prod.snd).getD fun _ => 0
  pages := ⟨[⟨0x101000, 0x10000, 0, 0x80100020⟩], 0x10000⟩
  objects := []
  owned := (⟨0x80100000, 4096⟩ : Region).bytes

theorem bootState_balanced :
    Balanced heap32 bootState.objects bootState.owned bootState.system := by
  have asked : pagesSize .ilp32 32 = 4096 := by decide +kernel
  have fresh : Granted .ilp32 0x900 (initial .ilp32 0x900 fun _ => 0)
      ⟨heap32.kva 0x100000, pagesSize .ilp32 32⟩ := by
    rw [asked]
    exact ⟨by decide, disjoint_empty _, fun inside => absurd inside.1 (by decide),
      fun inside => absurd inside.1 (by decide)⟩
  obtain ⟨obj, after, left, taken, kept⟩ := Neat.takePages
    (Neat.start .ilp32 0x900 fun _ => 0) (by decide) fresh (by decide +kernel)
    (by decide +kernel)
  have place : (FreeList.takePages .ilp32 heap32.kva 0x900 9 32 0 0x100000
      (listInit .ilp32 (fun _ => 0) 0x900)).map Prod.fst = some 0x80100020 := by decide +kernel
  have returned := taken 9 (by decide)
  dsimp only [initial] at returned
  rw [returned] at place
  cases place
  rw [asked] at kept
  have memory : bootState.mem = after := by
    rw [bootState]
    rw [returned]
    rfl
  have owned : (⟨heap32.kva 0x100000, 4096⟩ : Region).bytes ∪
      (initial .ilp32 0x900 fun _ => 0).owned = bootState.owned := union_empty _
  refine ⟨⟨left, ?_⟩, ?_, ?_⟩
  · rw [owned, ← memory] at kept
    exact kept
  · refine sound_cons.mpr ⟨⟨by decide, by decide, by decide, by decide⟩, sound_nil, ?_⟩
    exact fun other member => by cases member
  · refine disjoint_covered.mpr (forall_mem_singleton.mpr ?_)
    exact (Region.disjoint_of_limit_le (by decide)).symm

/-! The states of the run. Two objects get a page each. A page in front of them is returned, and so
is the page of the first object, at its kernel address. Then the first page of the heap is
filled. -/

/-- The memory after a step. -/
def memoryAfter (state : SystemState) (call : SystemCall) : Memory :=
  match call.perform heap32 9 (release heap32 9) state.system with
  | .ok result => result.2.mem
  | .error _ => state.mem

def pageGranted : SystemState where
  mem := memoryAfter bootState (.allocPages ⟨0, 4096, 0, 0⟩)
  pages := ⟨[⟨0x102000, 0xf000, 0, 0x80100020⟩], 0xf000⟩
  objects := []
  owned := bootState.owned

def firstTaken : SystemState where
  mem := memoryAfter pageGranted (.kmalloc 4032 0)
  pages := ⟨[⟨0x103000, 0xe000, 0, 0x80100020⟩], 0xe000⟩
  objects := [⟨0x80102020, 4032⟩]
  owned := (⟨0x80102000, 4096⟩ : Region).bytes ∪ pageGranted.owned

def bothTaken : SystemState where
  mem := memoryAfter firstTaken (.kmalloc 4032 0)
  pages := ⟨[⟨0x104000, 0xd000, 0, 0x80100020⟩], 0xd000⟩
  objects := [⟨0x80103020, 4032⟩, ⟨0x80102020, 4032⟩]
  owned := (⟨0x80103000, 4096⟩ : Region).bytes ∪ firstTaken.owned

def pageReturned : SystemState where
  mem := memoryAfter bothTaken (.freePages ⟨0x101000, 4096, 0, 0⟩)
  pages := ⟨[⟨0x101000, 0x1000, 0, 0x80100060⟩, ⟨0x104000, 0xd000, 0, 0x80100020⟩], 0xe000⟩
  objects := bothTaken.objects
  owned := bothTaken.owned

def firstFreed : SystemState where
  mem := memoryAfter pageReturned (.kfree ⟨0x80102020, 4032⟩)
  pages := ⟨[⟨0x101000, 0x1000, 0, 0x80100060⟩, ⟨0x104000, 0xd000, 0, 0x80100020⟩,
    ⟨0x80102000, 0x1000, 0, 0x801000a0⟩], 0xf000⟩
  objects := [⟨0x80103020, 4032⟩]
  owned := pageReturned.owned \ (⟨0x80102000, 4096⟩ : Region).bytes

def heapFilled : SystemState where
  mem := memoryAfter firstFreed (.kmalloc 3872 0)
  pages := firstFreed.pages
  objects := [⟨0x801000e0, 3872⟩, ⟨0x80103020, 4032⟩]
  owned := firstFreed.owned

/-- What a step returns, how it leaves the page allocator, and what it has logged. -/
def valuesAfter (state : SystemState) (call : SystemCall) :
    Option (Option Nat × PageAllocator × List Event) :=
  (call.perform heap32 9 (release heap32 9) state.system).toOption.map fun result =>
    (result.1, result.2.pages, result.2.log)

variable {allowed : SystemState → SystemCall → Prop} {state : SystemState} {call : SystemCall}

theorem reach {pages : PageAllocator} {log : List Event}
    (earlier : SystemReachable heap32 allowed bootState state) (fits : allowed state call)
    (values : valuesAfter state call = some (obj, pages, log))
    (sameObjects : call.objects state.objects obj = objects)
    (sameOwned : call.acquired heap32 (granted log) ∪ (state.owned \ covered (released log)) =
      owned) :
    SystemReachable heap32 allowed bootState ⟨memoryAfter state call, pages, objects, owned⟩ := by
  rw [valuesAfter] at values
  cases performed : call.perform heap32 9 (release heap32 9) state.system with
  | error trap =>
    rw [performed] at values
    cases values
  | ok result =>
    rw [performed] at values
    cases values
    have memory : memoryAfter state call = result.2.mem := by rw [memoryAfter, performed]
    rw [memory, ← sameObjects, ← sameOwned]
    have ran : call.run heap32 9 state = .ok (call.outcome heap32 state result) := by
      rw [SystemCall.run, performed]
      rfl
    exact SystemReachable.step call earlier fits ran

/-- How a step fails. -/
def trapAt (state : SystemState) (call : SystemCall) : Option Trap :=
  match call.perform heap32 9 (release heap32 9) state.system with
  | .ok _ => none
  | .error trap => some trap

theorem run_of_trapAt {trap : Trap} (ended : trapAt state call = some trap) :
    call.run heap32 9 state = .error trap := by
  rw [trapAt] at ended
  rw [SystemCall.run]
  split at ended
  · cases ended
  next performed =>
    cases ended
    rw [performed]
    rfl

variable {more : Nat}

theorem search_unique {found other : Nat} (first : search heap loops size mem = some found)
    (second : search heap more size mem = some other) : found = other := by
  have one : search heap (max loops more) size mem = some found :=
    Ring.seek_mono (le_max_left _ _) first
  have two : search heap (max loops more) size mem = some other :=
    Ring.seek_mono (le_max_right _ _) second
  exact Option.some.inj (one.symm.trans two)

theorem frugal_below {deeper : Nat} (bound : loops ≤ more) (nesting : depth ≤ deeper) :
    Below (call.frugal heap loops depth state) (call.frugal heap more deeper state) := by
  have less : Less (frugalKfree heap loops depth) (frugalKfree heap more deeper) :=
    frugalKfree_below bound nesting
  have below := @perform_below heap _ state.system _ _ _ less bound
  cases call with
  | kmalloc size flags => exact below (.kmalloc size flags)
  | kfree object => exact below (.kfree object)
  | allocPages request => exact below (.allocPages request)
  | freePages pages => exact frugally_below bound state.mem (below (.freePages pages))
  | write mem => exact below (.write mem)

/-- A step of the frugal kernel that returns does not panic with other bounds. -/
theorem supplied_of_frugal (returns : (call.frugal heap loops depth state).toOption.isSome = true) :
    call.Supplied heap state := by
  cases ended : call.frugal heap loops depth state with
  | error trap =>
    rw [ended] at returns
    cases returns
  | ok result =>
    intro other nesting panics
    have returned := (frugal_below (le_max_left loops other) (le_max_left depth nesting)).ok ended
    have same := (frugal_below (le_max_right loops other) (le_max_right depth nesting)).eq
      (by rw [panics]; exact nofun)
    rw [panics, returned] at same
    cases same

/-- A request for most of a page that is granted a page. -/
theorem orderly_of_ask {paddr : Nat} {left : List PageBlock} {freed : List Nat}
    (ask : search heap32 9 4032 state.mem = some heap32.head)
    (counted : 4096 ≤ state.pages.freeSpace)
    (cut : cutFirstFit 4096 state.pages.blocks = some (paddr, left, freed))
    (granted : Granted .ilp32 0x900 ⟨state.mem, state.objects, state.owned⟩
      ⟨heap32.kva paddr, 4096⟩)
    (inside : heap32.kva paddr + 4096 < heap32.abi.modulus)
    (unlisted : Disjoint (⟨heap32.kva paddr, 4096⟩ : Region).bytes state.freeSet) :
    SystemCall.Orderly heap32 state (.kmalloc 4032 0) := by
  have asked : pagesSize heap32.abi 4032 = 4096 := by decide +kernel
  refine ⟨by decide, fun loops found ends => ?_⟩
  rw [SystemCall.Served, if_pos (search_unique ends ask), asked]
  refine ⟨by decide +kernel, counted, fun place rest nodes same => ?_⟩
  rw [cut] at same
  cases same
  exact ⟨granted, inside, unlisted⟩

theorem pageGranted_orderly : SystemCall.Orderly heap32 pageGranted (.kmalloc 4032 0) := by
  refine orderly_of_ask (by decide +kernel) (by decide) rfl ⟨by decide, ?_,
    fun inside => absurd inside.1 (by decide), fun inside => absurd inside.1 (by decide)⟩
      (by decide) ?_
  · exact (Region.disjoint_of_limit_le (by decide)).symm
  · refine disjoint_covered.mpr (forall_mem_singleton.mpr ?_)
    exact (Region.disjoint_of_limit_le (by decide)).symm

theorem firstTaken_orderly : SystemCall.Orderly heap32 firstTaken (.kmalloc 4032 0) := by
  refine orderly_of_ask (by decide +kernel) (by decide) rfl ⟨by decide, ?_,
    fun inside => absurd inside.1 (by decide), fun inside => absurd inside.1 (by decide)⟩
      (by decide) ?_
  · refine disjoint_union_right.mpr ⟨?_, ?_⟩
    · exact (Region.disjoint_of_limit_le (by decide)).symm
    · exact (Region.disjoint_of_limit_le (by decide)).symm
  · refine disjoint_covered.mpr (forall_mem_singleton.mpr ?_)
    exact (Region.disjoint_of_limit_le (by decide)).symm

theorem bothTaken_orderly :
    SystemCall.Orderly heap32 bothTaken (.freePages ⟨0x101000, 4096, 0, 0⟩) := by
  refine ⟨⟨by decide, by decide, by decide, by decide⟩, ?_, ?_⟩
  · refine disjoint_covered.mpr (forall_mem_singleton.mpr ?_)
    exact Region.disjoint_of_limit_le (by decide)
  · refine Set.disjoint_union_right.mpr ⟨Region.disjoint_of_limit_le (by decide), ?_⟩
    refine Set.disjoint_union_right.mpr ⟨Region.disjoint_of_limit_le (by decide), ?_⟩
    exact Region.disjoint_of_limit_le (by decide)

theorem firstFreed_orderly : SystemCall.Orderly heap32 firstFreed (.kmalloc 3872 0) := by
  have found : search heap32 9 3872 firstFreed.mem = some (node .ilp32 0x801000c0) := by
    decide +kernel
  have exactly : firstFreed.mem 0x801000c0 = 3904 := by decide +kernel
  refine ⟨by decide, fun loops place ends => ?_⟩
  rw [search_unique ends found, SystemCall.Served, if_neg (by decide +kernel)]
  intro large
  refine absurd large ?_
  rw [show FreeList.entry heap32.abi (node .ilp32 0x801000c0) = 0x801000c0 from entry_node _,
    exactly]
  decide +kernel

/-- The first four steps, allowed wherever the steps of the run are. -/
theorem pageReturned_reachable (granted : allowed bootState (.allocPages ⟨0, 4096, 0, 0⟩))
    (first : allowed pageGranted (.kmalloc 4032 0)) (second : allowed firstTaken (.kmalloc 4032 0))
    (returned : allowed bothTaken (.freePages ⟨0x101000, 4096, 0, 0⟩)) :
    SystemReachable heap32 allowed bootState pageReturned := by
  have page (region : Region) (owned : Set Nat) : covered [region] ∪ (owned \ covered []) =
      region.bytes ∪ owned := by
    rw [covered_cons, covered_nil, union_empty, sdiff_empty]
  have none (owned : Set Nat) : ∅ ∪ (owned \ covered []) = owned := by
    rw [covered_nil, sdiff_empty, empty_union]
  have one : SystemReachable heap32 allowed bootState pageGranted := by
    have values : valuesAfter bootState (.allocPages ⟨0, 4096, 0, 0⟩) =
        some (Option.none, pageGranted.pages, [.grant ⟨0x101000, 4096⟩]) := by decide +kernel
    exact reach SystemReachable.start granted values rfl (none _)
  have two : SystemReachable heap32 allowed bootState firstTaken := by
    have values : valuesAfter pageGranted (.kmalloc 4032 0) = some (some 0x80102020,
        firstTaken.pages, [.kmalloc 0x80102020, .grant ⟨0x102000, 4096⟩]) := by decide +kernel
    exact reach one first values rfl (page _ _)
  have three : SystemReachable heap32 allowed bootState bothTaken := by
    have values : valuesAfter firstTaken (.kmalloc 4032 0) = some (some 0x80103020,
        bothTaken.pages, [.kmalloc 0x80103020, .grant ⟨0x103000, 4096⟩]) := by decide +kernel
    exact reach two second values rfl (page _ _)
  have values : valuesAfter bothTaken (.freePages ⟨0x101000, 4096, 0, 0⟩) =
      some (Option.none, pageReturned.pages, [.kmalloc 0x80100060]) := by decide +kernel
  exact reach three returned values rfl (none _)

theorem pageReturned_live : (⟨0x80102020, 4032⟩ : Object) ∈ pageReturned.objects :=
  mem_cons_of_mem _ mem_cons_self

/-- The first object goes back, and its page with it, while its node comes from the first page of
the heap. -/
theorem reentry_tolerated_nested :
    SystemReachable heap32 (Admitted heap32) bootState pageReturned ∧
      (∃ fuel outcome, (SystemCall.kfree ⟨0x80102020, 4032⟩).run heap32 fuel pageReturned =
        .ok outcome) ∧
      ∀ fuel, (SystemCall.kfree ⟨0x80102020, 4032⟩).run heap32 fuel
        pageReturned ≠ .error .dangling ∧
        ∀ outcome, (SystemCall.kfree ⟨0x80102020, 4032⟩).run heap32 fuel pageReturned =
          .ok outcome → outcome.Accounted pageReturned (.kfree ⟨0x80102020, 4032⟩) := by
  have reachable : SystemReachable heap32 (Admitted heap32) bootState pageReturned :=
    pageReturned_reachable ⟨trivial, @supplied_of_frugal _ 9 9 _ _ (by decide +kernel)⟩
      ⟨pageGranted_orderly, @supplied_of_frugal _ 9 9 _ _ (by decide +kernel)⟩
      ⟨firstTaken_orderly, @supplied_of_frugal _ 9 9 _ _ (by decide +kernel)⟩
      ⟨bothTaken_orderly, @supplied_of_frugal _ 9 9 _ _ (by decide +kernel)⟩
  exact ⟨reachable, reentry_tolerated bootState_balanced reachable
    ⟨pageReturned_live, @supplied_of_frugal _ 9 9 _ _ (by decide +kernel)⟩⟩

/-- When the second object goes back, `free_pages` has to ask for a page for its node. The page is
free again as soon as the node is, it lies right below the block that the pages were merged with,
and that block is taken off the list while `__free` still uses it. -/
theorem reentry_dangles :
    Balanced heap32 bootState.objects bootState.owned bootState.system ∧
      SystemReachable heap32 (fun state call => call.Orderly heap32 state) bootState heapFilled ∧
      (SystemCall.kfree ⟨0x80103020, 4032⟩).Orderly heap32 heapFilled ∧
      ∃ fuel, (SystemCall.kfree ⟨0x80103020, 4032⟩).run heap32 fuel heapFilled =
        .error .dangling := by
  have four : SystemReachable heap32 (fun state call => call.Orderly heap32 state)
      bootState pageReturned :=
    pageReturned_reachable trivial pageGranted_orderly firstTaken_orderly bothTaken_orderly
  have five : SystemReachable heap32 (fun state call => call.Orderly heap32 state)
      bootState firstFreed := by
    have values : valuesAfter pageReturned (.kfree ⟨0x80102020, 4032⟩) = some (none,
        firstFreed.pages, [.kmalloc 0x801000a0, .release ⟨0x80102000, 4096⟩,
          .kfree 0x80102020]) := by
      decide +kernel
    refine reach four pageReturned_live values (by decide +kernel) ?_
    show ∅ ∪ (pageReturned.owned \ covered [⟨0x80102000, 4096⟩]) = firstFreed.owned
    rw [covered_cons, covered_nil, union_empty, empty_union]
    rfl
  have six : SystemReachable heap32 (fun state call => call.Orderly heap32 state)
      bootState heapFilled := by
    have values : valuesAfter firstFreed (.kmalloc 3872 0) =
        some (some 0x801000e0, firstFreed.pages, [.kmalloc 0x801000e0]) := by decide +kernel
    refine reach five firstFreed_orderly values rfl ?_
    show covered [] ∪ (firstFreed.owned \ covered []) = firstFreed.owned
    rw [covered_nil, sdiff_empty, empty_union]
  have ended : trapAt heapFilled (.kfree ⟨0x80103020, 4032⟩) = some .dangling := by decide +kernel
  exact ⟨bootState_balanced, six, mem_cons_of_mem _ mem_cons_self, 9, run_of_trapAt ended⟩

end Dangling

end MemorySystem

end AIMv6
