/-
This file models the page allocator of `kern/mm/pmm/ff.c` and the free-list allocator of
`kern/mm/vmm/flff.c` as the one system they are: the nodes of the page allocator's list come from
`kmalloc`, which asks `alloc_pages` for memory, and go back through `kfree`, which passes whole
pages to `free_pages`.

The four functions call each other in a circle. Each is written over the `kfree` it calls, and the
circle is closed by a bound on how deep the calls nest; `Trap.stuck` is a call that needs a larger
bound. The page list is a list of blocks with the addresses of their nodes. A function that comes
back to a node after a nested call looks it up by its address, and `Trap.dangling` is a node that is
not on the list any more. The log records the calls, last first.
-/

import AIMv6.FreeListBootstrap
import AIMv6.PageConservation

namespace AIMv6

open List

/-- `sizeof(struct block)`. -/
def Abi.blockSize : Abi → Nat
  | .ilp32 => 32
  | .lp64 => 40

/-- The offset of the field `flags` in a `struct block`. -/
def blockFlagsOffset : Nat := 16

namespace MemorySystem

open FreeList

/-- What the free-list allocator depends on: the layout of its headers, `pa2kva`, and where its list
head is. -/
structure Heap where
  abi : Abi
  kva : Nat → Nat
  head : Nat

/-- How a call can fail to return. -/
inductive Trap where
  | stuck
  | panic
  | dangling
  deriving DecidableEq, Repr

/-- What the log records: an object handed out by `kmalloc`, an object passed to `kfree` or to the
`free` of the bootstrap allocator, pages granted by `alloc_pages`, and pages that `kfree` passes to
`free_pages`. -/
inductive Event where
  | kmalloc (obj : Nat)
  | kfree (obj : Nat)
  | oldFree (obj : Nat)
  | grant (pages : Region)
  | release (pages : Region)
  deriving DecidableEq, Repr

/-- The memory, the page list with `__free_space`, and the log. -/
structure System where
  mem : Memory
  pages : PageAllocator
  log : List Event

/-- The system with another page list. -/
def System.withBlocks (sys : System) (blocks : List PageBlock) : System :=
  { sys with pages := { sys.pages with blocks } }

/-- The `kfree` that a function calls. -/
abbrev Release := Nat → System → Except Trap System

/-! ### The functions -/

/-- `alloc_pages`: the return value, the caller's `struct pages` and the system. -/
def allocPages (release : Release) (pages : Pages) (sys : System) :
    Except Trap (Int × Pages × System) :=
  if !isAligned pages.size pageSize then .ok (0, pages, sys)
  else if sys.pages.freeSpace < pages.size then .ok (0, pages, sys)
  else
    match PageAllocator.cutFirstFit pages.size sys.pages.blocks with
    | none => .ok (eof, pages, sys)
    | some (paddr, blocks, freed) => do
      let cut := { sys.withBlocks blocks with log := .grant ⟨paddr, pages.size⟩ :: sys.log }
      let sys ← freed.foldlM (fun sys node => release node sys) cut
      let freeSpace := wrapSub addrModulus sys.pages.freeSpace pages.size
      .ok (0, { pages with paddr }, { sys with pages := { sys.pages with freeSpace } })

/-- Where the search of `kmalloc` ends: at the list head when no block is large enough. -/
def search (heap : Heap) (loops size : Nat) (mem : Memory) : Option Nat :=
  Ring.seek mem heap.head
    (fun this => allocSize heap.abi size ≤ mem (FreeList.entry heap.abi this)) loops (mem heap.head)

/-- `kmalloc`, with `none` for `NULL`. -/
def kmalloc (heap : Heap) (loops : Nat) (release : Release) (size flags : Nat) (sys : System) :
    Except Trap (Option Nat × System) :=
  match search heap loops size sys.mem with
  | none => .error .stuck
  | some found =>
    if found = heap.head then do
      let request : Pages := { paddr := 0, size := pagesSize heap.abi size, flags }
      let (retcode, pages, sys) ← allocPages release request sys
      if retcode = eof then .ok (none, sys)
      else
        match takePages heap.abi heap.kva heap.head loops size flags pages.paddr sys.mem with
        | none => .error .stuck
        | some (obj, mem) => .ok (some obj, { sys with mem, log := .kmalloc obj :: sys.log })
    else
      let this := FreeList.entry heap.abi found
      let obj := payload heap.abi this
      let mem := cutDown heap.abi this (allocSize heap.abi size) sys.mem
      .ok (some obj, { sys with mem, log := .kmalloc obj :: sys.log })

/-- The place of a node on the list: the blocks in front of it, its block, and the blocks behind. -/
def splitAtNode (node : Nat) : List PageBlock → Option (List PageBlock × PageBlock × List PageBlock)
  | [] => none
  | block :: rest =>
    if block.node = node then some ([], block, rest)
    else (splitAtNode node rest).map fun parts => (block :: parts.1, parts.2)

/-- "merge downwards": link the new block in, and when the block below ends where it begins take it
off again and let the block below grow. The result is the node that is `this` afterwards. -/
def mergeDown (release : Release) (this : PageBlock) (before after : List PageBlock)
    (sys : System) : Except Trap (Nat × System) :=
  match before.getLast? with
  | none => .ok (this.node, sys.withBlocks (this :: after))
  | some prev =>
    if (prev.paddr + prev.size) % addrModulus = this.paddr then do
      let grown := { prev with size := (prev.size + this.size) % addrModulus }
      let sys ← release this.node (sys.withBlocks (before.dropLast ++ grown :: after))
      .ok (prev.node, sys)
    else .ok (this.node, sys.withBlocks (before ++ this :: after))

/-- "merge upwards", from the node that is `this`. -/
def mergeUp (release : Release) (node : Nat) (sys : System) : Except Trap System :=
  match splitAtNode node sys.pages.blocks with
  | none => .error .dangling
  | some (_, _, []) => .ok sys
  | some (front, this, next :: rest) =>
    if (this.paddr + this.size) % addrModulus = next.paddr then
      let grown := { this with size := (this.size + next.size) % addrModulus }
      release next.node (sys.withBlocks (front ++ grown :: rest))
    else .ok sys

/-- `free_pages`. -/
def freePages (heap : Heap) (loops : Nat) (release : Release) (pages : Pages) (sys : System) :
    Except Trap System :=
  if !isAligned pages.paddr pageSize then .ok sys
  else if !isAligned pages.size pageSize then .ok sys
  else do
    let (node, sys) ← kmalloc heap loops release heap.abi.blockSize 0 sys
    match node with
    | none => .error .panic
    | some node =>
      let this : PageBlock := ⟨pages.paddr, pages.size, pages.flags, node⟩
      let before := sys.pages.blocks.takeWhile fun block => block.paddr < this.paddr
      let after := sys.pages.blocks.dropWhile fun block => block.paddr < this.paddr
      let (node, sys) ← mergeDown release this before after sys
      let sys ← mergeUp release node sys
      let freeSpace := (sys.pages.freeSpace + pages.size) % addrModulus
      .ok { sys with pages := { sys.pages with freeSpace } }

/-- What is left of a call of `kfree`, or of the bootstrap allocator's `free`, once the object is
off the books of its list: the whole pages it has gathered, if any, go to `free_pages`. -/
def giveBack (heap : Heap) (loops : Nat) (release : Release) (event : Event)
    (result : Option (Option Pages × Memory)) (sys : System) : Except Trap System :=
  match result with
  | none => .error .stuck
  | some (none, mem) => .ok { sys with mem, log := event :: sys.log }
  | some (some pages, mem) =>
    freePages heap loops release pages
      { sys with mem, log := .release ⟨pages.paddr, pages.size⟩ :: event :: sys.log }

/-- `kfree`, with calls that nest as deep as is given. -/
def kfree (heap : Heap) (loops : Nat) : Nat → Release
  | 0, _, _ => .error .stuck
  | depth + 1, obj, sys =>
    giveBack heap loops (kfree heap loops depth) (.kfree obj)
      (FreeList.kfree heap.abi heap.head loops obj sys.mem) sys

/-- `kfree` with one bound for its loops and for the nesting. -/
def release (heap : Heap) (fuel : Nat) : Release := kfree heap fuel fuel

/-- The `free` of the bootstrap allocator, whose list head is given. -/
def bootstrapFree (heap : Heap) (bootHead fuel : Nat) : Release := fun obj sys =>
  giveBack heap fuel (release heap fuel) (.oldFree obj)
    (FreeList.free heap.abi bootHead fuel obj sys.mem) sys

/-- The loop of `page_allocator_move` from a node on, or from the end of the list. `new->flags` is
not assigned, so it is what the memory holds there. -/
def moveLoop (heap : Heap) (bootHead fuel : Nat) : Nat → Option Nat → System → Except Trap System
  | _, none, sys => .ok sys
  | 0, some _, _ => .error .stuck
  | steps + 1, some node, sys => do
    let (new, sys) ← kmalloc heap fuel (release heap fuel) heap.abi.blockSize 0 sys
    match new with
    | none => .error .panic
    | some new =>
      match splitAtNode node sys.pages.blocks with
      | none => .error .dangling
      | some (front, this, back) =>
        let moved := { this with flags := sys.mem (new + blockFlagsOffset), node := new }
        let sys ← bootstrapFree heap bootHead fuel node (sys.withBlocks (front ++ moved :: back))
        match splitAtNode new sys.pages.blocks with
        | none => .error .dangling
        | some (_, _, back) =>
          moveLoop heap bootHead fuel steps (back.head?.map PageBlock.node) sys

/-- `page_allocator_move`, with the bootstrap allocator for `old`. -/
def pageAllocatorMove (heap : Heap) (bootHead fuel : Nat) (sys : System) : Except Trap System :=
  moveLoop heap bootHead fuel fuel (sys.pages.blocks.head?.map PageBlock.node) sys

/-! ### Reading the log -/

/-- The objects that `kmalloc` has handed out and that have not been passed to `kfree`. -/
def held : List Event → List Nat
  | [] => []
  | .kmalloc obj :: log => obj :: held log
  | .kfree obj :: log => (held log).erase obj
  | _ :: log => held log

/-- The objects passed to the `free` of the bootstrap allocator. -/
def oldFreed (log : List Event) : List Nat :=
  log.filterMap fun event => match event with
    | .oldFree obj => some obj
    | _ => none

/-- The pages granted by `alloc_pages`. -/
def granted (log : List Event) : List Region :=
  log.filterMap fun event => match event with
    | .grant pages => some pages
    | _ => none

/-- The pages that `kfree` has passed to `free_pages`. -/
def released (log : List Event) : List Region :=
  log.filterMap fun event => match event with
    | .release pages => some pages
    | _ => none

theorem splitAtNode_middle {front back : List PageBlock} {block : PageBlock}
    (fresh : block.node ∉ front.map PageBlock.node) :
    splitAtNode block.node (front ++ block :: back) = some (front, block, back) := by
  induction front with
  | nil => rw [nil_append, splitAtNode, if_pos rfl]
  | cons first front inductionHypothesis =>
    rw [map_cons, mem_cons, not_or] at fresh
    rw [cons_append, splitAtNode, if_neg (Ne.symm fresh.1), inductionHypothesis fresh.2]
    rfl

/-! ### Calls that end -/

/-- With any bound that is large enough the call returns the result. -/
def Ends {α : Type} (run : Nat → Except Trap α) (result : α) : Prop :=
  ∃ bound, ∀ fuel ≥ bound, run fuel = .ok result

variable {α : Type} {obj : Option Nat} {bootHead : Nat}

theorem Ends.of_eventually {run : Nat → Except Trap α} {result : α} {bound : Nat}
    (returns : ∀ fuel > bound, run fuel = .ok result) : Ends run result :=
  ⟨bound + 1, fun fuel more => returns fuel more⟩

/-! ### The log only grows -/

theorem bind_ok {β : Type} {first : Except Trap α} {next : α → Except Trap β} {final : β}
    (returned : (first >>= next) = .ok final) :
    ∃ result, first = .ok result ∧ next result = .ok final := by
  cases first with
  | error trap => cases returned
  | ok result => exact ⟨result, rfl, returned⟩

variable {heap : Heap} {fuel size flags node : Nat} {sys after : System}

/-- A request that finds no block asks for pages. -/
theorem kmalloc_ask {release : Release} (seek : search heap fuel size sys.mem = some heap.head) :
    kmalloc heap fuel release size flags sys =
      allocPages release ⟨0, pagesSize heap.abi size, flags, 0⟩ sys >>= fun result =>
        if result.1 = eof then .ok (none, result.2.2)
        else
          match takePages heap.abi heap.kva heap.head fuel size flags result.2.1.paddr
              result.2.2.mem with
          | none => .error .stuck
          | some (obj, mem) =>
            .ok (some obj, { result.2.2 with mem, log := .kmalloc obj :: result.2.2.log }) := by
  unfold kmalloc
  simp only [seek, if_true]

/-- What is left of `kmalloc` after it has asked for pages. -/
theorem kmalloc_ask_log {loops : Nat} {release : Release}
    (seek : search heap loops size sys.mem = some heap.head)
    (returned : kmalloc heap loops release size flags sys = .ok (obj, after)) :
    ∃ retcode request ready, allocPages release ⟨0, pagesSize heap.abi size, flags, 0⟩ sys =
      .ok (retcode, request, ready) ∧ ready.log <:+ after.log := by
  rw [kmalloc_ask seek] at returned
  obtain ⟨⟨retcode, request, ready⟩, asked, rest⟩ := bind_ok returned
  refine ⟨retcode, request, ready, asked, ?_⟩
  split at rest
  · cases rest
    exact suffix_rfl
  split at rest
  · cases rest
  · cases rest
    exact suffix_cons _ _

/-- Every call that returns is on the log, behind what was there before. -/
def Logs (release : Release) : Prop :=
  ∀ obj sys after, release obj sys = .ok after → (.kfree obj :: sys.log) <:+ after.log

section Logs

variable {heap : Heap} {loops : Nat} {release : Release} (logs : Logs release)

include logs

theorem releases_log (freed : List Nat)
    (returned : freed.foldlM (fun sys node => release node sys) sys = .ok after) :
    sys.log <:+ after.log ∧ ∀ node ∈ freed, Event.kfree node ∈ after.log := by
  induction freed generalizing sys with
  | nil =>
    cases returned
    exact ⟨suffix_rfl, nofun⟩
  | cons node freed inductionHypothesis =>
    rw [foldlM_cons] at returned
    obtain ⟨middle, first, rest⟩ := bind_ok returned
    have head := logs node sys middle first
    obtain ⟨grows, later⟩ := inductionHypothesis rest
    refine ⟨((suffix_cons _ _).trans head).trans grows, fun other member => ?_⟩
    rcases mem_cons.mp member with rfl | tail
    · exact (head.trans grows).subset mem_cons_self
    · exact later other tail

variable {pages : Pages}

theorem allocPages_log {result : Pages} {retcode : Int}
    (returned : allocPages release pages sys = .ok (retcode, result, after)) :
    sys.log <:+ after.log := by
  unfold allocPages at returned
  split at returned
  · cases returned
    exact suffix_rfl
  split at returned
  · cases returned
    exact suffix_rfl
  split at returned
  · cases returned
    exact suffix_rfl
  · obtain ⟨middle, released, last⟩ := bind_ok returned
    cases last
    exact (suffix_cons _ _).trans (releases_log logs _ released).1

theorem kmalloc_log (returned : kmalloc heap loops release size flags sys = .ok (obj, after)) :
    sys.log <:+ after.log := by
  by_cases seek : search heap loops size sys.mem = some heap.head
  · obtain ⟨retcode, request, ready, asked, grows⟩ := kmalloc_ask_log seek returned
    exact (allocPages_log logs asked).trans grows
  · unfold kmalloc at returned
    split at returned
    · cases returned
    · rename_i found isFound
      rw [if_neg fun isHead : found = heap.head => seek (isHead ▸ isFound)] at returned
      cases returned
      exact suffix_cons _ _

theorem mergeDown_log {this : PageBlock} {before behind : List PageBlock}
    (returned : mergeDown release this before behind sys = .ok (node, after)) :
    sys.log <:+ after.log := by
  unfold mergeDown at returned
  split at returned
  · cases returned
    exact suffix_rfl
  split at returned
  · obtain ⟨middle, released, last⟩ := bind_ok returned
    cases last
    have grows := logs _ _ _ released
    exact (suffix_cons _ _).trans grows
  · cases returned
    exact suffix_rfl

theorem mergeUp_log (returned : mergeUp release node sys = .ok after) : sys.log <:+ after.log := by
  unfold mergeUp at returned
  split at returned
  · cases returned
  · cases returned
    exact suffix_rfl
  split at returned
  · have grows := logs _ _ _ returned
    exact (suffix_cons _ _).trans grows
  · cases returned
    exact suffix_rfl

theorem freePages_log
    (returned : freePages heap loops release pages sys = .ok after) : sys.log <:+ after.log := by
  unfold freePages at returned
  split at returned
  · cases returned
    exact suffix_rfl
  split at returned
  · cases returned
    exact suffix_rfl
  obtain ⟨⟨node, allocated⟩, first, rest⟩ := bind_ok returned
  have grows := kmalloc_log logs first
  dsimp only at rest
  split at rest
  · cases rest
  obtain ⟨⟨this, lowered⟩, second, rest⟩ := bind_ok rest
  obtain ⟨raised, third, rest⟩ := bind_ok rest
  have later := mergeUp_log logs third
  cases rest
  exact (grows.trans (mergeDown_log logs second)).trans later

theorem giveBack_log {event : Event} {result : Option (Option Pages × Memory)}
    (returned : giveBack heap loops release event result sys = .ok after) :
    (event :: sys.log) <:+ after.log := by
  unfold giveBack at returned
  split at returned
  · cases returned
  · cases returned
    exact suffix_rfl
  · exact (suffix_cons _ _).trans (freePages_log logs returned)

end Logs

theorem kfree_logs (heap : Heap) (loops depth : Nat) : Logs (kfree heap loops depth) := by
  induction depth with
  | zero =>
    intro obj sys after returned
    cases returned
  | succ depth inductionHypothesis =>
    intro obj sys after returned
    exact giveBack_log inductionHypothesis returned

/-- The calls of one round of `page_allocator_move` that returns. -/
theorem moveLoop_calls {steps : Nat}
    (returned : moveLoop heap bootHead fuel (steps + 1) (some node) sys = .ok after) :
    ∃ new allocated blocks freed cursor,
      kmalloc heap fuel (release heap fuel) heap.abi.blockSize 0 sys = .ok (some new, allocated) ∧
      bootstrapFree heap bootHead fuel node (allocated.withBlocks blocks) = .ok freed ∧
      moveLoop heap bootHead fuel steps cursor freed = .ok after := by
  obtain ⟨⟨new, allocated⟩, first, rest⟩ := bind_ok returned
  dsimp only at rest
  split at rest
  · cases rest
  split at rest
  · cases rest
  obtain ⟨freed, second, rest⟩ := bind_ok rest
  split at rest
  · cases rest
  · exact ⟨_, allocated, _, freed, _, first, second, rest⟩

theorem moveLoop_log (steps : Nat) {cursor : Option Nat}
    (returned : moveLoop heap bootHead fuel steps cursor sys = .ok after) :
    sys.log <:+ after.log := by
  induction steps generalizing cursor sys with
  | zero =>
    cases cursor with
    | none =>
      cases returned
      exact suffix_rfl
    | some node => cases returned
  | succ steps inductionHypothesis =>
    cases cursor with
    | none =>
      cases returned
      exact suffix_rfl
    | some node =>
      have logs := kfree_logs heap fuel fuel
      obtain ⟨new, allocated, blocks, freed, cursor, first, second, rest⟩ := moveLoop_calls returned
      have later := (suffix_cons _ _).trans (giveBack_log logs second)
      exact ((kmalloc_log logs first).trans later).trans (inductionHypothesis rest)

/-! ### Calls on the heap alone -/

section Quiet

variable {heap : Heap} {fuel size flags obj : Nat} {release : Release} {sys : System}
  {after : Memory}

/-- A request that finds a block asks for no pages. -/
theorem kmalloc_fit (returned :
      FreeList.alloc heap.abi heap.kva heap.head fuel size flags none sys.mem =
      some ⟨some obj, after, none⟩) :
    kmalloc heap fuel release size flags sys =
      .ok (some obj, { sys with mem := after, log := .kmalloc obj :: sys.log }) := by
  unfold FreeList.alloc at returned
  unfold kmalloc
  rcases seek : search heap fuel size sys.mem with _ | found
  all_goals rw [show Ring.seek _ _ _ _ _ = _ from seek] at returned
  · cases returned
  · dsimp only at returned ⊢
    by_cases atHead : found = heap.head
    · simp only [if_pos atHead] at returned
      cases returned
    · simp only [if_neg atHead, Option.some.injEq, Allocated.mk.injEq] at returned
      obtain ⟨rfl, rfl, -⟩ := returned
      rw [if_neg atHead]

/-- A request that is cut off a block. -/
theorem allocPages_cut (request : Pages) {paddr : Nat} {blocks : List PageBlock} {freed : List Nat}
    (aligned : isAligned request.size pageSize = true) (enough : request.size ≤ sys.pages.freeSpace)
    (cut : PageAllocator.cutFirstFit request.size sys.pages.blocks = some (paddr, blocks, freed)) :
    allocPages release request sys = freed.foldlM (fun sys node => release node sys)
          { sys.withBlocks blocks with log := .grant ⟨paddr, request.size⟩ :: sys.log } >>=
        fun sys => .ok (0, { request with paddr }, { sys with
          pages := { sys.pages with
            freeSpace := wrapSub addrModulus sys.pages.freeSpace request.size } }) := by
  rw [allocPages, aligned, if_neg (by decide), if_neg (not_lt.mpr enough), cut]

/-- A request that finds no block and is granted pages takes them in. -/
theorem kmalloc_grant {request : Pages} {ready : System}
    (seek : search heap fuel size sys.mem = some heap.head)
    (asked : allocPages release ⟨0, pagesSize heap.abi size, flags, 0⟩ sys =
      .ok (0, request, ready))
    (taken : takePages heap.abi heap.kva heap.head fuel size flags request.paddr ready.mem =
      some (obj, after)) :
    kmalloc heap fuel release size flags sys =
      .ok (some obj, { ready with mem := after, log := .kmalloc obj :: ready.log }) := by
  rw [kmalloc_ask seek, asked]
  dsimp only [bind, Except.bind]
  rw [if_neg (by decide), taken]

theorem release_quiet (positive : 0 < fuel)
    (returned : FreeList.kfree heap.abi heap.head fuel obj sys.mem = some (none, after)) :
    MemorySystem.release heap fuel obj sys =
      .ok { sys with mem := after, log := .kfree obj :: sys.log } := by
  obtain ⟨depth, rfl⟩ := Nat.exists_eq_succ_of_ne_zero (Nat.pos_iff_ne_zero.mp positive)
  rw [MemorySystem.release, kfree, returned]
  rfl

end Quiet

end MemorySystem

namespace FreeList

variable {abi : Abi} {head : Nat} {usage : Usage} {free : List Region}

/-- The memory that a `kfree` leaves which gathers no whole page. -/
structure Freed (abi : Abi) (head : Nat) (usage : Usage) (object : Object) (free : List Region)
    (after : Memory) (left : List Region) : Prop where
  invariant : Invariant abi head ⟨after, usage.live.erase object, usage.owned⟩ left
  same : (usage.live.erase object).map (Object.block abi after) =
    (usage.live.erase object).map (Object.block abi usage.mem)
  frame : Set.EqOn after usage.mem (territory abi head usage.owned)ᶜ
  merged : ∃ front extent back, left = front ++ extent :: back ∧
    Merged abi head usage object free after front extent back

/-- `__free` when the region the object becomes part of has no whole page. -/
theorem Invariant.free_quiet (invariant : Invariant abi head usage free) {object : Object}
    (member : object ∈ usage.live)
    (pageless : ∀ extent, Extent abi head usage.mem (object.block abi usage.mem) extent →
      ¬ firstBorder extent < lastBorder extent) :
    ∃ after left, (∀ fuel > free.length,
        FreeList.free abi head fuel object.obj usage.mem = some (none, after)) ∧
      Freed abi head usage object free after left := by
  obtain ⟨after, front, extent, back, freed, merged⟩ := invariant.merge member (Nat.lt_succ_self _)
  obtain ⟨returned, kept⟩ := merged.keep invariant.holds (pageless extent merged.extent)
  refine ⟨after, _, fun fuel enough => ?_, kept, merged.same, merged.frame, front,
    extent, back, rfl, merged⟩
  exact free_mono enough (freed.trans (congrArg some returned))

end FreeList

end AIMv6
