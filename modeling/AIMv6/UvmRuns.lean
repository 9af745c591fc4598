/-
This file follows whole runs of `create_uvm` and `destroy_uvm` on an address space of the
32-bit MIPS build.

A run starts at `mm_new`. Its calls of `create_uvm` are on ranges that end below the top of the
address space and overlap no area, and are granted all they ask for; its calls of
`destroy_uvm` are on any range. Every call of such a run returns, and after each of them the
list of areas is as `mm.h` documents it, in step with the page table. `mm_destroy` at any
point of the run then gives back all pages and objects.

The top of the address space is left out for two reasons. `__find_vma_before` computes the end of
a range that reaches it as address 0 and puts the new areas in front of all others; and
`unmap_pages` computes the end of the last page as address 0, unmaps nothing, and the assertions of
its callers fail.
-/

import Mathlib.Data.List.TakeWhile
import AIMv6.PageTableMap
import AIMv6.UvmCreate

namespace AIMv6

open List Kernel World Nat

/-- A call on an address space, with what it reads at the list head and what the providers
answer. -/
inductive UvmCall where
  | create (sentinel : Sentinel) (answers : Nat → PageAnswers) (addr len flags : Nat)
  | destroy (sentinel : Sentinel) (addr len : Nat)

namespace UvmCall

def run : UvmCall → Mm → World → Except Trap (Int × Mm × World)
  | create sentinel answers addr len flags, mm, world =>
    createUvm .ilp32 sentinel answers mm addr len flags world
  | destroy sentinel addr len, mm, world => destroyUvm .ilp32 sentinel mm addr len world

/-- The calls of a run: a new range ends below the top of the address space, overlaps no area
and is granted fresh memory, and the memory at the list head does not look like a page of a
range that is destroyed. -/
def Proper (usable : Nat → Prop) (mm : Mm) (world : World) : UvmCall → Prop
  | create _ answers addr len _ =>
    addr + len < 2 ^ 32 ∧
    (∀ vma ∈ mm.areas, ∀ offset < len,
      ¬ (vma.start ≤ addr + offset ∧ addr + offset < vma.start + vma.size)) ∧
    (∀ page < len / pageSize, (answers page).vma ≠ none ∧ (answers page).pages ≠ none ∧
      (answers page).frame ≠ none ∧ (answers page).table ≠ none) ∧
    FreshAnswers usable answers (len / pageSize) world
  | destroy sentinel addr len =>
    addr < 2 ^ 32 ∧ len < 2 ^ 32 ∧ ∀ offset < len, sentinel.start ≠ (addr + offset) % 2 ^ 32

end UvmCall

/-- The state in which `mm_new` is called: what is in use is a set, nothing has been given back
that was not in use, and the page that is going to be the page directory is usable. -/
structure World.Clean (usable : Nat → Prop) (start : World) : Prop where
  frames : start.kernel.frames.inUse.Nodup
  objs : start.heap.inUse.Nodup
  framesStray : start.kernel.frames.stray = false
  heapStray : start.heap.stray = false
  answers : ∀ paddr, some paddr ∈ start.kernel.frames.answers → usable paddr

/-- An address space and the state outside, at some point of a run of calls that are allowed
where they are made. -/
inductive UvmReachable (allowed : Mm → World → UvmCall → Prop) (start : World) : Mm → World → Prop
  | new {mm : Mm} {world : World} (call : mmNew .ilp32 start = (some mm, world)) :
    UvmReachable allowed start mm world
  | step {mm next : Mm} {world after : World} {retcode : Int} (call : UvmCall)
    (earlier : UvmReachable allowed start mm world) (fits : allowed mm world call)
    (returned : call.run mm world = .ok (retcode, next, after)) :
    UvmReachable allowed start next after

/-! ### The list of areas -/

/-- The areas are in the order of their addresses, below the last page. -/
structure Ordered (areas : List Vma) : Prop where
  ascending : areas.Pairwise fun first second => first.start < second.start
  below : ∀ vma ∈ areas, vma.start + pageSize < 2 ^ 32

variable {areas : List Vma} {sentinel : Sentinel} {addr : Nat}

theorem Ordered.sublist {fewer : List Vma} (ordered : Ordered areas)
    (sublist : fewer.Sublist areas) : Ordered fewer :=
  ⟨ordered.ascending.sublist sublist, fun vma member => ordered.below vma (sublist.subset member)⟩

theorem findVmaBefore_some {abi : Abi} {below above : List Vma} {size : Nat}
    (found : findVmaBefore abi sentinel areas addr size = some (below, above)) :
    below = areas.takeWhile (fun vma => vma.start < (addr + size) % abi.modulus) ∧
      above = areas.dropWhile (fun vma => vma.start < (addr + size) % abi.modulus) := by
  unfold findVmaBefore at found
  split at found
  · rename_i empty
    subst empty
    cases found
    exact ⟨rfl, rfl⟩
  · simp only at found
    split at found
    · cases found
    · cases found
      exact ⟨rfl, rfl⟩

/-- What is behind the first area that starts at a bound or above is at the bound or above. -/
theorem le_of_mem_dropWhile {bound : Nat}
    (ascending : areas.Pairwise fun first second => first.start < second.start) {vma : Vma}
    (member : vma ∈ areas.dropWhile fun vma => vma.start < bound) : bound ≤ vma.start := by
  induction areas with
  | nil => cases member
  | cons head rest inductionHypothesis =>
    obtain ⟨later, sorted⟩ := pairwise_cons.mp ascending
    rw [dropWhile_cons] at member
    split at member
    · exact inductionHypothesis sorted member
    · rename_i stops
      have reached : bound ≤ head.start := by simpa using stops
      rcases mem_cons.mp member with rfl | behind
      · exact reached
      · exact reached.trans (later vma behind).le

variable {page : Nat}

theorem pageAt_of_room (room : addr + page * pageSize < 2 ^ 32) :
    pageAt addr page = addr + page * pageSize := mod_eq_of_lt room

theorem Ordered.insert {areas new : List Vma} {addr len : Nat} (ordered : Ordered areas)
    (fits : addr + len < 2 ^ 32)
    (clear : ∀ vma ∈ areas, vma.start + pageSize ≤ addr ∨ addr + len ≤ vma.start)
    (starts : new.map Vma.start = (List.range (len / pageSize)).map (pageAt addr)) :
    Ordered (areas.takeWhile (fun vma => vma.start < addr + len) ++ new ++
      areas.dropWhile fun vma => vma.start < addr + len) := by
  have located : ∀ page < len / pageSize, pageAt addr page = addr + page * pageSize ∧
        addr + page * pageSize + pageSize ≤ addr + len := by
    intro page bound
    have whole := div_mul_le_self len pageSize
    have next := mul_le_mul_right pageSize (succ_le_of_lt bound)
    rw [succ_mul] at next
    exact ⟨pageAt_of_room (by unfold pageSize at *; omega), by omega⟩
  have members : ∀ vma ∈ new, addr ≤ vma.start ∧ vma.start + pageSize ≤ addr + len := by
    intro vma member
    have known := mem_map_of_mem (f := Vma.start) member
    rw [starts] at known
    obtain ⟨page, bound, place⟩ := mem_map.mp known
    obtain ⟨exact, room⟩ := located page (mem_range.mp bound)
    omega
  have newAscending : new.Pairwise fun first second => first.start < second.start := by
    rw [← pairwise_map (f := Vma.start) (R := (· < ·)), starts, pairwise_map]
    refine pairwise_lt_range.imp_of_mem ?_
    intro first second firstMember secondMember order
    rw [(located first (mem_range.mp firstMember)).1,
      (located second (mem_range.mp secondMember)).1]
    unfold pageSize
    omega
  have front : ∀ vma ∈ areas.takeWhile (fun vma => vma.start < addr + len),
      vma.start + pageSize ≤ addr := by
    intro vma member
    have early : vma.start < addr + len := by simpa using mem_takeWhile_imp member
    exact (clear vma ((takeWhile_sublist _).subset member)).resolve_right (by omega)
  have back : ∀ vma ∈ areas.dropWhile (fun vma => vma.start < addr + len),
      addr + len ≤ vma.start := fun vma member => le_of_mem_dropWhile ordered.ascending member
  have size : pageSize = 4096 := rfl
  constructor
  · refine pairwise_append.mpr ⟨pairwise_append.mpr
      ⟨ordered.ascending.sublist (takeWhile_sublist _), newAscending, fun first firstMember second
        secondMember => ?_⟩, ordered.ascending.sublist (dropWhile_sublist _),
      fun first firstMember second secondMember => ?_⟩
    · have := front first firstMember
      have := members second secondMember
      omega
    · have := back second secondMember
      rcases mem_append.mp firstMember with old | added
      · have := front first old
        omega
      · have := members first added
        omega
  · intro vma member
    rcases mem_append.mp member with early | late
    · rcases mem_append.mp early with old | added
      · exact ordered.below vma ((takeWhile_sublist _).subset old)
      · have := members vma added
        omega
    · exact ordered.below vma ((dropWhile_sublist _).subset late)

/-! ### One call -/

/-- What holds between the calls of a run: the address space is consistent with what was in use
before `mm_new`, up to page 0, and the areas are in order. -/
def Steady (usable : Nat → Prop) (start : World) (mm : Mm) (world : World) : Prop :=
  (∃ outside, (¬ usable 0 → outside = start.kernel.frames.inUse) ∧
    Consistent usable outside start.heap.inUse mm world) ∧
  Ordered mm.areas

section Steps

variable {usable : Nat → Prop} {start world : World} {mm : Mm} {len : Nat}
  {answers : Nat → PageAnswers}

/-- No page of a range that overlaps no area is refused when all allocations succeed. -/
theorem not_refused {outsideFrames outsideObjs : List Nat}
    (consistent : Consistent usable outsideFrames outsideObjs mm world)
    (aligned : addr % pageSize = 0) (fits : addr + len < 2 ^ 32)
    (clear : ∀ vma ∈ mm.areas, vma.start + pageSize ≤ addr ∨ addr + len ≤ vma.start)
    (granted : (answers page).vma ≠ none ∧ (answers page).pages ≠ none ∧
      (answers page).frame ≠ none ∧ (answers page).table ≠ none)
    (bound : page < len / pageSize) : ¬ Refused mm.pgindex world.kernel answers addr page := by
  obtain ⟨vmaGranted, pagesGranted, frameGranted, tableGranted⟩ := granted
  rintro (none | none | none | mapped | ⟨none, -⟩)
  · exact vmaGranted none
  · exact pagesGranted none
  · exact frameGranted none
  · obtain ⟨whole, inside⟩ := pageAt_aligned aligned page
    obtain ⟨vma, member, place⟩ := consistent.covered _ inside whole mapped
    have next := mul_le_mul_right pageSize (succ_le_of_lt bound)
    rw [succ_mul] at next
    have total := div_mul_le_self len pageSize
    have size : pageSize = 4096 := rfl
    rw [pageAt_of_room (by omega)] at place
    rcases clear vma member with before | behind <;> omega
  · exact tableGranted none

/-- `create_uvm` on a range of a run returns and keeps what holds between the calls. -/
theorem Steady.create (steady : Steady usable start mm world) {flags : Nat}
    (proper : (UvmCall.create sentinel answers addr len flags).Proper usable mm world) :
    ∃ retcode next after,
      createUvm .ilp32 sentinel answers mm addr len flags world = .ok (retcode, next, after) ∧
      Steady usable start next after := by
  obtain ⟨fits, apart, granted, fresh⟩ := proper
  unfold createUvm
  split
  · exact ⟨_, _, _, rfl, steady⟩
  rename_i accepted
  have addrWhole : addr % pageSize = 0 := (isAligned_two_pow addr 12).mp (by simp_all [pageSize])
  rcases search : findVmaBefore .ilp32 sentinel mm.areas addr len with _ | ⟨below, above⟩
  · exact ⟨_, _, _, rfl, steady⟩
  obtain ⟨⟨outside, keeps, consistent⟩, ordered⟩ := steady
  have size : pageSize = 4096 := rfl
  have clear : ∀ vma ∈ mm.areas, vma.start + pageSize ≤ addr ∨ addr + len ≤ vma.start := by
    intro vma member
    have fine := consistent.fine vma member
    have aligned : vma.start % 4096 = 0 := fine.aligned
    have addrAligned : addr % 4096 = 0 := addrWhole
    have whole := fine.size
    by_contra overlap
    rw [not_or] at overlap
    rcases le_total vma.start addr with before | behind
    · exact apart vma member 0 (by omega) ⟨by omega, by omega⟩
    · exact apart vma member (vma.start - addr) (by omega) ⟨by omega, by omega⟩
  obtain ⟨new, after, ran, kept, starts⟩ :=
    @Consistent.createLoop_ok _ _ _
    mm addr flags (len / pageSize) answers world consistent addrWhole (by omega)
      (by rw [size]; omega) fresh
    fun page bound => not_refused consistent addrWhole fits clear (granted page bound) bound
  obtain ⟨rfl, rfl⟩ := findVmaBefore_some search
  have noWrap : (addr + len) % Abi.ilp32.modulus = addr + len := mod_eq_of_lt fits
  simp only [ran, noWrap, if_true]
  refine ⟨_, _, _, rfl, ⟨outside, keeps, ?_⟩, ordered.insert fits clear starts⟩
  refine kept.perm ?_
  rw [append_assoc]
  refine List.Perm.trans ?_ (perm_append_comm_assoc new _ _)
  rw [takeWhile_append_dropWhile]

/-- The check of `destroy_uvm` ends at the list head, and finds as many areas as pages. -/
theorem checkRange_returns {abi : Abi} {sentinel : Sentinel} {addr : Nat}
    (pages : Nat) {offset : Nat} {areas : List Vma}
    (sentry : ∀ page < pages, sentinel.start ≠ (addr + (offset + page * pageSize)) % abi.modulus) :
    checkRange abi sentinel addr pages offset areas = .ok false ∨
      (checkRange abi sentinel addr pages offset areas = .ok true ∧ pages ≤ areas.length) := by
  induction pages generalizing offset areas with
  | zero => exact Or.inr ⟨rfl, zero_le _⟩
  | succ pages inductionHypothesis =>
    rcases areas with _ | ⟨vma, rest⟩
    · refine Or.inl (if_pos ?_)
      have here := sentry 0 (succ_pos _)
      rwa [zero_mul, add_zero] at here
    · unfold checkRange
      split
      · exact Or.inl rfl
      · have later := @inductionHypothesis (offset + pageSize) rest fun page bound => by
          have there := sentry (page + 1) (succ_lt_succ bound)
          rwa [succ_mul, add_comm (page * pageSize), ← add_assoc offset] at there
        rw [length_cons]
        exact later.imp_right fun found => ⟨found.1, succ_le_succ found.2⟩

/-- `destroy_uvm` returns and keeps what holds between the calls. -/
theorem Steady.destroy (steady : Steady usable start mm world)
    (returnable : ∀ paddr, usable paddr → Returnable paddr)
    (proper : (UvmCall.destroy sentinel addr len).Proper usable mm world) :
    ∃ retcode next after,
      destroyUvm .ilp32 sentinel mm addr len world = .ok (retcode, next, after) ∧
      Steady usable start next after := by
  obtain ⟨-, -, sentry⟩ := proper
  unfold destroyUvm
  split
  · exact ⟨_, _, _, rfl, steady⟩
  split
  · exact ⟨_, _, _, rfl, steady⟩
  rename_i vmaStart rest found
  have checked := @checkRange_returns .ilp32 _ _ (len / pageSize - 1) pageSize rest
    fun page bound => sentry _ (by unfold pageSize at *; omega)
  rcases checked with missing | ⟨present, enough⟩
  · rw [missing]
    exact ⟨_, _, _, rfl, steady⟩
  rw [present]
  obtain ⟨⟨outside, keeps, consistent⟩, ordered⟩ := steady
  have whole : mm.areas.takeWhile (fun vma => vma.start ≠ addr) ++ vmaStart :: rest = mm.areas := by
    rw [← found, takeWhile_append_dropWhile]
  have split : Consistent usable outside start.heap.inUse
      { mm with areas := mm.areas.takeWhile (fun vma => vma.start ≠ addr) ++ vmaStart :: rest }
        world := by
    rw [whole]
    exact consistent
  obtain ⟨after, freed, left, leftKeeps, remaining⟩ :=
    split.unmapAndFree returnable (len / pageSize)
    (by rw [length_cons]; omega) fun vma member => ordered.below vma (by
      rw [← whole]
      exact mem_append_right _ (mem_of_mem_take member))
  simp only [freed]
  refine ⟨_, _, _, rfl, ⟨left, fun no => (leftKeeps no).trans (keeps no), remaining⟩, ?_⟩
  refine ordered.sublist ?_
  conv_rhs => rw [← whole]
  exact (drop_sublist _ _).append_left _

/-- Every call of a run returns and keeps what holds between the calls. -/
theorem Steady.call (steady : Steady usable start mm world)
    (returnable : ∀ paddr, usable paddr → Returnable paddr) {call : UvmCall}
    (proper : call.Proper usable mm world) :
    ∃ retcode next after, call.run mm world = .ok (retcode, next, after) ∧
      Steady usable start next after := by
  cases call with
  | create sentinel answers addr len flags => exact steady.create proper
  | destroy sentinel addr len => exact steady.destroy returnable proper

/-- What holds between the calls holds at every point of a run. -/
theorem UvmReachable.steady (clean : start.Clean usable)
    (returnable : ∀ paddr, usable paddr → Returnable paddr)
    (reached : UvmReachable (UvmCall.Proper usable) start mm world) :
    Steady usable start mm world := by
  induction reached with
  | new call =>
    obtain ⟨empty, consistent⟩ := mmNew_consistent clean.frames clean.objs clean.framesStray
      clean.heapStray clean.answers call
    exact ⟨⟨_, fun _ => rfl, consistent⟩, by rw [empty]; exact ⟨List.Pairwise.nil, nofun⟩⟩
  | step call earlier proper returned inductionHypothesis =>
    obtain ⟨retcode, next, after, ran, steady⟩ := inductionHypothesis.call returnable proper
    cases ran.symm.trans returned
    exact steady

end Steps

/-! ### The documented invariant -/

/-- The pages of the 256 MB of RAM that the 32-bit MIPS machines are supported with. -/
def InLowRam (paddr : Nat) : Prop := paddr < lowramTop

instance : DecidablePred InLowRam := fun paddr => inferInstanceAs (Decidable (paddr < lowramTop))

/-- What `mm.h` documents about the list of areas, and its agreement with the page table. -/
structure AreaInvariant (mm : Mm) (world : World) : Prop where
  ascending : mm.areas.Pairwise fun first second => first.start < second.start
  apart : mm.areas.Pairwise fun first second => first.start + first.size ≤ second.start
  onePage : ∀ vma ∈ mm.areas, vma.start % pageSize = 0 ∧ vma.size = pageSize
  ownPages : ∀ vma ∈ mm.areas, vma.pages.size = pageSize ∧ vma.pages.refs = 1 ∧
    vma.pagesObj ∈ world.heap.inUse ∧ vma.pages.paddr ∈ world.kernel.frames.inUse
  oneToOne : (mm.areas.map Vma.pagesObj).Nodup ∧ (mm.areas.map fun vma => vma.pages.paddr).Nodup
  mapped : ∀ vma ∈ mm.areas, ∀ desc, ∃ pte ≠ 0,
    lookup .ilp32 mm.pgindex desc world.kernel vma.start = some pte ∧
      ptePaddr .ilp32 pte = vma.pages.paddr
  covered : ∀ va < 2 ^ 32, ∀ desc, ∀ pte ≠ 0,
    lookup .ilp32 mm.pgindex desc world.kernel va = some pte →
      ∃! vma, vma ∈ mm.areas ∧ vma.start ≤ va ∧ va < vma.start + vma.size

theorem Consistent.belongs {usable : Nat → Prop} {world : World} {mm : Mm}
    {outsideFrames outsideObjs : List Nat}
    (consistent : Consistent usable outsideFrames outsideObjs mm world) {va : Nat}
    (inside : va < 2 ^ 32) (mapped : entry .ilp32 mm.pgindex world.kernel va ≠ 0) :
    ∃! vma, vma ∈ mm.areas ∧ vma.start ≤ va ∧ va < vma.start + vma.size := by
  have size : pageSize = 4096 := rfl
  have same : va / pageSize * pageSize / pageSize = va / pageSize :=
    Nat.mul_div_cancel _ (by decide)
  have whole : entry .ilp32 mm.pgindex world.kernel (va / pageSize * pageSize) ≠ 0 := by
    obtain ⟨samePath, samePtx⟩ := dirPath_congr same
    rw [entry, leaf, samePath, samePtx]
    exact mapped
  obtain ⟨vma, member, place⟩ := consistent.covered _
    (lt_of_le_of_lt (div_mul_le_self _ _) inside) (mul_mod_left _ _) whole
  have fine := consistent.fine vma member
  refine ⟨vma, ⟨member, ?_, ?_⟩, ?_⟩
  · rw [place]
    exact div_mul_le_self _ _
  · rw [place, fine.size, size]
    omega
  · rintro other ⟨otherMember, low, high⟩
    refine consistent.eq_of_start otherMember member ?_
    have otherFine := consistent.fine other otherMember
    have aligned := otherFine.aligned
    rw [otherFine.size] at high
    rw [place]
    unfold pageSize at *
    omega

theorem Consistent.areaInvariant {usable : Nat → Prop} {world : World} {mm : Mm}
    {outsideFrames outsideObjs : List Nat}
    (consistent : Consistent usable outsideFrames outsideObjs mm world)
    (ordered : Ordered mm.areas) : AreaInvariant mm world := by
  obtain ⟨root, leaves, -, inUse⟩ := consistent.frames
  have objsNodup := consistent.objs.nodup_iff.mp consistent.objsNodup
  have framesNodup := inUse.nodup_iff.mp consistent.framesNodup
  refine ⟨ordered.ascending, ?_, fun vma member => ?_, fun vma member => ?_, ⟨?_, ?_⟩,
    fun vma member desc => ?_, fun va inside desc pte nonzero found => ?_⟩
  · refine ordered.ascending.imp_of_mem ?_
    intro first second firstMember secondMember order
    have firstAligned := (consistent.fine first firstMember).aligned
    have secondAligned := (consistent.fine second secondMember).aligned
    rw [(consistent.fine first firstMember).size]
    unfold pageSize at *
    omega
  · exact ⟨(consistent.fine vma member).aligned, (consistent.fine vma member).size⟩
  · refine ⟨(consistent.fine vma member).pagesSize, (consistent.fine vma member).refs,
      consistent.objs.mem_iff.mpr ?_, inUse.mem_iff.mpr ?_⟩
    · simp only [mem_append, mem_map, mem_cons]
      exact Or.inl (Or.inr ⟨vma, member, rfl⟩)
    · simp only [mem_append, mem_map, mem_cons]
      exact Or.inl (Or.inl ⟨vma, member, rfl⟩)
  · exact ((nodup_append.mp (nodup_append.mp objsNodup).1).2).1
  · exact (nodup_append.mp (nodup_append.mp framesNodup).1).1
  · have present := consistent.mapped vma member
    rw [← lookup_getD _ _ desc] at present
    rcases found : lookup .ilp32 mm.pgindex desc world.kernel vma.start with _ | pte
    · rw [found] at present
      exact absurd present.symm vma.pte_ne_zero
    · rw [found, Option.getD_some] at present
      refine ⟨pte, present ▸ vma.pte_ne_zero, rfl, ?_⟩
      rw [present]
      exact ptePaddr_or (mappable_of_frame (consistent.fine vma member).frame)
  · refine consistent.belongs inside ?_
    rw [← lookup_getD _ _ desc, found, Option.getD_some]
    exact nonzero

/-- Every call of a run returns, and after each of them the list of areas is as documented. -/
theorem uvm_areaInvariant {start world : World} {mm : Mm} (clean : start.Clean InLowRam)
    (reached : UvmReachable (UvmCall.Proper InLowRam) start mm world) :
    AreaInvariant mm world ∧ ∀ call : UvmCall, call.Proper InLowRam mm world →
      ∃ retcode next after, call.run mm world = .ok (retcode, next, after) := by
  have returnable : ∀ paddr, InLowRam paddr → Returnable paddr := fun paddr => returnable_of_low
  have steady := reached.steady clean returnable
  refine ⟨?_, fun call proper => ?_⟩
  · obtain ⟨⟨outside, -, consistent⟩, ordered⟩ := steady
    exact consistent.areaInvariant ordered
  · obtain ⟨retcode, next, after, returned, -⟩ := steady.call returnable proper
    exact ⟨retcode, next, after, returned⟩

/-- The trap that a call ends in. -/
def trapOf {Result : Type} : Except Trap Result → Option Trap
  | .error trap => some trap
  | .ok _ => none

theorem error_of_trapOf {Result : Type} {run : Except Trap Result} {trap : Trap}
    (ends : trapOf run = some trap) : run = .error trap := by
  rcases run with other | result
  · rw [Option.some.inj ends]
  · cases ends

theorem exists_returned {run : Except Trap (Int × Mm × World)} {code : Int}
    (holds : Mm → World → Prop) [∀ mm world, Decidable (holds mm world)]
    (evaluates : run.toOption.any (fun result => result.1 = code ∧ holds result.2.1 result.2.2)) :
    ∃ mm world, run = .ok (code, mm, world) ∧ holds mm world := by
  rcases run with trap | ⟨retcode, mm, world⟩
  · cases evaluates
  · obtain ⟨rfl, held⟩ : retcode = code ∧ holds mm world := of_decide_eq_true evaluates
    exact ⟨mm, world, rfl, held⟩

/-- A state in which nothing is in use, about to grant an object and a page to `mm_new`. -/
def bootWorld : World where
  kernel := ⟨fun _ => 0, ⟨[], [some 0x1000], false, false⟩, 0⟩
  heap := ⟨[], [some 0x2000], false, false⟩

/-- Answers that grant the objects and pages for one page of a request, and for another one. -/
def onePageAnswers (_ : Nat) : PageAnswers := ⟨some 0x3000, some 0x4000, some 0x5000, some 0x6000⟩

def laterAnswers (_ : Nat) : PageAnswers := ⟨some 0x7000, some 0x8000, some 0x9000, some 0xa000⟩

theorem bootWorld_clean {usable : Nat → Prop} (fits : usable 0x1000) : bootWorld.Clean usable :=
  ⟨nodup_nil, nodup_nil, rfl, rfl, fun paddr member => by
    have granted : some paddr ∈ [some 0x1000] := member
    simp only [mem_singleton, Option.some.injEq] at granted
    exact granted ▸ fits⟩

/-- The address space `mm_new` makes in that state. -/
def bootMm : Mm := ⟨0x2000, 0x80001000, []⟩

/-- What is granted for one page is not in use. -/
abbrev OnePageNew (answers : PageAnswers) (world : World) : Prop :=
  (answers.objs.Nodup ∧ ∀ obj ∈ answers.objs, obj ≠ 0 ∧ obj ∉ world.heap.inUse) ∧
    answers.frames.Nodup ∧
      ∀ paddr ∈ answers.frames, isFrame .ilp32 paddr = true ∧ paddr ∉ world.kernel.frames.inUse

theorem fresh_of_onePageNew {usable : Nat → Prop} {world : World} {answers : Nat → PageAnswers}
    (new : OnePageNew (answers 0) world) (fits : ∀ paddr ∈ (answers 0).frames, usable paddr) :
    FreshAnswers usable answers 1 world := by
  intro page bound
  obtain rfl : page = 0 := by omega
  obtain ⟨⟨objsNodup, objsNew⟩, framesNodup, framesNew⟩ := new
  exact ⟨objsNodup, objsNew, framesNodup, fun paddr member =>
    ⟨(framesNew paddr member).1, fits paddr member, (framesNew paddr member).2⟩⟩

/-- The first page of an address space. -/
theorem onePage_proper {usable : Nat → Prop} {world : World}
    (new : OnePageNew (onePageAnswers 0) world)
    (fits : ∀ paddr ∈ [0x5000, 0x6000], usable paddr) :
    (UvmCall.create ⟨0, 0⟩ onePageAnswers 0x100000 0x1000 6).Proper usable bootMm world :=
  ⟨by decide, nofun, fun _ _ => ⟨nofun, nofun, nofun, nofun⟩, fresh_of_onePageNew new fits⟩

theorem twoAreas_reachable {usable : Nat → Prop}
    (fits : ∀ paddr ∈ [0x5000, 0x6000, 0x9000, 0xa000], usable paddr) :
    ∃ mm world, UvmReachable (UvmCall.Proper usable) bootWorld mm world ∧
      mm.areas.map Vma.start = [0x80000, 0x100000] := by
  obtain ⟨mm, world, returned, starts, new, again⟩ := @exists_returned
    (createUvm .ilp32 ⟨0, 0⟩ onePageAnswers bootMm 0x100000 0x1000 6 (mmNew .ilp32 bootWorld).2) 0
    (fun mm world => mm.areas.map Vma.start = [0x100000] ∧ OnePageNew (laterAnswers 0) world ∧
      (createUvm .ilp32 ⟨0, 0⟩ laterAnswers mm 0x80000 0x1000 6 world).toOption.any fun result =>
        result.1 = 0 ∧ result.2.1.areas.map Vma.start = [0x80000, 0x100000])
    _ (by decide +kernel)
  obtain ⟨next, after, added, both⟩ :=
    exists_returned (fun mm _ => mm.areas.map Vma.start = [0x80000, 0x100000]) again
  have first := UvmReachable.step _ (.new (show mmNew .ilp32 bootWorld = (some bootMm, _) from rfl))
    (onePage_proper (by decide) fun paddr member => fits paddr (mem_append_left [_, _] member))
    returned
  have proper : (UvmCall.create ⟨0, 0⟩ laterAnswers 0x80000 0x1000 6).Proper usable mm world := by
    refine ⟨by decide, fun vma member offset bound => ?_, fun _ _ => ⟨nofun, nofun, nofun, nofun⟩,
      fresh_of_onePageNew new fun paddr member => fits paddr (mem_append_right [_, _] member)⟩
    have start : vma.start = 0x100000 := mem_singleton.mp (starts ▸ mem_map_of_mem member)
    omega
  exact ⟨next, after, .step _ first proper added, both⟩

theorem uvm_areaInvariant_twoAreas : ∃ mm world,
    UvmReachable (UvmCall.Proper InLowRam) bootWorld mm world ∧
    mm.areas.map Vma.start = [0x80000, 0x100000] ∧ AreaInvariant mm world := by
  obtain ⟨mm, world, reached, starts⟩ := @twoAreas_reachable InLowRam (by decide)
  exact ⟨mm, world, reached, starts, (uvm_areaInvariant (bootWorld_clean (by decide)) reached).1⟩

/-- The last page of the address space ends at address 0 for `__find_vma_before`, so its area is put
in front of the one below it. -/
theorem uvm_last_page_first : ∃ mm world next after,
    createUvm .ilp32 ⟨0, 0⟩ onePageAnswers bootMm 0x100000 0x1000 6 (mmNew .ilp32 bootWorld).2 =
      .ok (0, mm, world) ∧ OnePageNew (laterAnswers 0) world ∧
    createUvm .ilp32 ⟨0, 0⟩ laterAnswers mm 0xfffff000 0x1000 6 world = .ok (0, next, after) ∧
    next.areas.map Vma.start = [0xfffff000, 0x100000] ∧ ¬ AreaInvariant next after := by
  obtain ⟨mm, world, returned, new, again⟩ := @exists_returned
    (createUvm .ilp32 ⟨0, 0⟩ onePageAnswers bootMm 0x100000 0x1000 6 (mmNew .ilp32 bootWorld).2) 0
    (fun mm world => OnePageNew (laterAnswers 0) world ∧
      (createUvm .ilp32 ⟨0, 0⟩ laterAnswers mm 0xfffff000 0x1000 6 world).toOption.any fun result =>
        result.1 = 0 ∧ result.2.1.areas.map Vma.start = [0xfffff000, 0x100000])
    _ (by decide +kernel)
  obtain ⟨next, after, added, starts⟩ :=
    exists_returned (fun mm _ => mm.areas.map Vma.start = [0xfffff000, 0x100000]) again
  refine ⟨mm, world, next, after, returned, new, added, starts, fun invariant => ?_⟩
  have sorted := pairwise_map.mpr invariant.ascending
  rw [starts] at sorted
  exact absurd sorted (by decide)

/-! ### Giving everything back -/

/-- An address space whose ranges end below the top of the address space does not leak: no
assertion fails along a run, and `mm_destroy` gives back all pages and objects once. -/
theorem uvm_no_leak {start world : World} {mm : Mm} (clean : start.Clean Invertible)
    (reached : UvmReachable (UvmCall.Proper Invertible) start mm world) :
    (∀ call : UvmCall, call.Proper Invertible mm world →
      ∃ retcode next after, call.run mm world = .ok (retcode, next, after)) ∧
    ∃ after, mmDestroy .ilp32 mm world = .ok after ∧
      after.kernel.frames.inUse.Perm start.kernel.frames.inUse ∧
      after.heap.inUse.Perm start.heap.inUse ∧
      after.kernel.frames.stray = false ∧ after.heap.stray = false := by
  have returnable : ∀ paddr, Invertible paddr → Returnable paddr := fun _ => Or.inr
  have steady := reached.steady clean returnable
  refine ⟨fun call proper => ?_, ?_⟩
  · obtain ⟨retcode, next, after, returned, -⟩ := steady.call returnable proper
    exact ⟨retcode, next, after, returned⟩
  · obtain ⟨⟨outside, keeps, consistent⟩, ordered⟩ := steady
    rw [keeps (show ¬ kva2pa .ilp32 (pa2kva .ilp32 0) = 0 by decide)] at consistent
    exact consistent.mmDestroy (fun _ => id) ordered.below

theorem uvm_no_leak_twoAreas : ∃ mm world after,
    UvmReachable (UvmCall.Proper Invertible) bootWorld mm world ∧
    mm.areas.map Vma.start = [0x80000, 0x100000] ∧ mmDestroy .ilp32 mm world = .ok after ∧
    after.kernel.frames.inUse = [] ∧ after.heap.inUse = [] := by
  obtain ⟨mm, world, reached, starts⟩ := @twoAreas_reachable Invertible (by decide)
  obtain ⟨-, after, destroyed, frames, objs, -⟩ := uvm_no_leak (bootWorld_clean (by decide)) reached
  exact ⟨mm, world, after, reached, starts, destroyed, perm_nil.mp frames, perm_nil.mp objs⟩

/-- Creating the last page of the address space and destroying the address space fails an
assertion of `__clean_vma`: the page is mapped, but `unmap_pages` unmaps nothing. -/
theorem mmDestroy_last_page :
    ∃ mm world, (mmNew .ilp32 bootWorld).1 = some bootMm ∧
      createUvm .ilp32 ⟨0, 0⟩ onePageAnswers bootMm 0xfffff000 0x1000 6 (mmNew .ilp32 bootWorld).2 =
        .ok (0, mm, world) ∧
      mmDestroy .ilp32 mm world = .error .panic := by
  obtain ⟨mm, world, created, fails⟩ : ∃ mm world,
      createUvm .ilp32 ⟨0, 0⟩ onePageAnswers bootMm 0xfffff000 0x1000 6 (mmNew .ilp32 bootWorld).2 =
        .ok (0, mm, world) ∧ trapOf (mmDestroy .ilp32 mm world) = some .panic :=
    exists_returned (fun mm world => trapOf (mmDestroy .ilp32 mm world) = some .panic)
      (by decide +kernel)
  exact ⟨mm, world, rfl, created, error_of_trapOf fails⟩

end AIMv6
