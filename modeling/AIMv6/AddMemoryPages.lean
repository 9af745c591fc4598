/-
This file models `add_memory_pages` of the i386 port, which gives the RAM above one megabyte to the
page allocator, and says for which memory maps it gives away what it should.

Each entry of the map is rounded inwards to whole pages and given away as one block, whose size is
held in 32 bits. An entry without a whole page that lies across no page border ends a page below its
start, and the size wraps to all but one page of four gigabytes; an entry of four gigabytes or more
loses a multiple of four gigabytes. Neither mistake can make up for the other: what the first kind
adds and the second kind loses differs by a page for each of them, and there are too few entries for
the pages to add up.
-/

import AIMv6.PageCount
import AIMv6.ProbeMemory

namespace AIMv6

open List hiding Disjoint Vector
open Nat

/-! ### The code -/

/-- `HIGHMEM_BASE`. -/
def highmemBase : Nat := 0x100000

/-- The entry is one that is given away. -/
def E820Entry.IsHighRam (entry : E820Entry) : Prop := highmemBase ≤ entry.start ∧ entry.IsRam

instance (entry : E820Entry) : Decidable entry.IsHighRam := inferInstanceAs (Decidable (_ ∧ _))

/-- The block that `__init_free_pages` makes of the memory from `start` to `finish`. -/
def initialBlock (start finish : Nat) : Region :=
  ⟨alignAbove 64 start pageSize,
    wrapSub addrModulus (alignBelow 64 finish pageSize) (alignAbove 64 start pageSize) % 2 ^ 32⟩

namespace PageAllocator

/-- `__init_free_pages(start, end)`, where `node` is the memory `free_pages` gets for its block. -/
def initFreePages (allocator : PageAllocator) (start finish node : Nat) : Option PageAllocator :=
  (allocator.free ⟨(initialBlock start finish).base, (initialBlock start finish).size, 0, 0⟩
    (some node)).map Prod.fst

/-- The loop of `add_memory_pages`, where `nodes` are the answers of `kmalloc`. -/
def addMemoryLoop (kernEnd : Nat) (nodes : Nat → Nat) :
    List E820Entry → Nat → PageAllocator → Option PageAllocator
  | [], _, allocator => some allocator
  | entry :: rest, i, allocator =>
    if entry.IsHighRam then
      let finish := (entry.start + entry.size) % addrModulus
      match if entry.start ≤ kernEnd ∧ kernEnd < finish then
          allocator.initFreePages kernEnd finish (nodes i)
        else allocator.initFreePages entry.start finish (nodes i) with
      | none => none
      | some allocator => addMemoryLoop kernEnd nodes rest (i + 1) allocator
    else addMemoryLoop kernEnd nodes rest (i + 1) allocator

/-- `add_memory_pages`. -/
def addMemoryPages (map : E820Map) (kernEnd : Nat) (nodes : Nat → Nat) (allocator : PageAllocator) :
    Option PageAllocator :=
  addMemoryLoop kernEnd nodes map.entries 0 allocator

end PageAllocator

/-! ### What an entry gives and what it should give -/

namespace E820Entry

/-- The first byte of an entry that the kernel does not occupy. -/
def firstUsable (kernEnd : Nat) (entry : E820Entry) : Nat :=
  if entry.start ≤ kernEnd ∧ kernEnd < entry.start + entry.size then kernEnd else entry.start

/-- The block that is given away for an entry. -/
def given (kernEnd : Nat) (entry : E820Entry) : Region :=
  initialBlock (entry.firstUsable kernEnd) (entry.start + entry.size)

/-- The start of the first whole page. -/
def firstPage (kernEnd : Nat) (entry : E820Entry) : Nat :=
  (entry.firstUsable kernEnd + (pageSize - 1)) / pageSize * pageSize

/-- The end of the last whole page. -/
def lastPage (entry : E820Entry) : Nat := (entry.start + entry.size) / pageSize * pageSize

/-- The whole pages of an entry. -/
def usable (kernEnd : Nat) (entry : E820Entry) : Region :=
  ⟨entry.firstPage kernEnd, entry.lastPage - entry.firstPage kernEnd⟩

/-- The whole pages of an entry do not end before they start and are less than four gigabytes. -/
def Fits (kernEnd : Nat) (entry : E820Entry) : Prop :=
  entry.firstPage kernEnd ≤ entry.lastPage ∧ entry.lastPage - entry.firstPage kernEnd < 2 ^ 32

instance (kernEnd : Nat) (entry : E820Entry) : Decidable (entry.Fits kernEnd) :=
  inferInstanceAs (Decidable (_ ∧ _))

/-- One for an entry whose whole pages would end before they start. -/
def inverted (kernEnd : Nat) (entry : E820Entry) : Nat :=
  if entry.lastPage < entry.firstPage kernEnd then 1 else 0

section Rounding

variable {kernEnd : Nat} {entry : E820Entry}

theorem firstUsable_bounds (kernEnd : Nat) (entry : E820Entry) :
    entry.start ≤ entry.firstUsable kernEnd ∧
      entry.firstUsable kernEnd ≤ entry.start + entry.size := by
  unfold firstUsable
  split <;> omega

theorem given_base (small : entry.start + entry.size < 2 ^ 64) :
    (entry.given kernEnd).base = entry.firstPage kernEnd % 2 ^ 64 := by
  have bounds := firstUsable_bounds kernEnd entry
  exact alignAbove_two_pow 64 _ 12 (by omega) (by decide)

theorem given_size (small : entry.start + entry.size < 2 ^ 64) :
    (entry.given kernEnd).size =
      (entry.lastPage + (2 ^ 64 - entry.firstPage kernEnd % 2 ^ 64)) % 2 ^ 64 % 2 ^ 32 := by
  have low : alignBelow 64 (entry.start + entry.size) pageSize = entry.lastPage :=
    alignBelow_two_pow 64 _ 12 small (by decide)
  have high : alignAbove 64 (entry.firstUsable kernEnd) pageSize =
      entry.firstPage kernEnd % 2 ^ 64 :=
    given_base small
  rw [given, initialBlock, low, high]
  rfl

/-- The whole pages of an entry are inside it or end a page before they start. -/
theorem pages_bounds (kernEnd : Nat) (entry : E820Entry) :
    entry.firstPage kernEnd ≤ entry.lastPage + pageSize ∧ entry.firstPage kernEnd % pageSize = 0 ∧
      entry.lastPage % pageSize = 0 ∧ entry.lastPage ≤ entry.start + entry.size := by
  have bounds := firstUsable_bounds kernEnd entry
  unfold firstPage lastPage pageSize
  omega

/-- What is given away too much and too little. -/
theorem given_balance (small : entry.start + entry.size < 2 ^ 64) :
    (entry.given kernEnd).size + 2 ^ 32 * ((entry.usable kernEnd).size / 2 ^ 32) =
      (entry.usable kernEnd).size + (2 ^ 32 - pageSize) * entry.inverted kernEnd := by
  obtain ⟨near, firstAligned, lastAligned, inside⟩ := pages_bounds kernEnd entry
  have size : (entry.usable kernEnd).size = entry.lastPage - entry.firstPage kernEnd := rfl
  rw [given_size small, size, inverted]
  unfold pageSize at *
  split <;> omega

theorem given_of_fits (small : entry.start + entry.size < 2 ^ 64) (fits : entry.Fits kernEnd) :
    entry.given kernEnd = entry.usable kernEnd := by
  obtain ⟨near, firstAligned, lastAligned, inside⟩ := pages_bounds kernEnd entry
  obtain ⟨order, short⟩ := fits
  have base : (entry.given kernEnd).base = entry.firstPage kernEnd := by
    rw [given_base small]
    exact mod_eq_of_lt (by omega)
  have size : (entry.given kernEnd).size = entry.lastPage - entry.firstPage kernEnd := by
    rw [given_size small]
    omega
  rw [usable, ← size, ← base]

theorem fits_iff (kernEnd : Nat) (entry : E820Entry) :
    entry.Fits kernEnd ↔ entry.inverted kernEnd = 0 ∧ (entry.usable kernEnd).size / 2 ^ 32 = 0 := by
  have size : (entry.usable kernEnd).size = entry.lastPage - entry.firstPage kernEnd := rfl
  rw [Fits, inverted, size]
  split <;> omega

theorem given_whole (small : entry.start + entry.size < 2 ^ 64) : (entry.given kernEnd).Whole := by
  obtain ⟨-, firstAligned, lastAligned, -⟩ := pages_bounds kernEnd entry
  rw [Region.Whole, given_base small, given_size small]
  unfold pageSize at *
  omega

theorem usable_whole (kernEnd : Nat) (entry : E820Entry) : (entry.usable kernEnd).Whole := by
  obtain ⟨-, firstAligned, lastAligned, -⟩ := pages_bounds kernEnd entry
  have size : (entry.usable kernEnd).size = entry.lastPage - entry.firstPage kernEnd := rfl
  refine ⟨firstAligned, ?_⟩
  rw [size]
  unfold pageSize at *
  omega

end Rounding

end E820Entry

/-! ### The loop -/

variable {allocator : PageAllocator}

namespace PageAllocator

open E820Entry

variable {kernEnd : Nat}

/-- One call gives away the block of its entry. -/
theorem initFreePages_added {start finish : Nat} (node : Nat)
    (whole : (initialBlock start finish).Whole)
    (inside : (initialBlock start finish).base < addrModulus)
    (others : ∀ block ∈ allocator.blocks, WholeBlock block)
    (small : (initialBlock start finish).size +
      totalSize (regions allocator.blocks) < addrModulus) :
    ∃ after, allocator.initFreePages start finish node = some after ∧
      Added ⟨(initialBlock start finish).base, (initialBlock start finish).size, 0, node⟩
        allocator.blocks after.blocks := by
  have paddr : isAligned (initialBlock start finish).base pageSize = true :=
    (isAligned_two_pow _ 12).mpr whole.1
  have size : isAligned (initialBlock start finish).size pageSize = true :=
    (isAligned_two_pow _ 12).mpr whole.2
  unfold initFreePages free
  rw [paddr, size]
  exact ⟨_, rfl, link_added ⟨whole, inside⟩ others small⟩

/-- The list after the loop has the pages of the blocks that are given away. -/
theorem addMemoryLoop_added (nodes : Nat → Nat) (entries : List E820Entry) (i : Nat)
    {allocator : PageAllocator}
    (fits : ∀ entry ∈ entries, entry.IsHighRam → entry.start + entry.size < 2 ^ 64)
    (others : ∀ block ∈ allocator.blocks, WholeBlock block)
    (small : totalSize (regions allocator.blocks) + entries.length * 2 ^ 32 < addrModulus) :
    ∃ after, addMemoryLoop kernEnd nodes entries i allocator = some after ∧
      (∀ block ∈ after.blocks, WholeBlock block) ∧
      ∀ page, listed (regions after.blocks) page = listed (regions allocator.blocks) page +
        listed ((entries.filter fun entry => entry.IsHighRam).map (E820Entry.given kernEnd))
          page := by
  induction entries generalizing i allocator with
  | nil => exact ⟨allocator, rfl, others, fun page => rfl⟩
  | cons entry rest inductionHypothesis =>
    have fitsRest := fun other member => fits other (mem_cons_of_mem _ member)
    rw [length_cons] at small
    rw [addMemoryLoop]
    by_cases high : entry.IsHighRam
    · have here := fits entry mem_cons_self high
      have finish : (entry.start + entry.size) % addrModulus = entry.start + entry.size :=
        mod_eq_of_lt here
      have start : (if entry.start ≤ kernEnd ∧ kernEnd < entry.start + entry.size then
            allocator.initFreePages kernEnd (entry.start + entry.size) (nodes i)
          else allocator.initFreePages entry.start (entry.start + entry.size) (nodes i)) =
          allocator.initFreePages (entry.firstUsable kernEnd) (entry.start + entry.size)
            (nodes i) := by
        unfold firstUsable
        split <;> rfl
      have size : (entry.given kernEnd).size < 2 ^ 32 := mod_lt _ (by decide)
      have base : (entry.given kernEnd).base < addrModulus := by
        rw [given_base here]
        exact mod_lt _ (by decide)
      obtain ⟨middle, done, added⟩ := initFreePages_added (nodes i) (given_whole here) base others
        (show (entry.given kernEnd).size + _ < addrModulus by omega)
      have total : totalSize (regions middle.blocks) =
          totalSize (regions allocator.blocks) + (entry.given kernEnd).size := added.total
      have room : totalSize (regions middle.blocks) + rest.length * 2 ^ 32 < addrModulus := by
        rw [total]
        generalize (entry.given kernEnd).size = given at size
        omega
      obtain ⟨after, ends, whole, counts⟩ :=
        @inductionHypothesis (i + 1) _ fitsRest added.whole room
      refine ⟨after, ?_, whole, fun page => ?_⟩
      · rw [if_pos high]
        dsimp only
        rw [finish, start, done]
        exact ends
      · have one : listed (regions middle.blocks) page = listed (regions allocator.blocks) page +
            if (entry.given kernEnd).HoldsPage page then 1 else 0 := added.counts page
        rw [counts page, one, filter_cons_of_pos (by simpa using high), map_cons, listed_cons]
        omega
    · have room := lt_of_le_of_lt (Nat.add_le_add_left (Nat.mul_le_mul_right _ (le_succ _)) _) small
      obtain ⟨after, ends, whole, counts⟩ := inductionHypothesis (i + 1) fitsRest others room
      refine ⟨after, by rw [if_neg high]; exact ends, whole, fun page => ?_⟩
      rw [counts page, filter_cons_of_neg (by simpa using high)]

end PageAllocator

/-! ### What the maps give away -/

/-- The entries that are given away. -/
def E820Map.highRam (map : E820Map) : List E820Entry := map.entries.filter fun entry =>
    entry.IsHighRam

/-- A page that lies in one of the entries to give away, and above the kernel if the kernel ends in
this entry. -/
def UsablePage (map : E820Map) (kernEnd page : Nat) : Prop :=
  ∃ entry ∈ map.highRam, entry.start ≤ pageSize * page ∧
    pageSize * (page + 1) ≤ entry.start + entry.size ∧
    (entry.start ≤ kernEnd ∧ kernEnd < entry.start + entry.size → kernEnd ≤ pageSize * page)

/-- Every page on the list is usable, and every usable page is on the list once. -/
structure DonatesUsable (map : E820Map) (kernEnd : Nat) (allocator : PageAllocator) : Prop where
  onlyUsable : ∀ page, 0 < listed (PageAllocator.regions allocator.blocks) page →
    UsablePage map kernEnd page
  once : ∀ page, UsablePage map kernEnd page →
    listed (PageAllocator.regions allocator.blocks) page = 1

namespace E820Map

open E820Entry

variable {map : E820Map} {kernEnd : Nat}

theorem usable_holdsPage_iff (entry : E820Entry) (page : Nat) :
    (entry.usable kernEnd).HoldsPage page ↔
      entry.start ≤ pageSize * page ∧ pageSize * (page + 1) ≤ entry.start + entry.size ∧
        (entry.start ≤ kernEnd ∧ kernEnd < entry.start + entry.size →
          kernEnd ≤ pageSize * page) := by
  unfold Region.HoldsPage Region.limit usable firstPage lastPage firstUsable pageSize
  dsimp only
  split <;> omega

theorem highRam_pairwise (disjoint : map.ram.Pairwise fun first second =>
      Disjoint first.region.bytes second.region.bytes) :
    map.highRam.Pairwise fun first second => Disjoint first.region.bytes second.region.bytes := by
  have part : map.highRam = map.ram.filter fun entry => highmemBase ≤ entry.start := by
    rw [highRam, ram, filter_filter]
    refine filter_congr fun entry _ => ?_
    exact Bool.decide_and _ _
  rw [part]
  exact disjoint.filter _

variable {entries : List E820Entry}

/-- A page lies in one of some disjoint entries at most. -/
theorem listed_usable_le_one (disjoint : entries.Pairwise fun first second =>
      Disjoint first.region.bytes second.region.bytes)
    (page : Nat) : listed (entries.map (E820Entry.usable kernEnd)) page ≤ 1 := by
  induction entries with
  | nil => exact zero_le _
  | cons entry rest inductionHypothesis =>
    rw [pairwise_cons] at disjoint
    rw [map_cons, listed_cons]
    by_cases holds : (entry.usable kernEnd).HoldsPage page
    · have none : listed (rest.map (E820Entry.usable kernEnd)) page = 0 := by
        by_contra some
        obtain ⟨region, member, also⟩ := (listed_pos_iff _ _).mp (pos_of_ne_zero some)
        obtain ⟨other, inRest, rfl⟩ := mem_map.mp member
        have first := (usable_holdsPage_iff entry page).mp holds
        have second := (usable_holdsPage_iff other page).mp also
        refine Set.disjoint_left.mp (disjoint.1 other inRest) (Region.mem_bytes.mpr ⟨first.1, ?_⟩)
          (Region.mem_bytes.mpr ⟨second.1, ?_⟩)
        · exact lt_of_lt_of_le (mul_lt_mul_of_pos_left (lt_succ_self page) (by decide)) first.2.1
        · exact lt_of_lt_of_le (mul_lt_mul_of_pos_left (lt_succ_self page) (by decide)) second.2.1
      rw [none, if_pos holds]
    · rw [if_neg holds]
      exact inductionHypothesis disjoint.2

theorem usablePage_iff (page : Nat) :
    UsablePage map kernEnd page ↔ 0 < listed (map.highRam.map (E820Entry.usable kernEnd)) page := by
  rw [listed_pos_iff]
  constructor
  · rintro ⟨entry, member, inside⟩
    exact ⟨_, mem_map_of_mem member, (usable_holdsPage_iff entry page).mpr inside⟩
  · rintro ⟨region, member, holds⟩
    obtain ⟨entry, inMap, rfl⟩ := mem_map.mp member
    exact ⟨entry, inMap, (usable_holdsPage_iff entry page).mp holds⟩

/-- The list is right when it has the pages of the whole pages of the entries. -/
theorem donatesUsable_iff (disjoint : map.ram.Pairwise fun first second =>
      Disjoint first.region.bytes second.region.bytes) :
    DonatesUsable map kernEnd allocator ↔
      ∀ page, listed (PageAllocator.regions allocator.blocks) page =
      listed (map.highRam.map (E820Entry.usable kernEnd)) page := by
  have atMost : ∀ page, listed (map.highRam.map (E820Entry.usable kernEnd)) page ≤ 1 :=
    fun page => listed_usable_le_one (highRam_pairwise disjoint) page
  constructor
  · rintro ⟨onlyUsable, once⟩ page
    have bound := atMost page
    by_cases usable : UsablePage map kernEnd page
    · have some := (usablePage_iff page).mp usable
      rw [once page usable]
      omega
    · have none := mt (usablePage_iff page).mpr usable
      have missing := mt (onlyUsable page) usable
      omega
  · intro same
    refine ⟨fun page found => (usablePage_iff page).mpr (same page ▸ found), fun page usable => ?_⟩
    have bound := atMost page
    have some := (usablePage_iff page).mp usable
    rw [same page]
    omega

/-- What some entries give away too much and too little. -/
theorem sum_balance {entries : List E820Entry}
    (small : ∀ entry ∈ entries, entry.start + entry.size < 2 ^ 64) :
    totalSize (entries.map (E820Entry.given kernEnd)) +
        2 ^ 32 * (entries.map fun entry => (entry.usable kernEnd).size / 2 ^ 32).sum =
      totalSize (entries.map (E820Entry.usable kernEnd)) +
        (2 ^ 32 - pageSize) * (entries.map (E820Entry.inverted kernEnd)).sum := by
  induction entries with
  | nil =>
    rw [map_nil, map_nil, map_nil, map_nil, sum_nil, mul_zero, mul_zero]
  | cons entry rest inductionHypothesis =>
    have first := @given_balance kernEnd _ (small entry mem_cons_self)
    have others := inductionHypothesis fun other member =>
      small other (mem_cons_of_mem _ member)
    simp only [map_cons, totalSize_cons, sum_cons, mul_add]
    rw [add_add_add_comm, first, others, add_add_add_comm]

theorem sum_inverted_le (kernEnd : Nat) (entries : List E820Entry) :
    (entries.map (E820Entry.inverted kernEnd)).sum ≤ entries.length := by
  have each : ∀ count ∈ entries.map (E820Entry.inverted kernEnd), count ≤ 1 := by
    intro count member
    obtain ⟨entry, -, rfl⟩ := mem_map.mp member
    unfold inverted
    split <;> decide
  have bound := sum_le_card_nsmul _ 1 each
  rwa [length_map, smul_eq_mul, mul_one] at bound

/-- The right total is given away only if every entry gives what it should. -/
theorem fits_of_total (few : entries.length ≤ e820Max)
    (small : ∀ entry ∈ entries, entry.start + entry.size < 2 ^ 64)
    (same : totalSize (entries.map (E820Entry.given kernEnd)) =
      totalSize (entries.map (E820Entry.usable kernEnd))) :
    ∀ entry ∈ entries, entry.Fits kernEnd := by
  have balance := @sum_balance kernEnd _ small
  have bound := (sum_inverted_le kernEnd entries).trans few
  have zero : (entries.map (E820Entry.inverted kernEnd)).sum = 0 ∧
      (entries.map fun entry => (entry.usable kernEnd).size / 2 ^ 32).sum = 0 := by
    generalize (entries.map (E820Entry.inverted kernEnd)).sum = inverted at *
    generalize (entries.map fun entry => (entry.usable kernEnd).size / 2 ^ 32).sum = lost at *
    unfold pageSize at balance
    unfold e820Max at bound
    omega
  intro entry member
  refine (fits_iff kernEnd entry).mpr ⟨?_, ?_⟩
  · exact sum_eq_zero_iff.mp zero.1 _ (mem_map_of_mem member)
  · exact sum_eq_zero_iff.mp zero.2 _
      (mem_map_of_mem (f := fun entry => (entry.usable kernEnd).size / 2 ^ 32) member)

/-- After `add_memory_pages` the page allocator has every usable page once and no other page exactly
when every entry fits. -/
theorem donates_usable_iff (map : E820Map) (kernEnd : Nat) (nodes : Nat → Nat)
    (disjoint : map.ram.Pairwise fun first second =>
      Disjoint first.region.bytes second.region.bytes)
    (small : ∀ entry ∈ map.ram, entry.start + entry.size < 2 ^ 64) :
    (∃ after, PageAllocator.addMemoryPages map kernEnd nodes PageAllocator.init = some after ∧
      DonatesUsable map kernEnd after) ↔ ∀ entry ∈ map.highRam, entry.Fits kernEnd := by
  have known : ∀ entry ∈ map.highRam, entry.start + entry.size < 2 ^ 64 := by
    intro entry member
    obtain ⟨inMap, high⟩ := mem_filter.mp member
    exact small entry (mem_filter.mpr ⟨inMap, decide_eq_true (of_decide_eq_true high).2⟩)
  have few : map.highRam.length ≤ e820Max := (length_filter_le _ _).trans map.length_le
  have room : totalSize (PageAllocator.regions PageAllocator.init.blocks) +
      map.entries.length * 2 ^ 32 < addrModulus := by
    have entries := map.length_le
    rw [PageAllocator.init, PageAllocator.regions_nil, totalSize_nil]
    unfold e820Max at entries
    unfold addrModulus
    omega
  obtain ⟨after, done, -, counts⟩ := PageAllocator.addMemoryLoop_added nodes map.entries 0
    (fun entry member high => known entry (mem_filter.mpr ⟨member, decide_eq_true high⟩))
    (fun block none => absurd none not_mem_nil) room
  have pages : ∀ page, listed (PageAllocator.regions after.blocks) page =
      listed (map.highRam.map (E820Entry.given kernEnd)) page := by
    intro page
    rw [counts page, PageAllocator.init, PageAllocator.regions_nil, listed_nil, Nat.zero_add]
    rfl
  constructor
  · rintro ⟨other, also, donates⟩
    obtain rfl : after = other := Option.some.inj (done.symm.trans also)
    have same := (donatesUsable_iff disjoint).mp donates
    refine fits_of_total few known (totalSize_of_listed ?_ ?_ fun page =>
      (pages page).symm.trans (same page))
    · intro region member
      obtain ⟨entry, inMap, rfl⟩ := mem_map.mp member
      exact given_whole (known entry inMap)
    · intro region member
      obtain ⟨entry, -, rfl⟩ := mem_map.mp member
      exact usable_whole kernEnd entry
  · intro fits
    refine ⟨after, done, (donatesUsable_iff disjoint).mpr fun page => ?_⟩
    rw [pages page, map_congr_left fun entry member =>
      given_of_fits (known entry member) (fits entry member)]

theorem donates_usable_ordinary :
    ∃ after, PageAllocator.addMemoryPages EarlyMappings.ordinaryMap 0x200000 (fun i => i)
        PageAllocator.init = some after ∧
      DonatesUsable EarlyMappings.ordinaryMap 0x200000 after := by
  have ram : EarlyMappings.ordinaryMap.ram = [⟨0, 0x9f000, 1⟩, ⟨0x100000, 0x7f00000, 1⟩] := by
    decide +kernel
  have high : EarlyMappings.ordinaryMap.highRam = [⟨0x100000, 0x7f00000, 1⟩] := by decide +kernel
  refine (donates_usable_iff EarlyMappings.ordinaryMap 0x200000 (fun i => i) ?_ ?_).mpr ?_
  · rw [ram]
    refine List.pairwise_pair.mpr (Region.disjoint_of_limit_le (by decide))
  · rw [ram]
    decide
  · rw [high]
    intro entry member
    rw [mem_singleton.mp member]
    decide +kernel

/-- A map with one entry that lies inside a page. -/
def insidePageMap : E820Map where
  entries := [⟨0x100100, 0x100, 1⟩]
  length_le := by decide
  words := by decide

/-- An entry without a whole page gives away almost four gigabytes. -/
theorem donates_beyond_entry :
    insidePageMap.ram.Pairwise (fun first second =>
      Disjoint first.region.bytes second.region.bytes) ∧
      (∀ entry ∈ insidePageMap.ram, entry.start + entry.size < 2 ^ 64) ∧
      ¬ ∃ after, PageAllocator.addMemoryPages insidePageMap 0x200000 (fun i => i)
          PageAllocator.init = some after ∧ DonatesUsable insidePageMap 0x200000 after := by
  have ram : insidePageMap.ram = [⟨0x100100, 0x100, 1⟩] := by decide +kernel
  have high : insidePageMap.highRam = [⟨0x100100, 0x100, 1⟩] := by decide +kernel
  refine ⟨by rw [ram]; exact List.pairwise_singleton _ _, by rw [ram]; decide, ?_⟩
  rintro ⟨after, done, onlyUsable, -⟩
  have given : (PageAllocator.addMemoryPages insidePageMap 0x200000 (fun i => i)
      PageAllocator.init).map
      (fun after => listed (PageAllocator.regions after.blocks) 0x101) = some 1 := by
    decide +kernel
  rw [done, Option.map_some] at given
  obtain ⟨entry, member, -, inside, -⟩ := onlyUsable 0x101 (by rw [Option.some.inj given]; decide)
  rw [high, mem_singleton] at member
  rw [member] at inside
  revert inside
  decide

end E820Map

end AIMv6
