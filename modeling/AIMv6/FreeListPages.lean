/-
This file follows pages between the free-list allocator and the page allocator, where `pa2kva`
adds a fixed offset.

`__alloc` adds the offset to the address of the pages it is granted. `__free` does not take it
off again: it passes the borders of the whole pages it has gathered as they are. So what the page
allocator gets back are not the pages it has granted, but those that lie the offset above. What
is passed is right, and nothing is lost, only in runs in which no `kfree` gathers a whole page.
-/

import AIMv6.FreeListRuns

namespace AIMv6

open List Nat Option Set

namespace FreeList

/-- Pages passed to `free_pages`, with what had been granted by then and the physical addresses of
the live blocks. -/
structure Return where
  pages : Pages
  granted : Set Nat
  live : Set Nat

/-- Whole pages that were granted and hold no live block. -/
structure Return.Right (given : Return) : Prop where
  base : given.pages.paddr % pageSize = 0
  size : given.pages.size % pageSize = 0
  granted : (⟨given.pages.paddr, given.pages.size⟩ : Region).bytes ⊆ given.granted
  unused : Disjoint (⟨given.pages.paddr, given.pages.size⟩ : Region).bytes given.live

/-- The allocator with the books of the page allocator, by physical addresses: what is free, what
has been granted so far, and what has been passed back, last first. -/
structure Ledger where
  usage : Usage
  pool : Set Nat
  granted : Set Nat
  returns : List Return

namespace Ledger

/-- The books after a step. -/
def after (abi : Abi) (offset : Nat) (ledger : Ledger) (outcome : Outcome) : Ledger where
  usage := outcome.usage
  pool := (ledger.pool \ pagesAt id outcome.granted) ∪ pagesAt id outcome.passed
  granted := pagesAt id outcome.granted ∪ ledger.granted
  returns := outcome.passed.toList.map (fun pages =>
    { pages
      granted := ledger.granted
      live := {address | ∃ object ∈ outcome.usage.live,
        address + offset ∈ (object.block abi outcome.usage.mem).bytes} }) ++ ledger.returns

/-- The books after `simple_allocator_init`. -/
def start (abi : Abi) (head : Nat) (mem : Memory) (pool : Set Nat) : Ledger :=
  ⟨initial abi head mem, pool, ∅, []⟩

/-- What the surroundings promise: as before, except that `alloc_pages` grants pages that are
free. -/
def Supplies (abi : Abi) (offset head : Nat) (ledger : Ledger) : Call → Prop
  | .kmalloc size _ answer =>
    size + abi.headerSize + pageSize < abi.modulus ∧ ∀ paddr ∈ answer, paddr % pageSize = 0 ∧
      (⟨paddr, pagesSize abi size⟩ : Region).bytes ⊆ ledger.pool ∧
      head ∉ (⟨paddr + offset, pagesSize abi size⟩ : Region).bytes ∧
      head + abi.wordSize ∉ (⟨paddr + offset, pagesSize abi size⟩ : Region).bytes
  | .kfree object => (Call.kfree object).Proper abi (· + offset) head ledger.usage
  | .write mem => (Call.write mem).Proper abi (· + offset) head ledger.usage

end Ledger

/-- The states of the runs whose steps are all allowed where they are made. -/
inductive LedgerReachable (abi : Abi) (offset head : Nat) (allowed : Ledger → Call → Prop)
    (start : Ledger) : Ledger → Prop
  | start : LedgerReachable abi offset head allowed start start
  | step {ledger : Ledger} {outcome : Outcome} {fuel : Nat} (call : Call)
    (earlier : LedgerReachable abi offset head allowed start ledger) (fits : allowed ledger call)
    (returned : call.run abi (· + offset) head fuel ledger.usage = some outcome) :
    LedgerReachable abi offset head allowed start (ledger.after abi offset outcome)

/-- The region a freed block becomes part of has no whole page. -/
def Call.Pageless (abi : Abi) (head : Nat) (usage : Usage) : Call → Prop
  | kfree object => ∀ extent, Extent abi head usage.mem (object.block abi usage.mem) extent →
    ¬ firstBorder extent < lastBorder extent
  | kmalloc _ _ _ => True
  | write _ => True

variable {abi : Abi} {offset head fuel : Nat} {mem : Memory} {usage : Usage} {ledger : Ledger}
  {free left cut all live : List Region} {owned pool : Set Nat}

/-! ### Whole pages -/

/-- A set of whole pages. -/
def Paged (set : Set Nat) : Prop :=
  ∀ first ∈ set, ∀ second, second / pageSize = first / pageSize → second ∈ set

theorem paged_bytes {region : Region} (base : region.base % pageSize = 0)
    (size : region.size % pageSize = 0) : Paged region.bytes := by
  intro first inside second same
  rw [Region.mem_bytes] at inside ⊢
  unfold pageSize at *
  omega

theorem Paged.image {set : Set Nat} (paged : Paged set) (aligned : offset % pageSize = 0) :
    Paged (Set.image (· + offset) set) := by
  rintro _ ⟨first, inside, rfl⟩ second same
  dsimp only at same
  unfold pageSize at aligned same
  refine ⟨second - offset, paged first inside _ ?_, Nat.sub_add_cancel ?_⟩
  · unfold pageSize
    omega
  · omega

variable {block extent : Region} {outcome : Outcome} {page : Nat} {call : Call}
  {allowed : Ledger → Call → Prop}

theorem whole_of_page (aligned : page % pageSize = 0) (begins : block.base ≤ page)
    (ends : page + pageSize ≤ block.limit) : firstBorder block < lastBorder block := by
  unfold firstBorder lastBorder
  unfold pageSize at *
  omega

/-- When the free blocks touch at page borders only, an owned page without a live block lies in one
of them. -/
theorem Tiled.page_mem (tiled : Tiled abi head owned (free ++ live))
    (seams : Seams (· % pageSize = 0) free) (aligned : page % pageSize = 0)
    (inside : (⟨page, pageSize⟩ : Region).bytes ⊆ owned)
    (unused : ∀ tile ∈ live, Disjoint (⟨page, pageSize⟩ : Region).bytes tile.bytes) :
    ∃ block ∈ free, block.base ≤ page ∧ page + pageSize ≤ block.limit := by
  have covers : ∀ place, page ≤ place → place < page + pageSize →
      ∃ block ∈ free, block.base ≤ place ∧ place < block.limit := by
    intro place lower upper
    have within : place ∈ (⟨page, pageSize⟩ : Region).bytes := ⟨lower, upper⟩
    have member := inside within
    rw [← tiled.tiling.cover] at member
    obtain ⟨tile, tileMember, covered⟩ := member
    rcases mem_append.mp tileMember with isFree | isLive
    · exact ⟨tile, isFree, covered⟩
    · exact absurd covered (disjoint_left.mp (unused tile isLive) within)
  obtain ⟨block, member, begins, ends⟩ := covers page le_rfl (by unfold pageSize; omega)
  refine ⟨block, member, begins, ?_⟩
  by_contra short
  obtain ⟨next, nextMember, nextBegins, nextEnds⟩ :=
    covers block.limit ends.le (Nat.lt_of_not_le short)
  have different : block ≠ next := by
    rintro rfl
    exact lt_irrefl _ nextEnds
  rcases tiled.ordered (mem_append_left _ member) (mem_append_left _ nextMember) different with
    above | below
  · have touch := le_antisymm above nextBegins
    have border : next.base % pageSize = 0 := seams block member next nextMember touch
    unfold pageSize at *
    omega
  · unfold Region.limit at *
    omega

/-- When the free blocks make up whole pages, none of them has a whole page, and they touch at page
borders only, then there are none. -/
theorem Tiled.owned_empty (tiled : Tiled abi head owned free) (paged : Paged owned)
    (trimmed : Trimmed free) : owned = ∅ := by
  refine eq_empty_of_forall_notMem fun address inside => ?_
  rw [← append_nil free] at tiled
  have aligned : address / pageSize * pageSize % pageSize = 0 := mul_mod_left _ _
  obtain ⟨block, member, begins, ends⟩ := tiled.page_mem trimmed.seams aligned
    (fun place within => paged address inside place (by
      obtain ⟨lower, upper⟩ := Region.mem_bytes.mp within
      unfold pageSize at *
      dsimp only at lower upper
      omega)) nofun
  exact trimmed.pageless block member (whole_of_page aligned begins ends)

/-! ### Runs that return no page -/

/-- What holds along such runs. -/
structure Accounts (abi : Abi) (offset head : Nat) (pool : Set Nat) (ledger : Ledger)
    (free : List Region) : Prop where
  invariant : Invariant abi head ledger.usage free
  owned : ledger.usage.owned = Set.image (· + offset) ledger.granted
  paged : Paged ledger.granted
  total : ledger.pool ∪ ledger.granted = pool
  apart : Disjoint ledger.pool ledger.granted
  trimmed : Trimmed free
  kept : ledger.returns = []

theorem Accounts.proper (accounts : Accounts abi offset head pool ledger free)
    (aligned : offset % pageSize = 0) (supplied : ledger.Supplies abi offset head call) :
    call.Proper abi (· + offset) head ledger.usage := by
  cases call with
  | kmalloc size flags answer =>
    obtain ⟨small, promise⟩ := supplied
    refine ⟨small, fun paddr answered => ?_⟩
    obtain ⟨base, inPool, outside⟩ := promise paddr answered
    refine ⟨?_, ?_, outside⟩
    · unfold pageSize at *
      dsimp only
      omega
    · rw [accounts.owned, Set.disjoint_left]
      rintro _ inside ⟨address, granted, rfl⟩
      refine disjoint_left.mp accounts.apart (inPool ?_) granted
      rw [Region.mem_bytes] at inside ⊢
      dsimp only at *
      omega
  | kfree object => exact supplied
  | write after => exact supplied

theorem Ledger.after_quiet (noGrant : outcome.granted = none) (nothing : outcome.passed = none) :
    ledger.after abi offset outcome = { ledger with usage := outcome.usage } := by
  rw [Ledger.after, noGrant, nothing, pagesAt_none, sdiff_empty, union_empty, empty_union]
  rfl

theorem image_bytes (base size : Nat) :
    Set.image (· + offset) (⟨base, size⟩ : Region).bytes =
      (⟨base + offset, size⟩ : Region).bytes := by
  ext address
  simp only [mem_image, Region.mem_bytes]
  constructor
  · rintro ⟨place, inside, rfl⟩
    omega
  · intro inside
    exact ⟨address - offset, by omega, by omega⟩

section Calls

variable (accounts : Accounts abi offset head pool ledger free)

include accounts

/-- A step that leaves the pages where they are. -/
theorem Accounts.quiet (noGrant : outcome.granted = none) (nothing : outcome.passed = none)
    (owned : outcome.usage.owned = ledger.usage.owned)
    (invariant : Invariant abi head outcome.usage left) (trimmed : Trimmed left) :
    Accounts abi offset head pool (ledger.after abi offset outcome) left := by
  rw [Ledger.after_quiet noGrant nothing]
  exact ⟨invariant, owned.trans accounts.owned, accounts.paged, accounts.total,
    accounts.apart, trimmed, accounts.kept⟩

variable {size flags : Nat} {object : Object} {front back : List Region}

/-- Pages are taken in. -/
theorem Accounts.take {paddr : Nat} (small : size + abi.headerSize + pageSize < abi.modulus)
    (border : paddr % pageSize = 0)
    (inPool : (⟨paddr, pagesSize abi size⟩ : Region).bytes ⊆ ledger.pool)
    (kept : Invariant abi head usage left) (trimmed : Trimmed left)
    (owned : usage.owned =
      (⟨paddr + offset, pagesSize abi size⟩ : Region).bytes ∪ ledger.usage.owned) :
    Accounts abi offset head pool ⟨usage,
      ledger.pool \ (⟨paddr, pagesSize abi size⟩ : Region).bytes,
      (⟨paddr, pagesSize abi size⟩ : Region).bytes ∪ ledger.granted, ledger.returns⟩ left := by
  have whole : pagesSize abi size % pageSize = 0 := by
    rw [(request_sizes small).2]
    exact mul_mod_left _ _
  refine ⟨kept, ?_, ?_, ?_, ?_, trimmed, accounts.kept⟩
  · rw [owned, accounts.owned, image_union, image_bytes]
  · rintro first (inside | old) second same
    · exact Or.inl (paged_bytes border whole first inside second same)
    · exact Or.inr (accounts.paged first old second same)
  · rw [← union_assoc, sdiff_union_of_subset inPool, accounts.total]
  · refine disjoint_left.mpr ?_
    rintro address ⟨free, outside⟩ (inside | old)
    · exact outside inside
    · exact disjoint_left.mp accounts.apart free old

theorem Accounts.kmalloc (aligned : offset % pageSize = 0) {answer : Option Nat}
    (supplied : ledger.Supplies abi offset head (.kmalloc size flags answer))
    (sound : (Call.kmalloc size flags answer).Sound abi (· + offset) head ledger.usage)
    (enough : free.length < fuel) :
    ∃ outcome left, (Call.kmalloc size flags answer).run abi (· + offset) head fuel ledger.usage =
        some outcome ∧ Accounts abi offset head pool (ledger.after abi offset outcome) left := by
  have proper := accounts.proper aligned supplied
  obtain ⟨outcome, left, returned, kept, trimmed, nothing, effect⟩ :=
    accounts.invariant.kmalloc proper sound enough
  refine ⟨outcome, left, returned, ?_⟩
  rcases effect with ⟨noGrant, owned⟩ | ⟨paddr, grant, answered, owned⟩
  · exact accounts.quiet noGrant nothing owned kept (trimmed accounts.trimmed)
  · obtain ⟨border, inPool, -⟩ := supplied.2 paddr answered
    have after : ledger.after abi offset outcome = ⟨outcome.usage,
        ledger.pool \ (⟨paddr, pagesSize abi size⟩ : Region).bytes,
        (⟨paddr, pagesSize abi size⟩ : Region).bytes ∪ ledger.granted, ledger.returns⟩ := by
      rw [Ledger.after, grant, nothing, pagesAt_none, pagesAt_some, union_empty]
      rfl
    rw [after]
    exact accounts.take supplied.1 border inPool kept (trimmed accounts.trimmed) owned

/-- What is passed is wrong: the last page passed would have to be granted, and then it would be
owned at the offset above, without a live block; but such a page is part of what is passed. -/
theorem Accounts.passed_wrong (positive : 0 < offset) (aligned : offset % pageSize = 0)
    (merged : Merged abi head ledger.usage object free mem front extent back)
    (blocks : outcome.usage.blocks abi =
      (ledger.usage.live.erase object).map (Object.block abi ledger.usage.mem))
    (whole : firstBorder extent < lastBorder extent)
    (passed : outcome.passed =
      some ⟨firstBorder extent, lastBorder extent - firstBorder extent, flags, 0⟩) :
    ∃ given ∈ (ledger.after abi offset outcome).returns, ¬ given.Right := by
  obtain ⟨lower, upper, firstAligned, lastAligned⟩ := borders_bounds extent
  rw [Ledger.after, passed]
  refine ⟨_, mem_cons_self, fun right => ?_⟩
  have last : (⟨lastBorder extent - pageSize, pageSize⟩ : Region).bytes ⊆
      (⟨firstBorder extent, lastBorder extent - firstBorder extent⟩ : Region).bytes := by
    intro address inside
    rw [Region.mem_bytes] at inside ⊢
    unfold pageSize at *
    dsimp only at *
    omega
  have moved := @image_bytes offset (lastBorder extent - pageSize) pageSize
  have inside : (⟨lastBorder extent - pageSize + offset, pageSize⟩ : Region).bytes ⊆
      ledger.usage.owned := by
    rw [← moved, accounts.owned]
    exact image_mono (last.trans right.granted)
  have unused : ∀ tile ∈ (ledger.usage.live.erase object).map (Object.block abi ledger.usage.mem),
      Disjoint (⟨lastBorder extent - pageSize + offset, pageSize⟩ : Region).bytes tile.bytes := by
    intro tile member
    rw [← blocks] at member
    obtain ⟨other, live, rfl⟩ := mem_map.mp member
    rw [← moved, Set.disjoint_left]
    rintro _ ⟨address, within, rfl⟩ covered
    exact disjoint_left.mp right.unused (last within) ⟨other, live, covered⟩
  have pageAligned : (lastBorder extent - pageSize + offset) % pageSize = 0 := by
    unfold pageSize at *
    omega
  have tiled := merged.placed.tiled.perm (perm_middle.symm.append_right _)
  obtain ⟨tile, member, begins, ends⟩ :=
    tiled.page_mem (merged.seams accounts.invariant.represents accounts.trimmed.seams) pageAligned
      inside unused
  rcases mem_cons.mp (perm_middle.mem_iff.mp member) with rfl | old
  · unfold lastBorder pageSize at *
    omega
  · exact accounts.trimmed.pageless tile (merged.old tile old)
      (whole_of_page pageAligned begins ends)

/-- `kfree` either leaves the pages where they are, or passes on the wrong ones. -/
theorem Accounts.kfree (aligned : offset % pageSize = 0) {object : Object}
    (proper : (Call.kfree object).Proper abi (· + offset) head ledger.usage)
    (sound : (Call.kfree object).Sound abi (· + offset) head ledger.usage)
    (enough : free.length < fuel) :
    ∃ outcome extent, (Call.kfree object).run abi (· + offset) head fuel ledger.usage =
      some outcome ∧ Extent abi head ledger.usage.mem (object.block abi ledger.usage.mem) extent ∧
      ((¬ firstBorder extent < lastBorder extent ∧
          ∃ left, Accounts abi offset head pool (ledger.after abi offset outcome) left) ∨
        firstBorder extent < lastBorder extent ∧
          (0 < offset → ∃ given ∈ (ledger.after abi offset outcome).returns, ¬ given.Right)) := by
  obtain ⟨outcome, left, after, front, extent, back, returned, kept, noGrant, merged,
    blocks, effect⟩ :=
    accounts.invariant.kfree proper sound enough
  refine ⟨outcome, extent, returned, merged.extent, ?_⟩
  rcases effect with ⟨pageless, nothing, owned, rfl⟩ | ⟨flags, whole, -, -, passed⟩
  · exact Or.inl ⟨pageless, _, accounts.quiet noGrant nothing owned kept
      (merged.trimmed accounts.invariant.represents pageless accounts.trimmed)⟩
  · exact Or.inr ⟨whole, fun positive =>
      accounts.passed_wrong positive aligned merged blocks whole passed⟩

end Calls

/-- The steps of a run that returns no page. -/
def Ledger.Keeps (abi : Abi) (offset head : Nat) (ledger : Ledger) (call : Call) : Prop :=
  ledger.Supplies abi offset head call ∧ call.Sound abi (· + offset) head ledger.usage ∧
    call.Pageless abi head ledger.usage

theorem Accounts.step (accounts : Accounts abi offset head pool ledger free)
    (aligned : offset % pageSize = 0) {call : Call} (fits : ledger.Keeps abi offset head call)
    (enough : free.length < fuel) :
    ∃ outcome left, call.run abi (· + offset) head fuel ledger.usage = some outcome ∧
      Accounts abi offset head pool (ledger.after abi offset outcome) left := by
  obtain ⟨supplied, sound, pageless⟩ := fits
  cases call with
  | kmalloc size flags answer => exact accounts.kmalloc aligned supplied sound enough
  | kfree object =>
    obtain ⟨outcome, extent, returned, isExtent, ⟨-, left, kept⟩ | ⟨whole, -⟩⟩ :=
      accounts.kfree aligned supplied sound enough
    · exact ⟨outcome, left, returned, kept⟩
    · exact absurd whole (pageless extent isExtent)
  | write after =>
    exact ⟨_, free, rfl, accounts.quiet rfl rfl rfl
      (accounts.invariant.write (accounts.proper aligned supplied)) accounts.trimmed⟩

theorem Accounts.start (abi : Abi) (offset head : Nat) (mem : Memory) (pool : Set Nat) :
    Accounts abi offset head pool (Ledger.start abi head mem pool) [] :=
  ⟨Invariant.start abi head mem, (image_empty _).symm, nofun, union_empty _,
    disjoint_empty _, ⟨nofun, nofun⟩, rfl⟩

theorem LedgerReachable.accounts (aligned : offset % pageSize = 0)
    (reachable : LedgerReachable abi offset head (Ledger.Keeps abi offset head)
      (Ledger.start abi head mem pool) ledger) :
    ∃ free, Accounts abi offset head pool ledger free := by
  induction reachable with
  | start => exact ⟨[], Accounts.start abi offset head mem pool⟩
  | @step before outcome fuel call earlier fits returned inductionHypothesis =>
    obtain ⟨free, accounts⟩ := inductionHypothesis
    obtain ⟨again, left, same, kept⟩ :=
      accounts.step aligned fits (lt_succ_of_le (le_add_left _ fuel))
    rw [Call.run_mono (le_succ_of_le (le_add_right _ _)) returned] at same
    cases same
    exact ⟨left, kept⟩

/-- Once every object has been freed the page allocator has the free pages it had before. -/
theorem Accounts.restored (accounts : Accounts abi offset head pool ledger free)
    (aligned : offset % pageSize = 0) (allFreed : ledger.usage.live = []) : ledger.pool = pool := by
  have tiled := accounts.invariant.tiled
  rw [Usage.blocks, allFreed, map_nil, append_nil, accounts.owned] at tiled
  have none := tiled.owned_empty (accounts.paged.image aligned) accounts.trimmed
  rw [← accounts.total, image_eq_empty.mp none, union_empty]

/-! ### Runs that return pages -/

/-- The steps of a run that keeps the blocks apart. -/
def Ledger.Fits (abi : Abi) (offset head : Nat) (ledger : Ledger) (call : Call) : Prop :=
  ledger.Supplies abi offset head call ∧ Fit abi (· + offset) head ledger.usage call

/-- A run that returns no page keeps the blocks apart. -/
theorem LedgerReachable.fits (aligned : offset % pageSize = 0)
    (reachable : LedgerReachable abi offset head (Ledger.Keeps abi offset head)
      (Ledger.start abi head mem pool) ledger) :
    LedgerReachable abi offset head (Ledger.Fits abi offset head) (Ledger.start abi head mem pool)
      ledger := by
  induction reachable with
  | start => exact .start
  | step call earlier fits returned inductionHypothesis =>
    obtain ⟨free, accounts⟩ := earlier.accounts aligned
    exact .step call inductionHypothesis ⟨fits.1, accounts.proper aligned fits.1, fits.2.1⟩ returned

/-- The first page that is returned is the wrong one. -/
theorem LedgerReachable.keeps_or_wrong (positive : 0 < offset) (aligned : offset % pageSize = 0)
    (reachable : LedgerReachable abi offset head (Ledger.Fits abi offset head)
      (Ledger.start abi head mem pool) ledger) :
    LedgerReachable abi offset head (Ledger.Keeps abi offset head) (Ledger.start abi head mem pool)
      ledger ∨ ∃ given ∈ ledger.returns, ¬ given.Right := by
  induction reachable with
  | start => exact Or.inl .start
  | @step before outcome fuel call earlier fits returned inductionHypothesis =>
    obtain ⟨supplied, proper, sound⟩ := fits
    rcases inductionHypothesis with keeps | ⟨given, member, wrong⟩
    · cases call with
      | kmalloc size flags answer =>
          exact Or.inl (.step _ keeps ⟨supplied, sound, trivial⟩ returned)
      | kfree object =>
        obtain ⟨free, accounts⟩ := keeps.accounts aligned
        obtain ⟨again, extent, same, isExtent, effect⟩ :=
          accounts.kfree aligned proper sound (lt_succ_of_le (le_add_left _ fuel))
        rw [Call.run_mono (le_succ_of_le (le_add_right _ _)) returned] at same
        cases same
        rcases effect with ⟨pageless, -⟩ | ⟨-, wrong⟩
        · refine Or.inl (.step _ keeps ⟨supplied, sound, fun other isOther => ?_⟩ returned)
          rwa [isOther.unique accounts.invariant.represents accounts.invariant.tiled isExtent]
        · exact Or.inr (wrong positive)
      | write after => exact Or.inl (.step _ keeps ⟨supplied, sound, trivial⟩ returned)
    · exact Or.inr ⟨given, mem_append_right _ member, wrong⟩

/-- The runs in which no `kfree` gathers a whole page are those, of the runs that keep the blocks
apart, in which everything passed to `free_pages` is right and the page allocator has its free pages
back once every object has been freed. -/
theorem returned_pages_right_iff (positive : 0 < offset) (aligned : offset % pageSize = 0) :
    LedgerReachable abi offset head (Ledger.Keeps abi offset head) (Ledger.start abi head mem pool)
        ledger ↔
      LedgerReachable abi offset head (Ledger.Fits abi offset head) (Ledger.start abi head mem pool)
        ledger ∧ (∀ given ∈ ledger.returns, given.Right) ∧
        (ledger.usage.live = [] → ledger.pool = pool) := by
  constructor
  · intro keeps
    obtain ⟨free, accounts⟩ := keeps.accounts aligned
    refine ⟨keeps.fits aligned, ?_, accounts.restored aligned⟩
    rw [accounts.kept]
    nofun
  · rintro ⟨fits, right, -⟩
    refine (fits.keeps_or_wrong positive aligned).resolve_right ?_
    rintro ⟨given, member, wrong⟩
    exact wrong (right given member)

/-! ### Two runs on one page -/

/-- The books when one page is free. -/
def bootLedger : Ledger := .start .ilp32 0x1000 (fun _ => 0) (⟨0x100000, 4096⟩ : Region).bytes

/-- The books after a first request for 16 bytes. -/
def pageLedger : Ledger :=
  bootLedger.after .ilp32 0x80000000 ⟨pageUsage, some ⟨0x100000, 4096, 0, 0⟩, none⟩

theorem bootLedger_fits :
    bootLedger.Fits .ilp32 0x80000000 0x1000 (.kmalloc 16 0 (some 0x100000)) := by
  refine ⟨⟨by decide +kernel, fun paddr same => ?_⟩, ⟨by decide +kernel, fun paddr same => ?_⟩,
    fun paddr same => ?_⟩
  · cases same
    refine ⟨by decide, le_rfl, ?_, ?_⟩ <;> exact fun inside => absurd inside.1 (by decide)
  · cases same
    exact bootUsage_granted
  · cases same
    exact Or.inr ⟨by decide +kernel, by decide +kernel⟩

theorem pageLedger_reachable (fits : allowed bootLedger (.kmalloc 16 0 (some 0x100000))) :
    LedgerReachable .ilp32 0x80000000 0x1000 allowed bootLedger pageLedger :=
  LedgerReachable.step _ LedgerReachable.start fits run_pageUsage

/-- One block is on the free list then. The object's block touches it, and the two are the page. -/
theorem pageUsage_extent (isExtent : Extent .ilp32 0x1000 pageUsage.mem ⟨0x80100000, 48⟩ extent) :
    extent = ⟨0x80100000, 4096⟩ := by
  have listed : ∀ base, OnFreeList .ilp32 0x1000 pageUsage.mem base ↔ base = 0x80100030 := by
    intro base
    rw [@onFreeList_iff_mem _ _ _ _ [0x80100030] (by decide +kernel)
      (by decide), List.mem_singleton]
  have size : pageUsage.mem 0x80100030 = 4048 := by decide +kernel
  obtain ⟨base, length⟩ := extent
  obtain ⟨lower, upper⟩ := isExtent
  simp only [listed, Region.limit] at lower upper
  norm_num [size] at lower upper
  rw [Region.mk.injEq]
  omega

/-- When the one object of a page is freed, the page that lies the offset above is passed to
`free_pages`, which was never granted, and the page itself is lost. -/
theorem kfree_returns_other_page : ∃ ledger,
    LedgerReachable .ilp32 0x80000000 0x1000 (Ledger.Fits .ilp32 0x80000000 0x1000)
      bootLedger ledger ∧ ledger.usage.live = [] ∧ (¬ ∀ given ∈ ledger.returns, given.Right) ∧
      ledger.pool ≠ bootLedger.pool := by
  have freed : (FreeList.kfree .ilp32 0x1000 4 0x80100020 pageUsage.mem).map Prod.fst =
      some (some ⟨0x80100000, 4096, 0, 0⟩) := by decide +kernel
  have block : Object.block .ilp32 pageUsage.mem ⟨0x80100020, 16⟩ = ⟨0x80100000, 48⟩ := by
    decide +kernel
  have sound : (Call.kfree ⟨0x80100020, 16⟩).Sound .ilp32 (· + 0x80000000) 0x1000 pageUsage := by
    intro extent isExtent whole slice member
    rw [block] at isExtent
    have none : lowerSlice ⟨0x80100000, 4096⟩ ++ upperSlice ⟨0x80100000, 4096⟩ = [] := by decide
    rw [pageUsage_extent isExtent, none] at member
    cases member
  have reachable := LedgerReachable.step (.kfree ⟨0x80100020, 16⟩)
    (pageLedger_reachable bootLedger_fits)
    ⟨mem_singleton_self _, mem_singleton_self _, sound⟩ (run_release freed)
  refine ⟨_, reachable, rfl, fun right => ?_, ?_⟩
  · have granted : (⟨0x80100000, 4096⟩ : Region).bytes ⊆ pageLedger.granted :=
      (right _ List.mem_cons_self).granted
    have inside : (0x80100000 : Nat) ∈ pageLedger.granted := granted ⟨by decide, by decide⟩
    simp [pageLedger, Ledger.after, bootLedger, Ledger.start, Region.mem_bytes] at inside
  · -- The granted page was free, and the page that is passed on is another one.
    intro restored
    have free : (0x100000 : Nat) ∈ bootLedger.pool := ⟨by decide, by decide⟩
    rw [← restored] at free
    rcases free with ⟨⟨-, outside⟩ | passed, -⟩ | passed
    · rw [pagesAt_some] at outside
      exact outside ⟨by decide, by decide⟩
    · rw [pagesAt_none] at passed
      exact passed
    · rw [pagesAt_some] at passed
      exact absurd passed.1 (by decide)

/-- The books after a second such request. -/
def pairLedger : Ledger := { pageLedger with usage := pairUsage }

theorem pairLedger_reachable
    (earlier : LedgerReachable .ilp32 0x80000000 0x1000 allowed bootLedger pageLedger)
    (fits : allowed pageLedger (.kmalloc 16 0 none)) :
    LedgerReachable .ilp32 0x80000000 0x1000 allowed bootLedger pairLedger := by
  have step := LedgerReachable.step _ earlier fits run_pairUsage
  rwa [Ledger.after_quiet rfl rfl] at step

/-- The block of the object at the front of the page touches the other object's block. -/
theorem pairUsage_extent (isExtent : Extent .ilp32 0x1000 pairUsage.mem ⟨0x80100000, 48⟩ extent) :
    extent = ⟨0x80100000, 48⟩ := by
  obtain ⟨base, length⟩ := extent
  obtain ⟨lower, upper⟩ := isExtent
  simp only [pairUsage_listed, Region.limit] at lower upper
  norm_num [pairUsage_size] at lower upper
  rw [Region.mk.injEq]
  omega

/-- When one of the two objects of a page is freed, no page is passed on. -/
theorem returned_pages_right_iff_pair : ∃ ledger,
    LedgerReachable .ilp32 0x80000000 0x1000 (Ledger.Keeps .ilp32 0x80000000 0x1000)
      bootLedger ledger ∧
      ledger.usage.live = [⟨0x80100050, 16⟩] ∧ (∀ given ∈ ledger.returns, given.Right) ∧
      (ledger.usage.live = [] → ledger.pool = bootLedger.pool) := by
  have freed : (FreeList.kfree .ilp32 0x1000 4 0x80100020 pairUsage.mem).map Prod.fst =
      some none := by
    decide +kernel
  have block : Object.block .ilp32 pairLedger.usage.mem ⟨0x80100020, 16⟩ = ⟨0x80100000, 48⟩ := by
    decide +kernel
  have pageless : (Call.kfree ⟨0x80100020, 16⟩).Pageless .ilp32 0x1000 pairLedger.usage := by
    intro extent isExtent
    rw [block] at isExtent
    rw [pairUsage_extent isExtent]
    decide
  have live : (⟨0x80100020, 16⟩ : Object) ∈ pairLedger.usage.live := by decide +kernel
  have fits : pairLedger.Keeps .ilp32 0x80000000 0x1000 (.kfree ⟨0x80100020, 16⟩) :=
    ⟨live, fun extent isExtent whole => absurd whole (pageless extent isExtent), pageless⟩
  have first : LedgerReachable .ilp32 0x80000000 0x1000 (Ledger.Keeps .ilp32 0x80000000 0x1000)
      bootLedger pageLedger :=
    pageLedger_reachable ⟨bootLedger_fits.1, bootLedger_fits.2.2, trivial⟩
  have second : pageLedger.Keeps .ilp32 0x80000000 0x1000 (.kmalloc 16 0 none) :=
    ⟨⟨by decide +kernel, fun _ answered => absurd answered (not_mem_none _)⟩,
      fun _ answered => absurd answered (not_mem_none _), trivial⟩
  have reachable := LedgerReachable.step _ (pairLedger_reachable first second) fits
    (run_release freed)
  exact ⟨_, reachable, rfl, ((returned_pages_right_iff (by decide) (by decide)).mp reachable).2⟩

end FreeList

end AIMv6
