/-
This file models the memory map the BIOS hands over and `probe_memory`, which queues for every RAM
entry of the map a mapping to the kernel window and an identity mapping.

The start of an entry is rounded down to a large page and its size added to the rounded start, so
that an entry that crosses a large page less by its size than by its position is mapped short.
The end is computed with 64 bits, cut to 32 and compared as a signed number with `KMMAP_BASE`,
which copes with an end beyond the address space as long as it is not beyond it by half an address
space. The queue has room for five entries, and the loop ends with the first entry that reaches
beyond the window. Exactly when the entries that are queued lie in the window and together cover
the RAM, the linear mapping is what it is meant to be.
-/

import AIMv6.EarlyMapping

namespace AIMv6

open List hiding Disjoint Vector
open Nat

/-! ### The memory map of the BIOS -/

/-- `E820MAX`. -/
def e820Max : Nat := 20

/-- `E820_RAM`. -/
def e820Ram : Nat := 1

/-- The fields of `struct e820entry` that the kernel reads. -/
structure E820Entry where
  start : Nat
  size : Nat
  type : Nat
  deriving DecidableEq, Repr

/-- The entry describes usable memory. -/
def E820Entry.IsRam (entry : E820Entry) : Prop := entry.type = e820Ram

instance (entry : E820Entry) : Decidable entry.IsRam := inferInstanceAs (Decidable (_ = _))

/-- The bytes of an entry. -/
def E820Entry.region (entry : E820Entry) : Region := ⟨entry.start, entry.size⟩

/-- `struct e820map`, whose entries hold 64-bit numbers. -/
structure E820Map where
  entries : List E820Entry
  length_le : entries.length ≤ e820Max
  words : ∀ entry ∈ entries, entry.start < 2 ^ 64 ∧ entry.size < 2 ^ 64

/-- The entries for usable memory. -/
def E820Map.ram (map : E820Map) : List E820Entry := map.entries.filter fun entry => entry.IsRam

/-! ### `probe_memory` -/

/-- `XPAGE_SIZE`. -/
def xpageSize : Nat := 2 ^ 22

/-- The addresses of a kernel in the upper half of a 32-bit address space, at a large page. -/
structure HighLayout extends Layout where
  ilp32 : abi = .ilp32
  high : 2 ^ 31 ≤ kernBase
  aligned : kernBase % xpageSize = 0

/-- The addresses `configure` chooses. -/
def HighLayout.configured : HighLayout where
  toLayout := Layout.configured
  ilp32 := rfl
  high := by decide
  aligned := by decide

/-- The conversion of a 32-bit word to `int32_t`. -/
def asInt32 (word : Nat) : Int := if word < 2 ^ 31 then word else (word : Int) - 2 ^ 32

variable {state : EarlyMappings} {queued : List E820Entry}

namespace EarlyMappings

variable (layout : Layout)

/-- `desc.paddr`. -/
def probePaddr (entry : E820Entry) : Nat := alignBelow 32 (entry.start % 2 ^ 32) xpageSize

/-- `desc.vaddr`. -/
def probeVaddr (entry : E820Entry) : Nat := (layout.kernBase + probePaddr entry) % 2 ^ 32

/-- `vaddr`, the end of the mapping before it is clipped. -/
def probeTop (entry : E820Entry) : Nat :=
  alignAbove 64 ((probeVaddr layout entry + entry.size) % 2 ^ 64) xpageSize % 2 ^ 32

/-- `desc` for the kernel window. -/
def kernelMapping (entry : E820Entry) : EarlyMapping where
  paddr := probePaddr entry
  vaddr := probeVaddr layout entry
  size := wrapSub (2 ^ 32)
    (if asInt32 layout.kmmapBase < asInt32 (probeTop layout entry) then layout.kmmapBase
      else probeTop layout entry)
    (probeVaddr layout entry)
  type := .memory

/-- `desc` for the identity mapping. -/
def identityMapping (entry : E820Entry) : EarlyMapping where
  paddr := probePaddr entry
  vaddr := probePaddr entry
  size := (kernelMapping layout entry).size
  type := .memory

/-- The test that ends the loop. -/
def Stops (entry : E820Entry) : Prop := asInt32 layout.kmmapBase < asInt32 (probeTop layout entry)

instance (entry : E820Entry) : Decidable (Stops layout entry) := inferInstanceAs (Decidable (_ < _))

/-- The loop of `probe_memory` over the entries, with the queue and `mem_size`. -/
def probeLoop : List E820Entry → EarlyMappings → Nat → Option (EarlyMappings × Nat)
  | [], state, memSize => some (state, memSize)
  | entry :: rest, state, memSize =>
    if entry.IsRam then
      match state.earlyMappingAdd (kernelMapping layout entry) with
      | none => none
      | some (_, state) =>
        match state.earlyMappingAdd (identityMapping layout entry) with
        | none => none
        | some (_, state) =>
          let memSize := max memSize ((entry.start % 2 ^ 32 + entry.size % 2 ^ 32) % 2 ^ 32)
          if Stops layout entry then some (state, memSize) else probeLoop rest state memSize
    else probeLoop rest state memSize

/-- `probe_memory`. -/
def probeMemory (map : E820Map) (state : EarlyMappings) (memSize : Nat) :
    Option (EarlyMappings × Nat) :=
  probeLoop layout map.entries state memSize

/-! ### What is queued -/

/-- The entries up to the first that passes a test. -/
def upTo (test : E820Entry → Prop) [DecidablePred test] : List E820Entry → List E820Entry
  | [] => []
  | entry :: rest => if test entry then [entry] else entry :: upTo test rest

/-- The two mappings of each entry. -/
def mappings (entries : List E820Entry) : List EarlyMapping :=
  entries.flatMap fun entry => [kernelMapping layout entry, identityMapping layout entry]

/-- The number of entries for which there is room. -/
def slots : Nat := 5

theorem length_mappings (entries : List E820Entry) :
    (mappings layout entries).length = 2 * entries.length := by
  induction entries with
  | nil => rfl
  | cons entry rest inductionHypothesis =>
    rw [mappings, flatMap_cons, length_append, ← mappings, inductionHypothesis,
      length_cons, length_cons, length_nil, length_cons]
    omega

variable {layout}

/-- The two calls for an entry take two slots or none. -/
theorem add_pair (entry : E820Entry) (holds : state.queue = mappings layout queued)
    (short : queued.length ≤ slots) :
    ∃ first second : Int, ∃ middle after : EarlyMappings,
      state.earlyMappingAdd (kernelMapping layout entry) = some (first, middle) ∧
      middle.earlyMappingAdd (identityMapping layout entry) = some (second, after) ∧
      after.queue = mappings layout (queued ++ [entry].take (slots - queued.length)) := by
  have length : state.queue.length = 2 * queued.length := by rw [holds, length_mappings]
  rcases lt_or_eq_of_le short with room | full
  · have one : slots - queued.length = slots - queued.length - 1 + 1 := by omega
    have first : state.queue.length < earlyMappingQueueLength := by
      rw [length]
      unfold slots at room
      unfold earlyMappingQueueLength
      omega
    refine ⟨_, _, _, _, add_taken _ first, add_taken _ ?_, ?_⟩
    · rw [length_append, length, length_singleton]
      unfold slots at room
      unfold earlyMappingQueueLength
      omega
    · rw [one, take_succ_cons, take_nil, mappings,
        flatMap_append, ← mappings, ← holds, append_assoc]
      rfl
  · have full' : state.Full := by
      rw [Full, length, full]
      rfl
    refine ⟨_, _, _, _, add_full _ full', add_full _ full', ?_⟩
    rw [full, Nat.sub_self, take_zero, append_nil, holds]

theorem probeLoop_queue (entries queued : List E820Entry) {state : EarlyMappings} (memSize : Nat)
    (holds : state.queue = mappings layout queued) (short : queued.length ≤ slots) :
    ∃ after size, probeLoop layout entries state memSize = some (after, size) ∧
      after.queue = mappings layout (queued ++
        (upTo (Stops layout) (entries.filter fun entry => entry.IsRam)).take
          (slots - queued.length)) := by
  induction entries generalizing queued state memSize with
  | nil =>
    refine ⟨state, memSize, rfl, ?_⟩
    rw [filter_nil, upTo, take_nil, append_nil, holds]
  | cons entry rest inductionHypothesis =>
    rw [probeLoop]
    by_cases ram : entry.IsRam
    · obtain ⟨first, second, middle, after, kernel, identity, queue⟩ := add_pair entry holds short
      rw [filter_cons_of_pos (by simpa using ram)]
      simp only [if_pos ram, kernel, identity]
      rw [upTo]
      by_cases stops : Stops layout entry
      · rw [if_pos stops, if_pos stops]
        exact ⟨after, _, rfl, queue⟩
      · rw [if_neg stops, if_neg stops]
        have next : (queued ++ [entry].take (slots - queued.length)).length ≤ slots := by
          rw [length_append, length_take]
          omega
        obtain ⟨final, size, done, result⟩ := inductionHypothesis _ _ queue next
        refine ⟨final, size, done, result.trans ?_⟩
        rw [append_assoc]
        congr 2
        rcases Nat.eq_zero_or_pos (slots - queued.length) with none | some
        · rw [none, take_zero, take_zero, append_nil, none, take_zero]
          rfl
        · obtain ⟨more, room⟩ : ∃ more, slots - queued.length = more + 1 :=
            ⟨_, (succ_pred_eq_of_pos some).symm⟩
          rw [room, take_succ_cons, take_nil, take_succ_cons, length_append,
            length_singleton, show slots - (queued.length + 1) = more by omega]
          rfl
    · rw [if_neg ram, filter_cons_of_neg (by simpa using ram)]
      exact inductionHypothesis queued memSize holds short

end EarlyMappings

/-! ### The mappings of an entry -/

namespace E820Entry

/-- The start of an entry, rounded down to a large page. -/
def roundedStart (entry : E820Entry) : Nat := entry.start % 2 ^ 32 / xpageSize * xpageSize

/-- The size of an entry, rounded up to large pages. -/
def roundedSize (entry : E820Entry) : Nat := (entry.size + (xpageSize - 1)) / xpageSize * xpageSize

variable (layout : HighLayout) (entry : E820Entry)

/-- The rounded entry ends so far beyond the address space that its end looks like an address of
the kernel again. -/
def Overlong : Prop := 2 ^ 32 + 2 ^ 31 ≤ layout.kernBase + (entry.roundedStart + entry.roundedSize)

/-- The entry starts in the kernel window and is not overlong, unless it is the whole memory. -/
def Placed : Prop :=
  layout.kernBase + entry.roundedStart ≤ layout.kmmapBase ∧
    (entry.Overlong layout → entry.roundedStart = 0 ∧ entry.roundedSize = 2 ^ 32)

/-- The rounded entry reaches beyond the kernel window. -/
def Overflows : Prop :=
  layout.kmmapBase < layout.kernBase + (entry.roundedStart + entry.roundedSize) ∧
    ¬ entry.Overlong layout

instance : Decidable (entry.Overlong layout) := inferInstanceAs (Decidable (_ ≤ _))
instance : Decidable (entry.Placed layout) := inferInstanceAs (Decidable (_ ∧ _))
instance : DecidablePred fun entry : E820Entry => entry.Overflows layout :=
  fun _ => inferInstanceAs (Decidable (_ ∧ _))

/-- The part of the memory that the kernel window shows for an entry in its place. -/
def shown : Region :=
  ⟨entry.roundedStart, if entry.Overlong layout then 0
    else min (layout.kmmapBase - (layout.kernBase + entry.roundedStart)) entry.roundedSize⟩

end E820Entry

namespace EarlyMappings

open E820Entry

section Probing

variable {layout : HighLayout} {entry : E820Entry}

theorem layout_bounds (layout : HighLayout) :
    layout.kernBase ≤ layout.kmmapBase ∧ layout.kmmapBase < 2 ^ 32 := by
  have below := layout.reservedBase_lt
  rw [layout.ilp32] at below
  exact ⟨layout.kernBase_le, lt_of_le_of_lt layout.kmmapBase_le below⟩

theorem probePaddr_eq (entry : E820Entry) : probePaddr entry = entry.roundedStart :=
  alignBelow_two_pow 32 (entry.start % 2 ^ 32) 22 (mod_lt _ (by decide)) (by decide)

theorem probeVaddr_eq (layout : HighLayout) (entry : E820Entry) :
    probeVaddr layout.toLayout entry = (layout.kernBase + entry.roundedStart) % 2 ^ 32 := by
  rw [probeVaddr, probePaddr_eq]

theorem rounded_le (below : entry.start + entry.size ≤ 2 ^ 32) :
    entry.roundedStart + entry.roundedSize ≤ 2 ^ 32 := by
  unfold roundedStart roundedSize xpageSize
  omega

theorem probeTop_eq (layout : HighLayout) (below : entry.start + entry.size ≤ 2 ^ 32) :
    probeTop layout.toLayout entry =
      (probeVaddr layout.toLayout entry + entry.roundedSize) % 2 ^ 32 := by
  have small : probeVaddr layout.toLayout entry < 2 ^ 32 := mod_lt _ (by decide)
  have aligned : probeVaddr layout.toLayout entry % 2 ^ 22 = 0 := by
    have base := layout.aligned
    rw [probeVaddr_eq, roundedStart]
    unfold xpageSize at *
    omega
  have sum : probeVaddr layout.toLayout entry + entry.size < 2 ^ 64 := by omega
  rw [probeTop, mod_eq_of_lt sum, xpageSize, alignAbove_two_pow 64 _ 22 sum (by decide),
    roundedSize]
  unfold xpageSize
  omega

/-- The end of a mapping stops the loop when it is beyond the window or beyond the address space. -/
theorem stops_iff (layout : HighLayout) (entry : E820Entry) :
    Stops layout.toLayout entry ↔
      layout.kmmapBase < probeTop layout.toLayout entry ∨
        probeTop layout.toLayout entry < 2 ^ 31 := by
  have bounds := layout_bounds layout
  have high := layout.high
  unfold Stops asInt32
  rw [if_neg (by omega)]
  split <;> omega

theorem probeVaddr_of_le (start : layout.kernBase + entry.roundedStart ≤ layout.kmmapBase) :
    probeVaddr layout.toLayout entry = layout.kernBase + entry.roundedStart := by
  rw [probeVaddr_eq]
  exact mod_eq_of_lt (lt_of_le_of_lt start (layout_bounds layout).2)

theorem stops_of_placed (below : entry.start + entry.size ≤ 2 ^ 32) (placed : entry.Placed layout) :
    Stops layout.toLayout entry ↔ entry.Overflows layout := by
  have bounds := layout_bounds layout
  have high := layout.high
  obtain ⟨start, whole⟩ := placed
  rw [stops_iff, probeTop_eq layout below, probeVaddr_of_le start]
  unfold Overflows Overlong at *
  omega

theorem kernelMapping_size (layout : Layout) (entry : E820Entry) :
    (kernelMapping layout entry).size = wrapSub (2 ^ 32)
      (if Stops layout entry then layout.kmmapBase else probeTop layout entry)
        (probeVaddr layout entry) :=
  rfl

theorem size_of_placed (below : entry.start + entry.size ≤ 2 ^ 32) (placed : entry.Placed layout) :
    (kernelMapping layout.toLayout entry).size = (entry.shown layout).size := by
  have bounds := layout_bounds layout
  have stops := stops_of_placed below placed
  obtain ⟨start, whole⟩ := placed
  rw [kernelMapping_size, if_congr stops rfl rfl, probeTop_eq layout below, probeVaddr_of_le start,
    E820Entry.shown]
  dsimp only
  by_cases long : entry.Overlong layout
  · have ends := whole long
    have goes : ¬ entry.Overflows layout := fun both => both.2 long
    rw [if_neg goes, if_pos long, wrapSub]
    omega
  · rw [if_neg long]
    by_cases beyond : entry.Overflows layout
    · have more := beyond.1
      rw [if_pos beyond, wrapSub]
      omega
    · have inside := not_lt.mp fun more => beyond ⟨more, long⟩
      rw [if_neg beyond, wrapSub]
      omega

theorem kernelMapping_placed (below : entry.start + entry.size ≤ 2 ^ 32)
    (placed : entry.Placed layout) : kernelMapping layout.toLayout entry =
      ⟨entry.roundedStart, layout.kernBase + entry.roundedStart, (entry.shown layout).size,
        .memory⟩ := by
  rw [← size_of_placed below placed, ← probeVaddr_of_le placed.1, ← probePaddr_eq]
  rfl

/-- The mapping of an entry that is not in its place leaves the window. -/
theorem kernelMapping_of_not_placed (below : entry.start + entry.size ≤ 2 ^ 32)
    (misplaced : ¬ entry.Placed layout) :
    layout.kmmapBase < layout.kernBase + (kernelMapping layout.toLayout entry).paddr +
      (kernelMapping layout.toLayout entry).size := by
  have bounds := layout_bounds layout
  have total := rounded_le below
  have paddr : (kernelMapping layout.toLayout entry).paddr = entry.roundedStart :=
    probePaddr_eq entry
  rw [paddr]
  by_cases start : layout.kernBase + entry.roundedStart ≤ layout.kmmapBase
  · have long : entry.Overlong layout := by
      by_contra short
      exact misplaced ⟨start, fun long => absurd long short⟩
    have partly : ¬ (entry.roundedStart = 0 ∧ entry.roundedSize = 2 ^ 32) := fun whole =>
      misplaced ⟨start, fun _ => whole⟩
    have goes : ¬ Stops layout.toLayout entry := by
      rw [stops_iff, probeTop_eq layout below, probeVaddr_of_le start]
      unfold Overlong at long
      omega
    rw [kernelMapping_size, if_neg goes, probeTop_eq layout below, probeVaddr_of_le start, wrapSub]
    unfold Overlong at long
    omega
  · omega

end Probing

/-! ### The linear mapping -/

theorem upTo_cons (test : E820Entry → Prop) [DecidablePred test] (entry : E820Entry)
    (rest : List E820Entry) :
    upTo test (entry :: rest) = entry :: if test entry then [] else upTo test rest := by
  rw [upTo]
  split <;> rfl

variable {entries : List E820Entry}

/-- Tests that agree on the entries that are taken lead to the same entries. -/
theorem take_upTo_eq {first second : E820Entry → Prop} [DecidablePred first] [DecidablePred second]
    {taken : E820Entry → Prop}
    (agree : ∀ entry ∈ entries, taken entry → (first entry ↔ second entry)) (count : Nat)
    (all : ∀ entry ∈ (upTo first entries).take count, taken entry) :
    (upTo first entries).take count = (upTo second entries).take count := by
  induction entries generalizing count with
  | nil => rfl
  | cons entry rest inductionHypothesis =>
    cases count with
    | zero => rfl
    | succ count =>
      rw [upTo_cons, take_succ_cons] at all
      rw [upTo_cons, upTo_cons, take_succ_cons, take_succ_cons]
      have same := agree entry mem_cons_self (all entry mem_cons_self)
      congr 1
      by_cases stop : first entry
      · rw [if_pos stop, if_pos (same.mp stop)]
      · rw [if_neg stop] at all ⊢
        rw [if_neg fun also => stop (same.mpr also)]
        exact inductionHypothesis (fun other member =>
          agree other (mem_cons_of_mem _ member)) count
          fun other member => all other (mem_cons_of_mem _ member)

theorem mem_of_mem_upTo {test : E820Entry → Prop} [DecidablePred test] {entry : E820Entry}
    (member : entry ∈ upTo test entries) : entry ∈ entries := by
  induction entries with
  | nil => exact member
  | cons first rest inductionHypothesis =>
    rw [upTo_cons, mem_cons] at member
    rcases member with rfl | later
    · exact mem_cons_self
    · split at later
      · exact absurd later not_mem_nil
      · exact mem_cons_of_mem _ (inductionHypothesis later)

theorem mem_mappings {layout : Layout} {mapping : EarlyMapping} :
    mapping ∈ mappings layout entries ↔
      ∃ entry ∈ entries, mapping = kernelMapping layout entry ∨
        mapping = identityMapping layout entry := by
  simp only [mappings, mem_flatMap, mem_cons, not_mem_nil, or_false]

/-- The RAM in the kernel window is mapped to where the kernel expects it, and no mapping of the
kernel window leaves the window or wraps. -/
structure LinearSound (layout : HighLayout) (map : E820Map) (state : EarlyMappings) : Prop where
  covers : ∀ entry ∈ map.ram, ∀ address ∈ entry.region.bytes,
    layout.kernBase + address < layout.kmmapBase → ∃ mapping ∈ state.queue,
      layout.kernBase + address ∈ mapping.region.bytes ∧
        mapping.paddr + (layout.kernBase + address - mapping.vaddr) = address
  bounded : ∀ mapping ∈ state.queue, mapping.vaddr = (layout.kernBase + mapping.paddr) % 2 ^ 32 →
    layout.kernBase + mapping.paddr + mapping.size ≤ layout.kmmapBase

/-- The entries of a map for which there is room, up to the first beyond the window. -/
def queuedEntries (layout : HighLayout) (map : E820Map) : List E820Entry :=
  (upTo (fun entry => entry.Overflows layout) map.ram).take slots

/-- The entries that are queued are in their place and show the RAM in the kernel window. -/
structure Suitable (layout : HighLayout) (map : E820Map) : Prop where
  placed : ∀ entry ∈ queuedEntries layout map, entry.Placed layout
  shows : ∀ entry ∈ map.ram, ∀ address ∈ entry.region.bytes,
    layout.kernBase + address < layout.kmmapBase →
      ∃ other ∈ queuedEntries layout map, address ∈ (other.shown layout).bytes

section Soundness

variable {layout : HighLayout} {entry : E820Entry}

/-- An identity mapping is not a mapping of the kernel window. -/
theorem identityMapping_vaddr_ne (layout : HighLayout) (entry : E820Entry) :
    (identityMapping layout.toLayout entry).vaddr ≠
      (layout.kernBase + (identityMapping layout.toLayout entry).paddr) % 2 ^ 32 := by
  have bounds := layout_bounds layout
  have high := layout.high
  rw [identityMapping]
  dsimp only
  rw [probePaddr_eq]
  omega

theorem shown_inside (placed : entry.Placed layout) :
    layout.kernBase + entry.roundedStart + (entry.shown layout).size ≤ layout.kmmapBase := by
  have start := placed.1
  by_cases long : entry.Overlong layout
  · have size : (entry.shown layout).size = 0 := if_pos long
    omega
  · have size : (entry.shown layout).size =
        min (layout.kmmapBase - (layout.kernBase + entry.roundedStart)) entry.roundedSize :=
          if_neg long
    omega

/-- The mapping of an entry in its place shows what it is to show, where the kernel expects it. -/
theorem kernelMapping_covers_iff (below : entry.start + entry.size ≤ 2 ^ 32)
    (placed : entry.Placed layout) (address : Nat) :
    (layout.kernBase + address ∈ (kernelMapping layout.toLayout entry).region.bytes ∧
      (kernelMapping layout.toLayout entry).paddr +
        (layout.kernBase + address - (kernelMapping layout.toLayout entry).vaddr) = address) ↔
      address ∈ (entry.shown layout).bytes := by
  have base : (entry.shown layout).base = entry.roundedStart := rfl
  rw [kernelMapping_placed below placed, EarlyMapping.region, Region.mem_bytes,
    Region.mem_bytes, base]
  dsimp only
  omega

theorem identityMapping_covers (layout : HighLayout) (entry : E820Entry) (address : Nat)
    (inside : layout.kernBase + address ∈ (identityMapping layout.toLayout entry).region.bytes) :
    (identityMapping layout.toLayout entry).paddr +
      (layout.kernBase + address - (identityMapping layout.toLayout entry).vaddr) ≠ address := by
  have high := layout.high
  have above := (Region.mem_bytes.mp inside).1
  rw [EarlyMapping.region, identityMapping] at above
  rw [identityMapping]
  dsimp only at above ⊢
  omega

/-- What a queue of mappings is worth depends on the entries it was made from. -/
theorem linearSound_iff {map : E820Map}
    (below : ∀ entry ∈ map.ram, entry.start + entry.size ≤ 2 ^ 32)
    (known : ∀ entry ∈ queued, entry ∈ map.ram)
    (queue : state.queue = mappings layout.toLayout queued) :
    state.LinearSound layout map ↔
      (∀ entry ∈ queued, entry.Placed layout) ∧ ∀ entry ∈ map.ram, ∀ address ∈ entry.region.bytes,
          layout.kernBase + address < layout.kmmapBase →
          ∃ other ∈ queued, address ∈ (other.shown layout).bytes := by
  have limits := fun other member => below other (known other member)
  constructor
  · rintro ⟨covers, bounded⟩
    have placed : ∀ entry ∈ queued, entry.Placed layout := by
      intro entry member
      by_contra misplaced
      have inQueue : kernelMapping layout.toLayout entry ∈ state.queue := by
        rw [queue]
        exact mem_mappings.mpr ⟨entry, member, Or.inl rfl⟩
      exact absurd (bounded _ inQueue rfl)
        (not_le.mpr (kernelMapping_of_not_placed (limits entry member) misplaced))
    refine ⟨placed, fun entry member address inside window => ?_⟩
    obtain ⟨mapping, inQueue, covered, right⟩ := covers entry member address inside window
    rw [queue] at inQueue
    obtain ⟨other, also, rfl | rfl⟩ := mem_mappings.mp inQueue
    · exact ⟨other, also,
        (kernelMapping_covers_iff (limits other also) (placed other also) address).mp
        ⟨covered, right⟩⟩
    · exact absurd right (identityMapping_covers layout other address covered)
  · rintro ⟨placed, shows⟩
    refine ⟨fun entry member address inside window => ?_, fun mapping inQueue kernel => ?_⟩
    · obtain ⟨other, also, shown⟩ := shows entry member address inside window
      have inQueue : kernelMapping layout.toLayout other ∈ state.queue := by
        rw [queue]
        exact mem_mappings.mpr ⟨other, also, Or.inl rfl⟩
      exact ⟨_, inQueue,
        (kernelMapping_covers_iff (limits other also) (placed other also) address).mpr shown⟩
    · rw [queue] at inQueue
      obtain ⟨other, also, rfl | rfl⟩ := mem_mappings.mp inQueue
      · rw [kernelMapping_placed (limits other also) (placed other also)]
        exact shown_inside (placed other also)
      · exact absurd kernel (identityMapping_vaddr_ne layout other)

/-- The queue holds the entries up to the first beyond the window, once either list is in its
place. -/
theorem probeMemory_queue {map : E820Map}
    (below : ∀ entry ∈ map.ram, entry.start + entry.size ≤ 2 ^ 32) (memSize : Nat) :
    ∃ after size queued, probeMemory layout.toLayout map (earlyMappingClear layout.toLayout)
        memSize = some (after, size) ∧ after.queue = mappings layout.toLayout queued ∧
      (∀ entry ∈ queued, entry ∈ map.ram) ∧ ((∀ entry ∈ queued, entry.Placed layout) ∨
        (∀ entry ∈ queuedEntries layout map, entry.Placed layout) →
          queued = queuedEntries layout map) := by
  obtain ⟨after, size, done, queue⟩ := @probeLoop_queue _ map.entries []
    (earlyMappingClear layout.toLayout) memSize rfl (zero_le _)
  rw [List.nil_append, List.length_nil, Nat.sub_zero] at queue
  have agree : ∀ entry ∈ map.ram, entry.Placed layout →
      (Stops layout.toLayout entry ↔ entry.Overflows layout) :=
    fun entry member placed => stops_of_placed (below entry member) placed
  refine ⟨after, size, _, done, queue,
    fun entry member => mem_of_mem_upTo (mem_of_mem_take member), ?_⟩
  rintro (placed | placed)
  · exact take_upTo_eq agree slots placed
  · exact (take_upTo_eq (fun entry member inPlace => (agree entry member inPlace).symm) slots
      placed).symm

end Soundness

/-- After `probe_memory` the linear mapping covers the RAM in the kernel window and stays in it
exactly when the map is suitable. -/
theorem linear_mapping_iff (layout : HighLayout) (map : E820Map) (memSize : Nat)
    (below : ∀ entry ∈ map.ram, entry.start + entry.size ≤ 2 ^ 32) :
    (∃ after size, probeMemory layout.toLayout map (earlyMappingClear layout.toLayout) memSize =
        some (after, size) ∧ after.LinearSound layout map) ↔ Suitable layout map := by
  obtain ⟨after, size, queued, done, queue, known, same⟩ := probeMemory_queue below memSize
  have sound := linearSound_iff below known queue
  constructor
  · rintro ⟨other, otherSize, also, holds⟩
    obtain ⟨rfl, -⟩ := Prod.mk.inj (Option.some.inj (done.symm.trans also))
    obtain ⟨placed, shows⟩ := sound.mp holds
    rw [same (Or.inl placed)] at shows placed
    exact ⟨placed, shows⟩
  · rintro ⟨placed, shows⟩
    rw [← same (Or.inr placed)] at shows placed
    exact ⟨after, size, done, sound.mpr ⟨placed, shows⟩⟩

/-- The memory of a machine with 128 MiB. -/
def ordinaryMap : E820Map where
  entries := [⟨0, 0x9f000, 1⟩, ⟨0x100000, 0x7f00000, 1⟩]
  length_le := by decide
  words := by decide

theorem ordinaryMap_suitable : Suitable HighLayout.configured ordinaryMap := by
  have queued : queuedEntries HighLayout.configured ordinaryMap =
      [⟨0, 0x9f000, 1⟩, ⟨0x100000, 0x7f00000, 1⟩] := by
    decide +kernel
  have shown : (E820Entry.shown HighLayout.configured ⟨0x100000, 0x7f00000, 1⟩) =
      ⟨0, 0x8000000⟩ := by
    decide +kernel
  have ram : ordinaryMap.ram = [⟨0, 0x9f000, 1⟩, ⟨0x100000, 0x7f00000, 1⟩] := by decide +kernel
  refine ⟨by rw [queued]; decide +kernel, fun entry member address inside _ => ?_⟩
  rw [queued]
  refine ⟨_, mem_cons_of_mem _ mem_cons_self, ?_⟩
  rw [shown, Region.mem_bytes]
  have place := Region.mem_bytes.mp inside
  rw [ram] at member
  simp only [mem_cons, not_mem_nil, or_false] at member
  rcases member with rfl | rfl <;> dsimp only [E820Entry.region] at place ⊢ <;> omega

theorem linear_mapping_ordinary :
    ∃ after size, probeMemory HighLayout.configured.toLayout ordinaryMap
        (earlyMappingClear HighLayout.configured.toLayout) 0 = some (after, size) ∧
      after.LinearSound HighLayout.configured ordinaryMap :=
  (linear_mapping_iff HighLayout.configured ordinaryMap 0 (by decide +kernel)).mpr
    ordinaryMap_suitable

/-- A map with one entry of two pages across a border of large pages. -/
def acrossMap : E820Map where
  entries := [⟨0x3ff000, 0x2000, 1⟩]
  length_le := by decide
  words := by decide

/-- The end of the mapping is computed from the rounded start, so that the second page of the entry
is not mapped. -/
theorem second_page_not_mapped :
    acrossMap.ram.Pairwise (fun first second => Disjoint first.region.bytes second.region.bytes) ∧
      (∀ entry ∈ acrossMap.ram, entry.start + entry.size ≤ 2 ^ 32) ∧
      ¬ ∃ after size, probeMemory HighLayout.configured.toLayout acrossMap
          (earlyMappingClear HighLayout.configured.toLayout) 0 = some (after, size) ∧
        after.LinearSound HighLayout.configured acrossMap := by
  have ram : acrossMap.ram = [⟨0x3ff000, 0x2000, 1⟩] := by decide +kernel
  refine ⟨by rw [ram]; exact List.pairwise_singleton _ _, by decide +kernel, ?_⟩
  rintro ⟨after, size, done, covers, -⟩
  have queue : (probeMemory HighLayout.configured.toLayout acrossMap
      (earlyMappingClear HighLayout.configured.toLayout) 0).map (fun result => result.1.queue) =
        some [⟨0, 0x80000000, 0x400000, .memory⟩, ⟨0, 0, 0x400000, .memory⟩] := by
    decide +kernel
  rw [done] at queue
  obtain ⟨mapping, member, inside, -⟩ := covers ⟨0x3ff000, 0x2000, 1⟩ (by decide +kernel) 0x400000
    (Region.mem_bytes.mpr (by decide)) (by decide)
  rw [show after.queue = _ from Option.some.inj queue] at member
  have place := Region.mem_bytes.mp inside
  simp only [mem_cons, not_mem_nil, or_false] at member
  rcases member with rfl | rfl <;> revert place <;> decide

end EarlyMappings

end AIMv6
