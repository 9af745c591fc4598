/-
This file models the queue of early mappings. Before the page allocator is up, the start-up
code submits mappings to a queue of ten entries. `early_mapping_add_memory` hands out the
window from `KERN_BASE` to `KMMAP_BASE` from its bottom up, and `early_mapping_add_kmmap` the
window from `KMMAP_BASE` to `RESERVED_BASE`.

The memory side checks its window and clips the size that is asked for. The kmmap side does
not compare the size with the room that is left, and reports an exhausted window by `EOF`,
which is an address like any other to its callers. Exactly the sequences of calls that never
run into one of the two, and that begin by clearing the queue, keep both windows tiled.
-/

import AIMv6.PageAllocator
import AIMv6.Tiling

namespace AIMv6

/-! ### The queue -/

/-- The addresses the configuration chooses, as words of `size_t`. -/
structure Layout where
  abi : Abi
  kernBase : Nat
  kmmapBase : Nat
  reservedBase : Nat
  kernBase_le : kernBase ≤ kmmapBase
  kmmapBase_le : kmmapBase ≤ reservedBase
  reservedBase_lt : reservedBase < abi.modulus

/-- The addresses `configure` chooses when it is not told otherwise. -/
def Layout.configured : Layout where
  abi := .ilp32
  kernBase := 0x80000000
  kmmapBase := 0xf0000000
  reservedBase := 0xfffff000
  kernBase_le := by decide
  kmmapBase_le := by decide
  reservedBase_lt := by decide

/-- The `EARLY_MAPPING_*` types. -/
inductive MappingType where
  | memory
  | kmmap
  | temp
  | other
  deriving DecidableEq, Repr

/-- `struct early_mapping`. -/
structure EarlyMapping where
  paddr : Nat
  vaddr : Nat
  size : Nat
  type : MappingType
  deriving DecidableEq, Repr

/-- The virtual addresses of a mapping. -/
def EarlyMapping.region (mapping : EarlyMapping) : Region := ⟨mapping.vaddr, mapping.size⟩

/-- `EARLY_MAPPING_QUEUE_LENGTH`. -/
def earlyMappingQueueLength : Nat := 10

/-- `__early_mapping_queue` up to `__early_mapping_queue_size`, `__mem_top` and `__kmmap_top`. -/
structure EarlyMappings where
  queue : List EarlyMapping
  memTop : Nat
  kmmapTop : Nat
  deriving DecidableEq, Repr

namespace EarlyMappings

/-- The state in `.bss`. -/
def start : EarlyMappings := ⟨[], 0, 0⟩

/-- The virtual addresses of the queued mappings of a type. -/
def regions (state : EarlyMappings) (type : MappingType) : List Region :=
  (state.queue.filter fun mapping => mapping.type = type).map EarlyMapping.region

/-- `early_mapping_clear`. -/
def earlyMappingClear (layout : Layout) : EarlyMappings := ⟨[], layout.kernBase, layout.kmmapBase⟩

/-- `early_mapping_add`. `none` is the panic. -/
def earlyMappingAdd (state : EarlyMappings) (entry : EarlyMapping) : Option (Int × EarlyMappings) :=
  if state.queue.length > earlyMappingQueueLength then none
  else if state.queue.length = earlyMappingQueueLength then some (eof, state)
  else some (0, { state with queue := state.queue ++ [entry] })

/-- `early_mapping_add_memory`. -/
def earlyMappingAddMemory (layout : Layout) (state : EarlyMappings) (base size : Nat) :
    Option (Nat × EarlyMappings) :=
  if state.memTop ≥ layout.kmmapBase then some (0, state)
  else
    let size := if size > layout.kmmapBase - state.memTop then
      layout.kmmapBase - state.memTop else size
    match state.earlyMappingAdd ⟨base, state.memTop, size, .memory⟩ with
    | none => none
    | some (ret, state) =>
      if ret ≠ 0 then some (0, state)
      else some (size, { state with memTop := (state.memTop + size) % layout.abi.modulus })

/-- `early_mapping_add_kmmap`. `EOF` as a `size_t` is the last word. -/
def earlyMappingAddKmmap (layout : Layout) (state : EarlyMappings) (base size : Nat) :
    Option (Nat × EarlyMappings) :=
  if state.kmmapTop ≥ layout.reservedBase then some (layout.abi.modulus - 1, state)
  else
    match state.earlyMappingAdd ⟨base, state.kmmapTop, size, .kmmap⟩ with
    | none => none
    | some (ret, state) =>
      if ret ≠ 0 then some (0, state)
      else
        let top := (state.kmmapTop + size) % layout.abi.modulus
        some ((layout.abi.modulus + top - size) % layout.abi.modulus,
          { state with kmmapTop := top })

/-! ### What a call can do -/

/-- A call on the queue. -/
inductive Call where
  | clear
  | addMemory (base size : Nat)
  | addKmmap (base size : Nat)
  deriving DecidableEq, Repr

/-- The answer of a call and the queue after it; `early_mapping_clear` answers nothing. -/
def Call.run (layout : Layout) (state : EarlyMappings) : Call → Option (Nat × EarlyMappings)
  | clear => some (0, earlyMappingClear layout)
  | addMemory base size => state.earlyMappingAddMemory layout base size
  | addKmmap base size => state.earlyMappingAddKmmap layout base size

/-- No entry of the queue is left. -/
def Full (state : EarlyMappings) : Prop := state.queue.length = earlyMappingQueueLength

instance (state : EarlyMappings) : Decidable state.Full :=
  inferInstanceAs (Decidable (_ = _))

/-- The size `early_mapping_add_memory` grants: what is asked for, clipped to the window. -/
def granted (layout : Layout) (state : EarlyMappings) (size : Nat) : Nat :=
  min size (layout.kmmapBase - state.memTop)

/-- The queue with one more mapping of memory. -/
def withMemory (layout : Layout) (state : EarlyMappings) (base size : Nat) : EarlyMappings :=
  { state with
    queue := state.queue ++ [⟨base, state.memTop, state.granted layout size, .memory⟩]
    memTop := state.memTop + state.granted layout size }

/-- The queue with one more kmmap mapping. -/
def withKmmap (layout : Layout) (state : EarlyMappings) (base size : Nat) : EarlyMappings :=
  { state with
    queue := state.queue ++ [⟨base, state.kmmapTop, size, .kmmap⟩]
    kmmapTop := (state.kmmapTop + size) % layout.abi.modulus }

section Adding

variable {layout : Layout} {state : EarlyMappings}

theorem add_full (entry : EarlyMapping) (full : state.Full) :
    state.earlyMappingAdd entry = some (eof, state) := by
  have bound : ¬ state.queue.length > earlyMappingQueueLength := full.symm ▸ lt_irrefl _
  rw [earlyMappingAdd, if_neg bound]
  exact if_pos full

theorem add_taken (entry : EarlyMapping) (room : state.queue.length < earlyMappingQueueLength) :
    state.earlyMappingAdd entry = some (0, { state with queue := state.queue ++ [entry] }) := by
  rw [earlyMappingAdd, if_neg (not_lt.mpr room.le), if_neg room.ne]

section Queues

variable (base size : Nat)

include base size

theorem addMemory_exhausted (exhausted : layout.kmmapBase ≤ state.memTop) :
    (Call.addMemory base size).run layout state = some (0, state) :=
  if_pos exhausted

theorem addMemory_full (full : state.Full) :
    (Call.addMemory base size).run layout state = some (0, state) := by
  simp only [Call.run, earlyMappingAddMemory, add_full _ full, eof, ne_eq, reduceCtorEq,
    not_false_eq_true, if_true, ite_self]

theorem addMemory_taken (room : state.queue.length < earlyMappingQueueLength)
    (window : state.memTop < layout.kmmapBase) :
    (Call.addMemory base size).run layout state =
      some (state.granted layout size, state.withMemory layout base size) := by
  have clip : (if size > layout.kmmapBase - state.memTop then layout.kmmapBase - state.memTop
      else size) = state.granted layout size := by
    unfold granted
    split <;> omega
  have fits : state.memTop + state.granted layout size < layout.abi.modulus := by
    have order := layout.kmmapBase_le
    have top := layout.reservedBase_lt
    unfold granted
    omega
  simp only [Call.run, earlyMappingAddMemory, if_neg (not_le.mpr window), clip,
    add_taken _ room, ne_eq, not_true_eq_false, if_false, Nat.mod_eq_of_lt fits, withMemory]

theorem addKmmap_exhausted (exhausted : layout.reservedBase ≤ state.kmmapTop) :
    (Call.addKmmap base size).run layout state = some (layout.abi.modulus - 1, state) :=
  if_pos exhausted

theorem addKmmap_full (full : state.Full) (window : state.kmmapTop < layout.reservedBase) :
    (Call.addKmmap base size).run layout state = some (0, state) := by
  simp only [Call.run, earlyMappingAddKmmap, if_neg (not_le.mpr window),
    add_full _ full, eof, ne_eq, reduceCtorEq, not_false_eq_true, if_true]

theorem addKmmap_taken (room : state.queue.length < earlyMappingQueueLength)
    (window : state.kmmapTop < layout.reservedBase) :
    (Call.addKmmap base size).run layout state =
      some ((layout.abi.modulus + (state.kmmapTop + size) % layout.abi.modulus - size) %
        layout.abi.modulus, state.withKmmap layout base size) := by
  simp only [Call.run, earlyMappingAddKmmap, if_neg (not_le.mpr window), add_taken _ room, ne_eq,
    not_true_eq_false, if_false, withKmmap]

end Queues

end Adding

/-! ### The windows -/

/-- The mappings of each type tile the part of their window below its top, and no two mappings
overlap. -/
structure Tiled (layout : Layout) (state : EarlyMappings) : Prop where
  memory : Tiling (Set.Ico layout.kernBase state.memTop) (state.regions .memory)
  memTop_le : state.memTop ≤ layout.kmmapBase
  kmmap : Tiling (Set.Ico layout.kmmapBase state.kmmapTop) (state.regions .kmmap)
  kmmapTop_le : state.kmmapTop ≤ layout.reservedBase
  apart : state.queue.Pairwise fun first second => Disjoint first.region.bytes second.region.bytes

/-- A call that asks for what is not there: an exhausted window or a full queue. -/
def Call.Unsatisfiable (layout : Layout) (state : EarlyMappings) : Call → Prop
  | clear => False
  | addMemory _ _ => layout.kmmapBase ≤ state.memTop ∨ state.Full
  | addKmmap _ size =>
    layout.reservedBase ≤ state.kmmapTop ∨ layout.reservedBase - state.kmmapTop < size ∨ state.Full

/-- A sequence of calls that keeps the windows tiled after every call, and in which a call that
cannot be satisfied answers `0` and changes nothing. -/
def Sound (layout : Layout) : EarlyMappings → List Call → Prop
  | state, [] => state.Tiled layout
  | state, call :: rest =>
    state.Tiled layout ∧
      (call.Unsatisfiable layout state → call.run layout state = some (0, state)) ∧
      ∃ answer next, call.run layout state = some (answer, next) ∧ Sound layout next rest

/-- A call that the code carries out as it should: the window has been set up by
`early_mapping_clear` before something is taken from it, and `early_mapping_add_kmmap` is called
only while its window has room, for at most the room there is. -/
def Call.Proper (layout : Layout) (state : EarlyMappings) : Call → Prop
  | clear => True
  | addMemory _ size => layout.kernBase ≤ state.memTop ∨ size = 0 ∨ state.Full
  | addKmmap _ size =>
    state.kmmapTop < layout.reservedBase ∧
      (state.Full ∨ size = 0 ∨
        layout.kmmapBase ≤ state.kmmapTop ∧ size ≤ layout.reservedBase - state.kmmapTop)

/-- Every call of a sequence is proper in the state it is made in. -/
def AllProper (layout : Layout) : EarlyMappings → List Call → Prop
  | _, [] => True
  | state, call :: rest =>
    call.Proper layout state ∧
      ∀ answer next, call.run layout state = some (answer, next) → AllProper layout next rest

/-! ### One call -/

/-- What every proper sequence keeps: the windows are tiled by a queue of memory and kmmap mappings
that is not longer than its array. -/
structure Invariant (layout : Layout) (state : EarlyMappings) :
    Prop extends state.Tiled layout where
  types : ∀ mapping ∈ state.queue, mapping.type = .memory ∨ mapping.type = .kmmap
  short : state.queue.length ≤ earlyMappingQueueLength

section Invariants

variable {layout : Layout} {state : EarlyMappings}

theorem Invariant.clear (layout : Layout) : (earlyMappingClear layout).Invariant layout where
  memory := by simpa [earlyMappingClear, regions] using Tiling.nil
  memTop_le := layout.kernBase_le
  kmmap := by simpa [earlyMappingClear, regions] using Tiling.nil
  kmmapTop_le := layout.kmmapBase_le
  apart := List.Pairwise.nil
  types := by simp [earlyMappingClear]
  short := Nat.zero_le _

theorem Invariant.start (layout : Layout) : EarlyMappings.start.Invariant layout where
  memory := by simpa [EarlyMappings.start, regions] using Tiling.nil
  memTop_le := Nat.zero_le _
  kmmap := by simpa [EarlyMappings.start, regions] using Tiling.nil
  kmmapTop_le := Nat.zero_le _
  apart := List.Pairwise.nil
  types := by simp [EarlyMappings.start]
  short := Nat.zero_le _

variable {mapping entry : EarlyMapping} {base top size : Nat}

theorem mem_regions (member : mapping ∈ state.queue) :
    mapping.region ∈ state.regions mapping.type :=
  List.mem_map_of_mem (List.mem_filter.mpr ⟨member, decide_eq_true rfl⟩)

/-- Every mapping lies below one of the two tops. -/
theorem Invariant.inside (invariant : state.Invariant layout) (member : mapping ∈ state.queue) :
    mapping.region.bytes ⊆ Set.Ico layout.kernBase state.memTop ∨
      mapping.region.bytes ⊆ Set.Ico layout.kmmapBase state.kmmapTop := by
  have listed := mem_regions member
  rcases invariant.types mapping member with memory | kmmap
  · rw [memory] at listed
    exact Or.inl (invariant.memory.subset listed)
  · rw [kmmap] at listed
    exact Or.inr (invariant.kmmap.subset listed)

theorem Ico_union_bytes (above : base ≤ top ∨ size = 0) :
    (⟨top, size⟩ : Region).bytes ∪ Set.Ico base top = Set.Ico base (top + size) := by
  ext address
  simp only [Set.mem_union, Region.mem_bytes, Set.mem_Ico]
  omega

theorem disjoint_bytes_Ico (base top size : Nat) :
    Disjoint (⟨top, size⟩ : Region).bytes (Set.Ico base top) := by
  rw [Set.disjoint_left]
  rintro address ⟨above, -⟩ ⟨-, below⟩
  exact absurd above (not_le.mpr below)

theorem tiling_grow {tiles : List Region} (tiling : Tiling (Set.Ico base top) tiles)
    (above : base ≤ top ∨ size = 0) :
    Tiling (Set.Ico base (top + size)) (tiles ++ [⟨top, size⟩]) := by
  have grown := tiling.add (disjoint_bytes_Ico base top size)
  rw [Ico_union_bytes above] at grown
  exact grown.perm (List.perm_append_singleton _ _).symm

section Adding

variable (invariant : state.Invariant layout)

include invariant

/-- The queue with one more mapping that is apart from both windows' mappings. -/
theorem Invariant.apart_concat
    (memory : Disjoint (Set.Ico layout.kernBase state.memTop) entry.region.bytes)
    (kmmap : Disjoint (Set.Ico layout.kmmapBase state.kmmapTop) entry.region.bytes) :
    (state.queue ++ [entry]).Pairwise fun first second =>
      Disjoint first.region.bytes second.region.bytes := by
  refine List.pairwise_append.mpr ⟨invariant.apart, List.pairwise_singleton _ _, ?_⟩
  intro mapping member other otherMember
  rw [List.mem_singleton.mp otherMember]
  rcases invariant.inside member with inside | inside
  · exact memory.mono_left inside
  · exact kmmap.mono_left inside

theorem Invariant.types_concat (type : entry.type = .memory ∨ entry.type = .kmmap) :
    ∀ mapping ∈ state.queue ++ [entry], mapping.type = .memory ∨ mapping.type = .kmmap := by
  intro mapping member
  rcases List.mem_append.mp member with old | new
  · exact invariant.types mapping old
  · rwa [List.mem_singleton.mp new]

theorem Invariant.withMemory (base size : Nat) (room : state.queue.length < earlyMappingQueueLength)
    (above : layout.kernBase ≤ state.memTop ∨ size = 0) :
    (state.withMemory layout base size).Invariant layout := by
  have bound := invariant.memTop_le
  have limit : state.memTop + state.granted layout size ≤ layout.kmmapBase := by
    unfold granted
    omega
  have placed : layout.kernBase ≤ state.memTop ∨ state.granted layout size = 0 := by
    unfold granted
    omega
  refine ⟨⟨?_, limit, ?_, invariant.kmmapTop_le, ?_⟩, ?_, ?_⟩
  · simpa [regions, EarlyMappings.withMemory, EarlyMapping.region] using tiling_grow
      invariant.memory placed
  · simpa [regions, EarlyMappings.withMemory] using invariant.kmmap
  · refine invariant.apart_concat (disjoint_bytes_Ico _ _ _).symm ?_
    rw [Set.disjoint_left]
    rintro address ⟨high, -⟩ ⟨-, low⟩
    exact absurd (high.trans_lt low) (not_lt.mpr limit)
  · exact invariant.types_concat (Or.inl rfl)
  · simpa [EarlyMappings.withMemory] using room

theorem Invariant.withKmmap (base size : Nat) (room : state.queue.length < earlyMappingQueueLength)
    (above : layout.kmmapBase ≤ state.kmmapTop ∨ size = 0)
    (fits : size ≤ layout.reservedBase - state.kmmapTop) :
    (state.withKmmap layout base size).Invariant layout := by
  have bound := invariant.kmmapTop_le
  have limit : state.kmmapTop + size ≤ layout.reservedBase := by omega
  have word : (state.kmmapTop + size) % layout.abi.modulus = state.kmmapTop + size :=
    Nat.mod_eq_of_lt (limit.trans_lt layout.reservedBase_lt)
  refine ⟨⟨?_, invariant.memTop_le, ?_, ?_, ?_⟩, ?_, ?_⟩
  · simpa [regions, EarlyMappings.withKmmap] using invariant.memory
  · simpa [regions, EarlyMappings.withKmmap, EarlyMapping.region, word] using
      tiling_grow invariant.kmmap above
  · simpa only [EarlyMappings.withKmmap, word] using limit
  · refine invariant.apart_concat ?_ (disjoint_bytes_Ico _ _ _).symm
    rw [Set.disjoint_left]
    rintro address ⟨-, low⟩ ⟨high, below⟩
    have order := invariant.memTop_le
    have start : state.kmmapTop ≤ address := high
    have stop : address < state.kmmapTop + size := below
    omega
  · exact invariant.types_concat (Or.inr rfl)
  · simpa [EarlyMappings.withKmmap] using room

theorem Invariant.full_or_room : state.Full ∨ state.queue.length < earlyMappingQueueLength :=
  invariant.short.eq_or_lt

/-- A proper call keeps the invariant, and answers `0` and changes nothing when it cannot be
satisfied. -/
theorem Invariant.step {call : Call} (proper : call.Proper layout state) :
    (call.Unsatisfiable layout state → call.run layout state = some (0, state)) ∧
      ∃ answer next, call.run layout state = some (answer, next) ∧ next.Invariant layout := by
  rcases call with _ | ⟨base, size⟩ | ⟨base, size⟩
  · exact ⟨False.elim, _, _, rfl, Invariant.clear layout⟩
  · by_cases exhausted : layout.kmmapBase ≤ state.memTop
    · have call : (Call.addMemory base size).run layout state = some (0, state) :=
        addMemory_exhausted base size exhausted
      exact ⟨fun _ => call, _, _, call, invariant⟩
    rcases invariant.full_or_room with full | room
    · have call : (Call.addMemory base size).run layout state = some (0, state) :=
        addMemory_full base size full
      exact ⟨fun _ => call, _, _, call, invariant⟩
    · refine ⟨fun refused => ?_, _, _, addMemory_taken base size room (not_le.mp exhausted), ?_⟩
      · exact absurd refused (not_or.mpr ⟨exhausted, room.ne⟩)
      · refine invariant.withMemory base size room ?_
        rcases proper with above | empty | full
        · exact Or.inl above
        · exact Or.inr empty
        · exact absurd full room.ne
  · obtain ⟨window, proper⟩ := proper
    rcases invariant.full_or_room with full | room
    · have call : (Call.addKmmap base size).run layout state = some (0, state) :=
        addKmmap_full base size full window
      exact ⟨fun _ => call, _, _, call, invariant⟩
    · have fits : (layout.kmmapBase ≤ state.kmmapTop ∨ size = 0) ∧
          size ≤ layout.reservedBase - state.kmmapTop := by
        rcases proper with full | rfl | ⟨above, fits⟩
        · exact absurd full room.ne
        · exact ⟨Or.inr rfl, Nat.zero_le _⟩
        · exact ⟨Or.inl above, fits⟩
      refine ⟨fun refused => ?_, _, _, addKmmap_taken base size room window,
        invariant.withKmmap base size room fits.1 fits.2⟩
      rcases refused with exhausted | large | full
      · exact absurd window (not_lt.mpr exhausted)
      · exact absurd fits.2 (not_le.mpr large)
      · exact absurd full room.ne

end Adding

/-- A mapping of a nonempty range that begins below the base of its window. -/
theorem not_tiling_below {bottom : Nat} {whole : List Region} (below : bottom < base)
    (nonempty : size ≠ 0) (member : ⟨bottom, size⟩ ∈ whole) :
    ¬ Tiling (Set.Ico base top) whole := by
  intro tiling
  have first : bottom ∈ (⟨bottom, size⟩ : Region).bytes :=
    ⟨le_rfl, Nat.lt_add_of_pos_right (Nat.pos_of_ne_zero nonempty)⟩
  exact absurd (tiling.subset member first).1 (not_le.mpr below)

/-- A call that is not proper breaks the windows, or does not answer as it should. -/
theorem Invariant.proper_of_sound (invariant : state.Invariant layout) {call : Call}
    (answers : call.Unsatisfiable layout state → call.run layout state = some (0, state))
    {answer : Nat} {next : EarlyMappings} (ran : call.run layout state = some (answer, next))
    (tiled : next.Tiled layout) : call.Proper layout state := by
  rcases call with _ | ⟨base, size⟩ | ⟨base, size⟩
  · exact trivial
  · by_contra improper
    obtain ⟨below, nonempty, notFull⟩ : ¬ layout.kernBase ≤ state.memTop ∧ size ≠ 0 ∧
      ¬ state.Full := by
      simpa only [Call.Proper, not_or] using improper
    have order := layout.kernBase_le
    have room := invariant.full_or_room.resolve_left notFull
    rw [addMemory_taken base size room (by omega)] at ran
    obtain ⟨-, rfl⟩ := Prod.mk.inj (Option.some.inj ran)
    have taken : state.granted layout size ≠ 0 := by
      unfold granted
      omega
    refine not_tiling_below (not_le.mp below) taken ?_ tiled.memory
    simp [regions, EarlyMappings.withMemory, EarlyMapping.region]
  · have window : state.kmmapTop < layout.reservedBase := by
      by_contra exhausted
      have refused := answers (Or.inl (not_lt.mp exhausted))
      rw [addKmmap_exhausted base size (not_lt.mp exhausted)] at refused
      have zero := (Prod.mk.inj (Option.some.inj refused)).1
      have wide : 1 < layout.abi.modulus := by cases layout.abi <;> decide
      omega
    refine ⟨window, ?_⟩
    rcases invariant.full_or_room with full | room
    · exact Or.inl full
    have taken := addKmmap_taken base size room window
    by_cases large : layout.reservedBase - state.kmmapTop < size
    · have refused := answers (Or.inr (Or.inl large))
      rw [taken] at refused
      have same := congrArg (fun state => state.queue.length)
        (Prod.mk.inj (Option.some.inj refused)).2
      simp [EarlyMappings.withKmmap] at same
    by_cases empty : size = 0
    · exact Or.inr (Or.inl empty)
    refine Or.inr (Or.inr ⟨?_, not_lt.mp large⟩)
    by_contra below
    rw [taken] at ran
    obtain ⟨-, rfl⟩ := Prod.mk.inj (Option.some.inj ran)
    refine not_tiling_below (not_le.mp below) empty ?_ tiled.kmmap
    simp [regions, EarlyMappings.withKmmap, EarlyMapping.region]

/-! ### Sequences of calls -/

theorem Sound.tiled {calls : List Call} (sound : Sound layout state calls) :
    state.Tiled layout := by
  cases calls with
  | nil => exact sound
  | cons call rest => exact sound.1

theorem Invariant.sound_iff (calls : List Call) (invariant : state.Invariant layout) :
    Sound layout state calls ↔ AllProper layout state calls := by
  induction calls generalizing state with
  | nil => exact iff_of_true invariant.toTiled trivial
  | cons call rest inductionHypothesis =>
    constructor
    · rintro ⟨-, answers, answer, next, ran, sound⟩
      have proper := invariant.proper_of_sound answers ran sound.tiled
      obtain ⟨-, answer', next', ran', kept⟩ := invariant.step proper
      refine ⟨proper, fun _ other call => ?_⟩
      cases ran.symm.trans ran'
      cases ran.symm.trans call
      exact (inductionHypothesis kept).mp sound
    · rintro ⟨proper, later⟩
      obtain ⟨answers, answer, next, ran, kept⟩ := invariant.step proper
      exact ⟨invariant.toTiled, answers, answer, next, ran,
        (inductionHypothesis kept).mpr (later answer next ran)⟩

end Invariants

/-- Over every sequence of calls the windows stay tiled, and calls that cannot be satisfied answer
`0` and change nothing, exactly when every call is proper. -/
theorem windows_tiled_iff (layout : Layout) (calls : List Call) :
    Sound layout start calls ↔ AllProper layout start calls :=
  (Invariant.start layout).sound_iff calls

/-- In the configured layout, a mapping of 256 MB at the bottom of the kmmap window is queued
although the window is a page smaller, and the top wraps to `0`; and when the window is used up the
answer is `EOF`. -/
theorem kmmap_window_overrun :
    ¬ Sound .configured start [.clear, .addKmmap 0xe0000000 0x10000000] ∧
      Call.run .configured (earlyMappingClear .configured) (.addKmmap 0xe0000000 0x10000000) =
        some (0xf0000000, ⟨[⟨0xe0000000, 0xf0000000, 0x10000000, .kmmap⟩], 0x80000000, 0⟩) ∧
      Call.run .configured ⟨[⟨0xe0000000, 0xf0000000, 0x0ffff000, .kmmap⟩], 0x80000000, 0xfffff000⟩
        (.addKmmap 0xe0000000 1) =
        some (0xffffffff, ⟨[⟨0xe0000000, 0xf0000000, 0x0ffff000, .kmmap⟩], 0x80000000,
          0xfffff000⟩) := by
  refine ⟨fun sound => ?_, by decide +kernel, by decide +kernel⟩
  have proper := ((Invariant.start .configured).sound_iff _).mp sound
  obtain ⟨-, bad⟩ := (proper.2 0 (earlyMappingClear .configured) rfl).1
  rcases bad with full | zero | ⟨-, fits⟩
  · exact absurd full (by decide)
  · exact absurd zero (by decide)
  · exact absurd fits (by decide)

end EarlyMappings

end AIMv6
