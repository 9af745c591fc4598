/-
This file follows the device list through every run of `dev_add` and `dev_remove`.

Between the calls the rest of the kernel may write anywhere but to the list head and to the
entries that are allocated. A run keeps the devices that were added and not successfully
removed, in the order of their additions. The list in memory is that list sorted by the
device numbers, as long as no device is added while it is listed; and when no device is added
without its bus, none can lose its bus.
-/

import AIMv6.DeviceList

namespace AIMv6

open List Nat BitVec

namespace DeviceList

/-- The memory, the entries that are allocated, and the devices added and not successfully removed
in the order of their additions. -/
structure Usage where
  mem : Memory
  live : List Nat
  present : List Nat

/-- A step of a run: a call, with the answer of `kmalloc` should it be asked, or what the rest of
the kernel makes of the memory in between. -/
inductive Call where
  | add (dev : Nat) (answer : Option Nat)
  | remove (dev : Nat)
  | write (mem : Memory)

section Runs

variable (abi : Abi) (head : Nat) (devices : Nat → Device)

/-- The effect of a step. -/
def Call.run (fuel : Nat) (usage : Usage) : Call → Option Usage
  | add dev answer =>
    (devAdd abi head devices fuel dev answer usage.mem).map fun result =>
      if result.1 = 0 then ⟨result.2, answer.toList ++ usage.live, usage.present ++ [dev]⟩
      else { usage with mem := result.2 }
  | remove dev =>
    (devRemove abi head devices fuel dev usage.mem).map fun result =>
      { mem := result.2.2
        live := usage.live.filter fun entry => entry ∉ result.2.1
        present := if result.1 = (0 : Int) then usage.present.erase dev else usage.present }
  | write mem => some { usage with mem }

/-- The cells of the list head and of the entries that are allocated. -/
def Usage.reserved (usage : Usage) : Set Nat :=
  {address | address = head ∨ address = head + abi.wordSize ∨
    ∃ entry ∈ usage.live, entry ≤ address ∧ address < entry + entrySize abi}

/-- What the surroundings promise: a device is not `NULL`, `kmalloc` answers with memory that is
not in use, and what is reserved is left alone. -/
def Call.Proper (usage : Usage) : Call → Prop
  | add dev answer => dev ≠ 0 ∧ ∀ this ∈ answer, Apart abi head (this :: usage.live)
  | remove _ => True
  | write mem => Set.EqOn mem usage.mem (usage.reserved abi head)

/-- No device is added while it is listed. -/
def Call.Once (usage : Usage) : Call → Prop
  | add dev _ => dev ∉ usage.present
  | remove _ => True
  | write _ => True

/-- A loop over the list comes by the device. -/
def Listed (mem : Memory) (dev : Nat) : Prop :=
  ∃ fuel devs, contents abi head mem fuel (mem head) = some devs ∧ dev ∈ devs

/-- A device is added while its bus is listed. -/
def Call.OnBus (usage : Usage) : Call → Prop
  | add dev _ => (devices dev).bus = 0 ∨ Listed abi head usage.mem (devices dev).bus
  | remove _ => True
  | write _ => True

/-- The steps of the runs in which every step is allowed where it is made. -/
def Step (allowed : Usage → Call → Prop) (before after : Usage) : Prop :=
  ∃ call fuel, allowed before call ∧ Call.run abi head devices fuel before call = some after

/-- The states of the runs that begin with the list head as it is compiled in. -/
def Reachable (allowed : Usage → Call → Prop) (usage : Usage) : Prop :=
  ∃ mem, mem head = head ∧ mem (head + abi.wordSize) = head ∧
    Relation.ReflTransGen (Step abi head devices allowed) ⟨mem, [], []⟩ usage

end Runs

variable {abi : Abi} {head fuel dev : Nat} {devices : Nat → Device} {mem : Memory}
  {usage after : Usage} {entries : List Nat}

/-! ### The list during a run -/

/-- What holds in every state: the list consists of the entries that are allocated, and it lists
the devices that are present. -/
structure Holds (abi : Abi) (head : Nat) (usage : Usage) (entries : List Nat) : Prop where
  represents : Represents abi head usage.mem entries
  live : usage.live.Perm entries
  present : (entries.map usage.mem).Perm usage.present
  nonnull : 0 ∉ usage.present

/-- What one step can do to the list. -/
inductive Effect (abi : Abi) (head : Nat) (devices : Nat → Device) (before after : Usage)
    (entries : List Nat) : Call → Prop
  | added {dev this : Nat} {front back : List Nat} (split : entries = front ++ back)
    (notGreater : ∀ place ∈ front, key (devices (before.mem place)) ≤ key (devices dev))
    (greater : ∀ place ∈ back.head?, key (devices dev) < key (devices (before.mem place)))
    (devs : (front ++ this :: back).map after.mem =
      front.map before.mem ++ dev :: back.map before.mem)
    (present : after.present = before.present ++ [dev])
    (holds : Holds abi head after (front ++ this :: back)) :
    Effect abi head devices before after entries (.add dev (some this))
  | removed {dev this : Nat} {front back : List Nat} (split : entries = front ++ this :: back)
    (free : ∀ place ∈ entries, (devices (before.mem place)).bus ≠ dev)
    (devs : entries.map before.mem = front.map before.mem ++ dev :: back.map before.mem)
    (kept : (front ++ back).map after.mem = front.map before.mem ++ back.map before.mem)
    (present : after.present = before.present.erase dev)
    (holds : Holds abi head after (front ++ back)) :
    Effect abi head devices before after entries (.remove dev)
  | unchanged {call : Call} (devs : entries.map after.mem = entries.map before.mem)
    (present : after.present = before.present) (holds : Holds abi head after entries) :
    Effect abi head devices before after entries call

variable {more this pos : Nat} {call : Call} {answer : Option Nat}

theorem devAdd_mono {result : Int × Memory} (bound : fuel ≤ more)
    (returned : devAdd abi head devices fuel dev answer mem = some result) :
    devAdd abi head devices more dev answer mem = some result := by
  rcases answer with _ | this
  · exact returned
  · rw [devAdd] at returned ⊢
    split at returned
    · cases returned
    · rename_i found
      simp only [Ring.seek_mono bound found]
      exact returned

theorem removeScan_mono {result : Option Nat} (bound : fuel ≤ more)
    (returned : removeScan abi head devices dev mem fuel pos this = some result) :
    removeScan abi head devices dev mem more pos this = some result := by
  induction fuel generalizing more pos this with
  | zero => cases returned
  | succ fuel inductionHypothesis =>
    obtain ⟨rest, rfl⟩ := Nat.exists_eq_add_of_le' (one_le_of_lt bound)
    rw [removeScan] at returned ⊢
    split at returned
    · rename_i atHead
      rw [if_pos atHead, returned]
    · rename_i further
      rw [if_neg further]
      dsimp only at returned ⊢
      split at returned
      · rename_i connected
        rw [if_pos connected, returned]
      · rename_i unconnected
        rw [if_neg unconnected]
        exact inductionHypothesis (le_of_succ_le_succ bound) returned

theorem devRemove_mono {result : Int × Option Nat × Memory} (bound : fuel ≤ more)
    (returned : devRemove abi head devices fuel dev mem = some result) :
    devRemove abi head devices more dev mem = some result := by
  rw [devRemove] at returned ⊢
  split at returned
  · cases returned
  · rename_i scan
    simp only [removeScan_mono bound scan]
    exact returned
  · rename_i scan
    simp only [removeScan_mono bound scan]
    exact returned

theorem Holds.nodup (holds : Holds abi head usage entries) : entries.Nodup :=
  (nodup_cons.mp holds.represents.ring.separate.nodup).2.of_map

theorem add_effect (holds : Holds abi head usage entries)
    (proper : Call.Proper abi head usage (.add dev answer))
    (returned : Call.run abi head devices fuel usage (.add dev answer) = some after) :
    Effect abi head devices usage after entries (.add dev answer) := by
  obtain ⟨result, call, rfl⟩ := Option.map_eq_some_iff.mp returned
  rcases answer with _ | this
  · cases call
    exact .unchanged rfl rfl holds
  have fresh := (proper.2 this rfl).perm (holds.live.cons this)
  obtain ⟨front, back, memory, rfl, notGreater, greater, done, represents, here, others⟩ :=
    devAdd_spec holds.represents fresh (lt_of_lt_of_le (lt_succ_self _) (le_max_right fuel _))
  have same := (devAdd_mono (le_max_left fuel _) call).symm.trans done
  obtain rfl := Option.some.inj same
  have devs : (front ++ this :: back).map memory =
      front.map usage.mem ++ dev :: back.map usage.mem := by
    rw [map_append, map_cons, here]
    exact congrArg₂ _ (map_congr_left fun place member =>
      others place (mem_append_left _ member)) (congrArg _ (map_congr_left
        fun place member => others place (mem_append_right _ member)))
  refine .added rfl notGreater greater devs rfl ⟨represents, ?_, ?_, ?_⟩
  · exact (holds.live.cons this).trans perm_middle.symm
  · show ((front ++ this :: back).map memory).Perm (usage.present ++ [dev])
    rw [devs]
    have old := holds.present
    rw [map_append] at old
    exact perm_middle.trans ((old.cons dev).trans (perm_append_singleton dev _).symm)
  · intro member
    rcases mem_append.mp member with old | new
    · exact holds.nonnull old
    · exact proper.1 (mem_singleton.mp new).symm

theorem remove_effect (holds : Holds abi head usage entries)
    (returned : Call.run abi head devices fuel usage (.remove dev) = some after) :
    Effect abi head devices usage after entries (.remove dev) := by
  obtain ⟨result, call, rfl⟩ := Option.map_eq_some_iff.mp returned
  have enough : entries.length < max fuel (entries.length + 1) :=
    lt_of_lt_of_le (lt_succ_self _) (le_max_right fuel _)
  replace call := devRemove_mono (le_max_left fuel (entries.length + 1)) call
  rcases devRemove_spec holds.represents enough with
    ⟨-, failed⟩ | ⟨free, front, this, back, memory, rfl, here, done, represents, others⟩
  · obtain rfl := Option.some.inj (call.symm.trans failed)
    refine .unchanged rfl rfl ⟨holds.represents, ?_, holds.present, holds.nonnull⟩
    simpa using holds.live
  · obtain rfl := Option.some.inj (call.symm.trans done)
    have devs : (front ++ this :: back).map usage.mem =
        front.map usage.mem ++ dev :: back.map usage.mem := by
      rw [map_append, map_cons, here]
    have kept : (front ++ back).map memory = front.map usage.mem ++ back.map usage.mem := by
      rw [← map_append]
      exact map_congr_left others
    refine .removed rfl free devs kept rfl ⟨represents, ?_, ?_, ?_⟩
    · have distinct := nodup_middle.mp holds.nodup
      have gone : (this :: (front ++ back)).filter (fun entry => entry ∉ some this) =
          front ++ back := by
        rw [filter_cons_of_neg (by simp), filter_eq_self]
        intro entry member
        have different : entry ≠ this := fun same => (nodup_cons.mp distinct).1 (same ▸ member)
        simpa using different.symm
      rw [← gone]
      exact (holds.live.trans perm_middle).filter _
    · show ((front ++ back).map memory).Perm (usage.present.erase dev)
      have old := (perm_middle.symm.trans (devs ▸ holds.present)).erase dev
      rw [erase_cons_head] at old
      rw [kept]
      exact old
    · exact fun member => holds.nonnull (mem_of_mem_erase member)

theorem write_effect {memory : Memory} (holds : Holds abi head usage entries)
    (proper : Call.Proper abi head usage (.write memory)) :
    Effect abi head devices usage { usage with mem := memory } entries (.write memory) := by
  have size := abi.wordSize_pos
  have cell : ∀ entry ∈ entries, ∀ offset < entrySize abi,
      memory (entry + offset) = usage.mem (entry + offset) := fun entry member offset bound =>
    proper (Or.inr (Or.inr ⟨entry, holds.live.mem_iff.mpr member, by omega, by omega⟩))
  have devs : entries.map memory = entries.map usage.mem :=
    map_congr_left fun entry member => cell entry member 0 (by unfold entrySize; omega)
  refine .unchanged devs rfl ⟨holds.represents.congr fun link member => ?_, holds.live, ?_,
    holds.nonnull⟩
  · rcases mem_cons.mp member with rfl | inside
    · exact ⟨proper (Or.inl rfl), proper (Or.inr (Or.inl rfl))⟩
    · obtain ⟨entry, entryMember, rfl⟩ := mem_map.mp inside
      have first := cell entry entryMember abi.wordSize (by unfold entrySize; omega)
      have second := cell entry entryMember (abi.wordSize + abi.wordSize)
        (by unfold entrySize; omega)
      rw [← add_assoc] at second
      exact ⟨first, second⟩
  · show (entries.map memory).Perm usage.present
    rw [devs]
    exact holds.present

theorem step_effect (holds : Holds abi head usage entries) (proper : call.Proper abi head usage)
    (returned : call.run abi head devices fuel usage = some after) :
    Effect abi head devices usage after entries call := by
  cases call with
  | add dev answer => exact add_effect holds proper returned
  | remove dev => exact remove_effect holds returned
  | write memory =>
    cases returned
    exact write_effect holds proper

theorem holds_start (empty : mem head = head ∧ mem (head + abi.wordSize) = head) :
    Holds abi head ⟨mem, [], []⟩ [] := by
  have size := abi.wordSize_pos
  refine ⟨⟨⟨⟨empty, rfl⟩, ⟨by simp, ?_⟩⟩, ⟨List.Pairwise.nil, nofun⟩⟩, List.Perm.refl _,
    List.Perm.refl _, nofun⟩
  intro first firstMember second secondMember
  rw [map_nil, mem_singleton] at firstMember secondMember
  omega

/-! ### The order of the list -/

/-- The list shows the devices that are present, sorted, and the calls find their way in it. -/
structure Indexed (abi : Abi) (head : Nat) (devices : Nat → Device) (usage : Usage)
    (devs : List Nat) : Prop where
  walks : ∀ fuel > devs.length, contents abi head usage.mem fuel (usage.mem head) = some devs
  exactly : devs.Perm usage.present
  order : StablySorted (fun dev => key (devices dev)) usage.present devs
  nonnull : 0 ∉ usage.present
  fromId : ∀ fuel > devs.length, ∀ major minor,
    devFromId abi head devices fuel major minor usage.mem =
      some ((usage.present.find? fun dev => (devices dev).idMajor.signExtend abi.bits = major ∧
        (devices dev).idMinor.signExtend abi.bits = minor).getD 0)
  fromName : ∀ fuel > devs.length, ∀ name, ∃ found,
    devFromName abi head devices fuel name usage.mem = some found ∧
      ((found ∈ usage.present ∧ (devices found).name = name) ∨
        found = 0 ∧ ∀ dev ∈ usage.present, (devices dev).name ≠ name)
  adds : ∀ fuel > devs.length, ∀ dev this, Apart abi head (this :: usage.live) →
    ∃ after, devAdd abi head devices fuel dev (some this) usage.mem = some (0, after)
  removes : ∀ fuel > devs.length, ∀ dev, ∃ retval freed after,
    devRemove abi head devices fuel dev usage.mem = some (retval, freed, after) ∧
      (retval = 0 ∨ retval = eof ∧ freed = none ∧ after = usage.mem)

/-- Extending an `int` to `unsigned long` loses nothing. -/
theorem signExtend_inj (abi : Abi) {first second : BitVec 32} :
    first.signExtend abi.bits = second.signExtend abi.bits ↔ first = second := by
  have wide : 32 ≤ abi.bits := by cases abi <;> decide
  rw [← toInt_inj, toInt_signExtend_of_le wide, toInt_signExtend_of_le wide, toInt_inj]

theorem Holds.indexed (holds : Holds abi head usage entries)
    (order : StablySorted (fun dev => key (devices dev)) usage.present (entries.map usage.mem)) :
    Indexed abi head devices usage (entries.map usage.mem) := by
  have represents := holds.represents
  refine ⟨?_, holds.present, order, holds.nonnull, ?_, ?_, ?_, ?_⟩ <;>
    intro fuel enough <;> rw [length_map] at enough
  · exact contents_spec represents enough
  · intro major minor
    rw [devFromId, search_spec represents enough, order.find_eq_of_test]
    intro first second passes
    rw [decide_eq_true_iff] at passes ⊢
    rw [key_injective, ← passes.1, ← passes.2, signExtend_inj, signExtend_inj]
  · intro name
    refine ⟨_, search_spec represents enough _, ?_⟩
    cases result : (entries.map usage.mem).find?
        fun dev => decide (strcmp (devices dev).name name = 0) with
    | none =>
      refine Or.inr ⟨rfl, fun dev member same => ?_⟩
      have fails := List.find?_eq_none.mp result dev (holds.present.mem_iff.mpr member)
      rw [decide_eq_true_iff, strcmp_eq_zero] at fails
      exact fails same
    | some found =>
      have passes := List.find?_some result
      rw [decide_eq_true_iff, strcmp_eq_zero] at passes
      exact Or.inl ⟨holds.present.mem_iff.mp (mem_of_find?_eq_some result), passes⟩
  · intro dev this fresh
    obtain ⟨-, -, memory, -, -, -, done, -⟩ := devAdd_spec
      represents (fresh.perm (holds.live.cons this)) enough
    exact ⟨memory, done⟩
  · intro dev
    rcases devRemove_spec represents enough with
      ⟨-, failed⟩ | ⟨-, -, this, -, memory, -, -, done, -⟩
    · exact ⟨_, _, _, failed, Or.inr ⟨rfl, rfl, rfl⟩⟩
    · exact ⟨_, _, _, done, Or.inl rfl⟩

theorem step_order (holds : Holds abi head usage entries)
    (order : StablySorted (fun dev => key (devices dev)) usage.present (entries.map usage.mem))
    (distinct : usage.present.Nodup) (once : call.Once usage)
    (effect : Effect abi head devices usage after entries call) :
    ∃ entries, Holds abi head after entries ∧
      StablySorted (fun dev => key (devices dev)) after.present (entries.map after.mem) ∧
      after.present.Nodup := by
  cases effect with
  | @added dev this front back split notGreater greater devs present holdsAfter =>
    subst split
    rw [map_append] at order
    refine ⟨_, holdsAfter, ?_, ?_⟩
    · rw [devs, present]
      refine order.insert ?_ ?_
      · intro other member
        obtain ⟨place, placeMember, rfl⟩ := mem_map.mp member
        exact notGreater place placeMember
      · intro other member
        rw [List.head?_map] at member
        obtain ⟨place, placeMember, rfl⟩ := Option.mem_map.mp member
        exact greater place placeMember
    · rw [present]
      refine nodup_append.mpr ⟨distinct, nodup_singleton dev, ?_⟩
      rintro other member new single rfl
      exact once (mem_singleton.mp single ▸ member)
  | @removed dev this front back split free devs kept present holdsAfter =>
    refine ⟨_, holdsAfter, ?_, present ▸ distinct.erase dev⟩
    rw [kept, present, distinct.erase_eq_filter]
    rw [devs] at order
    have listed : (front.map usage.mem ++ dev :: back.map usage.mem).Nodup :=
      (devs ▸ holds.present).nodup_iff.mpr distinct
    have taken := order.remove (nodup_cons.mp (nodup_middle.mp listed)).1
    have same : (fun other => other != dev) = fun other => decide (other ≠ dev) :=
      funext fun other => by simp [bne, Bool.beq_eq_decide_eq]
    rw [same]
    exact taken
  | unchanged devs present holdsAfter =>
    exact ⟨entries, holdsAfter, by rw [devs, present]; exact order, present ▸ distinct⟩

/-- The list of every run: the devices added and not removed, sorted, found by the lookups. -/
theorem index_of_run (reached : Reachable abi head devices
      (fun usage call => call.Proper abi head usage ∧ call.Once usage) usage) :
    ∃ devs, Indexed abi head devices usage devs := by
  obtain ⟨memory, forward, backward, run⟩ := reached
  suffices kept : ∃ entries, Holds abi head usage entries ∧
      StablySorted (fun dev => key (devices dev)) usage.present (entries.map usage.mem) ∧
      usage.present.Nodup by
    obtain ⟨entries, holds, order, -⟩ := kept
    exact ⟨_, holds.indexed order⟩
  induction run with
  | refl => exact ⟨[], holds_start ⟨forward, backward⟩, StablySorted.nil, nodup_nil⟩
  | tail earlier step inductionHypothesis =>
    obtain ⟨entries, holds, order, distinct⟩ := inductionHypothesis
    obtain ⟨call, fuel, ⟨proper, once⟩, returned⟩ := step
    exact step_order holds order distinct once (step_effect holds proper returned)

/-- A device on a bus that has the greater numbers. -/
def sampleDevices : Nat → Device
  | 2000 => ⟨⟨[98], by decide⟩, 4, 1, 1000⟩
  | _ => ⟨⟨[97], by decide⟩, 7, 0, 0⟩

/-- The list head at address 100 and nothing listed. -/
def sampleStart : Usage := ⟨fun address => if address = 100 ∨ address = 104 then 100 else 0, [], []⟩

/-- After adding a device. -/
def sampleNext (usage : Usage) (dev this : Nat) : Usage :=
  (Call.run .ilp32 100 sampleDevices 9 usage (.add dev (some this))).getD usage

/-- The bus and a device on it are added. -/
def sampleTwo : Usage := sampleNext (sampleNext sampleStart 1000 200) 2000 300

theorem sample_step {allowed : Usage → Call → Prop} (fits : allowed usage (.add dev (some this)))
    (returns : (Call.run .ilp32 100 sampleDevices 9 usage (.add dev (some this))).isSome = true) :
    Step .ilp32 100 sampleDevices allowed usage (sampleNext usage dev this) := by
  obtain ⟨after, returned⟩ := Option.isSome_iff_exists.mp returns
  exact ⟨_, 9, fits, by rw [sampleNext, returned]; rfl⟩

theorem sample_proper (nonnull : dev ≠ 0) (fresh : Apart .ilp32 100 (this :: usage.live)) :
    Call.Proper .ilp32 100 usage (.add dev (some this)) := by
  refine ⟨nonnull, fun other member => ?_⟩
  cases member
  exact fresh

theorem sample_apart : Apart .ilp32 100 [300, 200] ∧ Apart .ilp32 100 [200] := by
  refine ⟨⟨by decide, ?_⟩, ⟨by decide, ?_⟩⟩ <;> decide

theorem index_of_run_two :
    contents .ilp32 100 sampleTwo.mem 9 (sampleTwo.mem 100) = some [2000, 1000] ∧
      ∃ devs, Indexed .ilp32 100 sampleDevices sampleTwo devs :=
  ⟨by decide, index_of_run ⟨sampleStart.mem, rfl, rfl,
    ((Relation.ReflTransGen.refl.tail (sample_step
        ⟨sample_proper (by decide) sample_apart.2, not_mem_nil⟩ (by decide))).tail
      (sample_step ⟨sample_proper (by decide) sample_apart.1,
        show 2000 ∉ (sampleNext sampleStart 1000 200).present by decide⟩ (by decide)))⟩⟩

/-! ### Buses -/

theorem contents_mono {devs : List Nat} (bound : fuel ≤ more)
    (ends : contents abi head mem fuel pos = some devs) :
    contents abi head mem more pos = some devs := by
  induction fuel generalizing more pos devs with
  | zero => cases ends
  | succ fuel inductionHypothesis =>
    obtain ⟨rest, rfl⟩ := Nat.exists_eq_add_of_le' (one_le_of_lt bound)
    rw [contents] at ends ⊢
    split at ends
    · rename_i atHead
      rw [if_pos atHead, ends]
    · rename_i further
      obtain ⟨tail, later, rfl⟩ := Option.map_eq_some_iff.mp ends
      rw [if_neg further, inductionHypothesis (le_of_succ_le_succ bound) later]
      rfl

theorem Holds.listed_iff (holds : Holds abi head usage entries) :
    Listed abi head usage.mem dev ↔ dev ∈ usage.present := by
  rw [← holds.present.mem_iff]
  constructor
  · rintro ⟨fuel, devs, walked, member⟩
    have whole := contents_spec holds.represents
      (lt_of_lt_of_le (lt_succ_self _) (le_max_right fuel (entries.length + 1)))
    rw [contents_mono (le_max_left fuel (entries.length + 1)) walked] at whole
    exact Option.some.inj whole ▸ member
  · intro member
    exact ⟨_, _, contents_spec holds.represents (lt_succ_self _), member⟩

/-- The bus of every device that is present is present. -/
def BusesPresent (devices : Nat → Device) (usage : Usage) : Prop :=
  ∀ dev ∈ usage.present, (devices dev).bus = 0 ∨ (devices dev).bus ∈ usage.present

/-- One step keeps the buses present: a device that is a bus is not removed. -/
theorem step_buses (holds : Holds abi head usage entries) (buses : BusesPresent devices usage)
    (onBus : call.OnBus abi head devices usage)
    (effect : Effect abi head devices usage after entries call) :
    (∃ entries, Holds abi head after entries) ∧ BusesPresent devices after := by
  cases effect with
  | @added dev this front back split notGreater greater devs present holdsAfter =>
    refine ⟨⟨_, holdsAfter⟩, ?_⟩
    unfold BusesPresent
    rw [present]
    intro other member
    rcases mem_append.mp member with old | new
    · exact (buses other old).imp_right (mem_append_left _)
    · obtain rfl := mem_singleton.mp new
      exact onBus.imp_right fun listed => mem_append_left _ (holds.listed_iff.mp listed)
  | @removed dev this front back split free devs kept present holdsAfter =>
    refine ⟨⟨_, holdsAfter⟩, ?_⟩
    unfold BusesPresent
    rw [present]
    intro other member
    have old := mem_of_mem_erase member
    refine (buses other old).imp_right fun busPresent => (mem_erase_of_ne ?_).mpr busPresent
    obtain ⟨place, placeMember, rfl⟩ := mem_map.mp (holds.present.mem_iff.mpr old)
    exact free place placeMember
  | unchanged devs present holdsAfter =>
    refine ⟨⟨entries, holdsAfter⟩, ?_⟩
    unfold BusesPresent
    rw [present]
    exact buses

/-- When devices are added while their buses are listed, the bus of every listed device is listed,
and `dev_remove` succeeds exactly for the listed devices that are the bus of no listed one. -/
theorem buses_listed (reached : Reachable abi head devices
      (fun usage call => call.Proper abi head usage ∧ call.OnBus abi head devices usage) usage) :
    (∀ dev, Listed abi head usage.mem dev →
      (devices dev).bus = 0 ∨ Listed abi head usage.mem (devices dev).bus) ∧
    ∃ bound, ∀ fuel > bound, ∀ dev, ∃ retval freed after,
      devRemove abi head devices fuel dev usage.mem = some (retval, freed, after) ∧
      (retval = 0 ↔ Listed abi head usage.mem dev ∧
        ∀ other, Listed abi head usage.mem other → (devices other).bus ≠ dev) := by
  obtain ⟨memory, forward, backward, run⟩ := reached
  have kept : (∃ entries, Holds abi head usage entries) ∧ BusesPresent devices usage := by
    induction run with
    | refl => exact ⟨⟨[], holds_start ⟨forward, backward⟩⟩, nofun⟩
    | tail earlier step inductionHypothesis =>
      obtain ⟨⟨entries, holds⟩, buses⟩ := inductionHypothesis
      obtain ⟨call, fuel, ⟨proper, onBus⟩, returned⟩ := step
      exact step_buses holds buses onBus (step_effect holds proper returned)
  obtain ⟨⟨entries, holds⟩, buses⟩ := kept
  simp only [holds.listed_iff]
  refine ⟨buses, entries.length, fun fuel enough dev => ?_⟩
  simp only [← holds.present.mem_iff, mem_map]
  rcases devRemove_spec holds.represents enough with
    ⟨why, failed⟩ | ⟨free, front, this, back, after, rfl, here, done, -⟩
  · refine ⟨_, _, _, failed, fun zero => absurd zero (by decide), ?_⟩
    rintro ⟨⟨place, member, same⟩, others⟩
    rcases why with ⟨other, otherMember, bus⟩ | absent
    · exact absurd bus (others _ ⟨other, otherMember, rfl⟩)
    · exact absurd same (absent place member)
  · refine ⟨_, _, _, done, fun _ => ⟨⟨this, by simp, here⟩, ?_⟩, fun _ => rfl⟩
    rintro other ⟨place, member, rfl⟩
    exact free place member

theorem buses_listed_two :
    Listed .ilp32 100 sampleTwo.mem 2000 ∧
      ((sampleDevices 2000).bus = 0 ∨
        Listed .ilp32 100 sampleTwo.mem (sampleDevices 2000).bus) := by
  have listed : Listed .ilp32 100 sampleTwo.mem 2000 := ⟨9, [2000, 1000], by decide, by decide⟩
  refine ⟨listed, (buses_listed ⟨sampleStart.mem, rfl, rfl,
    ((Relation.ReflTransGen.refl.tail (sample_step
        ⟨sample_proper (by decide) sample_apart.2, Or.inl rfl⟩ (by decide))).tail
      (sample_step ⟨sample_proper (by decide) sample_apart.1,
        Or.inr ⟨9, [1000], by decide, by decide⟩⟩ (by decide)))⟩).1 2000 listed⟩

end DeviceList

end AIMv6
