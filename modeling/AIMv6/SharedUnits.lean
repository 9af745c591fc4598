/-
This file is a small library of processors that share one word of memory through exclusive loads
and stores or through swaps, and that send events to each other.

The word and the processors have units; a lock is one. The processors take their steps in any
order. What is proved here is the rule by which no unit is lost or made: when each step of a
processor moves units between the processor and the word, or none at all, then the units of all
processors and of the word add up to the same number in every state of every run.
-/

import AIMv6.LinkedWord

namespace AIMv6

namespace SharedUnits

open LinkedWord

/-- A processor: where it is in its program, its reservation and whether an event has come since it
has last slept. It counts the units that it has by its own view, which are those for which a call
has returned. -/
structure Processor (Position : Type) where
  position : Position
  linked : Bool
  event : Bool
  owned : Nat
  deriving DecidableEq

/-- What the surroundings decide for one step: whether an exclusive store fails, whether a sleeper
wakes, whether a processor that makes a call gives units or takes them, and what is in a register
that the step reads and nobody has written. -/
structure Turn where
  spurious : Bool
  wake : Bool
  gives : Bool
  stale : BitVec 32
  deriving DecidableEq

variable {Position Index : Type} [DecidableEq Index]

namespace Processor

def unlink (cpu : Processor Position) : Processor Position := { cpu with linked := false }

/-- The processor after an event, if there is one. -/
def signal (cpu : Processor Position) (event : Bool) : Processor Position :=
  { cpu with event := cpu.event || event }

/-- The processor at another position. -/
def goto (cpu : Processor Position) (position : Position) : Processor Position :=
  { cpu with position }

/-- A call from outside. A processor gives only what it has. -/
def call (cpu : Processor Position) (turn : Turn) (give take : Position) :
    Processor Position × Option (BitVec 32) × Bool :=
  if turn.gives then
    match cpu.owned with
    | 0 => (cpu, none, false)
    | left + 1 => ({ cpu.goto give with owned := left }, none, false)
  else (cpu.goto take, none, false)

theorem call_cases (cpu : Processor Position) (turn : Turn) (give take : Position) :
    cpu.call turn give take = (cpu, none, false) ∨
    (∃ left, cpu.owned = left + 1 ∧
      cpu.call turn give take = ({ cpu.goto give with owned := left }, none, false)) ∨
    cpu.call turn give take = (cpu.goto take, none, false) := by
  unfold call
  split
  · split
    · exact Or.inl rfl
    · exact Or.inr (Or.inl ⟨_, by assumption, rfl⟩)
  · exact Or.inr (Or.inr rfl)

end Processor

/-- A program: its steps, which store to the word and send an event or not, the units that the word
stands for, and those that a processor is just taking or giving. -/
structure Program (Position : Type) where
  step : Turn → BitVec 32 → Processor Position → Processor Position × Option (BitVec 32) × Bool
  free : BitVec 32 → Nat
  pending : Position → Nat

def Program.units (program : Program Position) (cpu : Processor Position) : Nat :=
  cpu.owned + program.pending cpu.position

abbrev System (Index Position : Type) := Shared Index (Processor Position) (BitVec 32)

/-- A step of one processor. Its store takes the reservations of the others, its event reaches all
of them. -/
def advance (program : Program Position) (system : System Index Position) (me : Index)
    (turn : Turn) : System Index Position :=
  let result := program.step turn system.word (system.agents me)
  let next := commit Processor.unlink system me (result.1, result.2.1)
  { next with agents := fun index => (next.agents index).signal result.2.2 }

/-- A run for a schedule of steps. -/
def run (program : Program Position) (system : System Index Position)
    (schedule : List (Index × Turn)) : System Index Position :=
  schedule.foldl (fun system turn => advance program system turn.1 turn.2) system

/-- Nobody has made a call yet. -/
def start (word : BitVec 32) (outside : Position) : System Index Position :=
  ⟨word, fun _ => ⟨outside, false, false, 0⟩⟩

variable {program : Program Position} {system : System Index Position} {me : Index} {turn : Turn}

theorem run_induction (holds : System Index Position → Prop) (fair : Turn → Prop)
    (step : ∀ system me turn, fair turn → holds system → holds (advance program system me turn))
    (initial : holds system) {schedule : List (Index × Turn)}
    (fairly : ∀ turn ∈ schedule, fair turn.2) : holds (run program system schedule) := by
  induction schedule generalizing system with
  | nil => exact initial
  | cons turn rest inductionHypothesis =>
    obtain ⟨now, later⟩ := List.forall_mem_cons.mp fairly
    exact inductionHypothesis (step _ _ _ now initial) later

theorem advance_me : (advance program system me turn).agents me =
    (program.step turn system.word (system.agents me)).1.signal
      (program.step turn system.word (system.agents me)).2.2 :=
  congrArg (Processor.signal · _) commit_me

/-- What a step makes of a processor that does not make it. -/
theorem advance_other {other : Index} (different : other ≠ me) :
    ((advance program system me turn).agents other).position = (system.agents other).position ∧
    ((advance program system me turn).agents other).owned = (system.agents other).owned ∧
    ((advance program system me turn).agents other).event = ((system.agents other).event ||
        (program.step turn system.word (system.agents me)).2.2) := by
  simp only [advance, commit_other different]
  split <;> exact ⟨rfl, rfl, rfl⟩

/-! ### The rule -/

/-- What has to be shown of one processor and the word, for the turns that a run may have. The
processor finds no more units in the word than the others leave. -/
structure KeepsUnits (program : Program Position) (fair : Turn → Prop) (limit : Nat)
    (fine : BitVec 32 → Processor Position → Prop) (sound : BitVec 32 → Prop) : Prop where
  signalled {word cpu} (event : Bool) : fine word cpu → fine word (cpu.signal event)
  unlinked {word cpu} (after : BitVec 32) : fine word cpu → fine after cpu.unlink
  step {word cpu turn} : fair turn → fine word cpu → sound word →
    program.units cpu + program.free word ≤ limit →
    let result := program.step turn word cpu
    let after := result.2.1.getD word
    fine after result.1 ∧ sound after ∧
      program.units result.1 + program.free after = program.units cpu + program.free word

/-- Every processor and the word are as they should be, and no unit is lost or made. -/
structure Invariant [Fintype Index] (program : Program Position) (limit : Nat)
    (fine : BitVec 32 → Processor Position → Prop) (sound : BitVec 32 → Prop)
    (system : System Index Position) : Prop where
  everyone : ∀ index, fine system.word (system.agents index)
  sound : sound system.word
  whole : ∑ index, program.units (system.agents index) + program.free system.word = limit

variable [Fintype Index] {fair : Turn → Prop} {limit : Nat}
  {fine : BitVec 32 → Processor Position → Prop} {sound : BitVec 32 → Prop}

theorem units_advance : ∑ index, program.units ((advance program system me turn).agents index) +
      program.units (system.agents me) =
    ∑ index, program.units (system.agents index) +
      program.units (program.step turn system.word (system.agents me)).1 := by
  have others : ∑ index ∈ {me}ᶜ, program.units ((advance program system me turn).agents index) =
      ∑ index ∈ {me}ᶜ, program.units (system.agents index) := by
    refine Finset.sum_congr rfl fun index different => ?_
    have other : index ≠ me := by simpa using different
    rw [Program.units, Program.units, (advance_other other).1, (advance_other other).2.1]
  rw [Fintype.sum_eq_add_sum_compl me, Fintype.sum_eq_add_sum_compl me, others, advance_me]
  simp only [Program.units, Processor.signal]
  omega

theorem KeepsUnits.advance (keeps : KeepsUnits program fair limit fine sound) (fairly : fair turn)
    (before : Invariant program limit fine sound system) :
    Invariant program limit fine sound (advance program system me turn) := by
  have whole := before.whole
  have single : program.units (system.agents me) ≤ ∑ index, program.units (system.agents index) :=
    Finset.single_le_sum (f := fun index => program.units (system.agents index))
      (fun _ _ => Nat.zero_le _) (Finset.mem_univ me)
  obtain ⟨mine, after, balance⟩ := keeps.step fairly (before.everyone me) before.sound (by omega)
  refine ⟨fun index => keeps.signalled _ ?_, after, ?_⟩
  · exact commit_local before.everyone (fun _ after _ => keeps.unlinked after) mine index
  · have sum := @units_advance _ _ _ program system me turn _
    have word : (SharedUnits.advance program system me turn).word =
      (program.step turn system.word (system.agents me)).2.1.getD system.word := rfl
    rw [word]
    omega

theorem KeepsUnits.run (keeps : KeepsUnits program fair limit fine sound)
    (initial : Invariant program limit fine sound system) {schedule : List (Index × Turn)}
    (fairly : ∀ turn ∈ schedule, fair turn.2) :
    Invariant program limit fine sound (run program system schedule) :=
  run_induction (Invariant program limit fine sound) fair
    (fun _ _ _ now before => keeps.advance now before) initial fairly

omit [DecidableEq Index] in
theorem Invariant.start {word : BitVec 32} {outside : Position}
    (fresh : fine word ⟨outside, false, false, 0⟩) (isSound : sound word)
    (nothing : program.pending outside = 0) (all : program.free word = limit) :
    Invariant program limit fine sound (start word outside : System Index Position) := by
  refine ⟨fun _ => fresh, isSound, ?_⟩
  simp [SharedUnits.start, Program.units, nothing, all]

omit [DecidableEq Index] in
/-- The processors have by their own view no more units than there are. -/
theorem Invariant.owned_le (invariant : Invariant program limit fine sound system) :
    ∑ index, (system.agents index).owned + program.free system.word ≤ limit := by
  rw [← invariant.whole]
  exact Nat.add_le_add_right (Finset.sum_le_sum fun _ _ => Nat.le_add_right _ _) _

end SharedUnits

end AIMv6
