/-
This file models the spin locks of the ARM and of the i386 port (`kern/arch/armv7a/sync.c` and
`kern/arch/i386/sync.c`) and proves that they exclude each other's owners in every run.

On ARM a processor that finds the lock taken sleeps until an event comes, and `spin_unlock` sends
one after its store. A position is the instruction that comes next, with the registers that matter
there; instructions that work on registers only are part of the position before. Memory is
sequentially consistent, so the barriers do nothing here. The registers of the operands of the
assembly differ.

`ret` is an operand that the assembly only writes. When `strexeq` is skipped its register has what
the compiler has left there, and the loop ends without the lock should that be
`ARM_STREX_SUCCESS`. The results below are for runs in which it is not.
-/

import AIMv6.SharedUnits
import AIMv6.MipsSpinlock

namespace AIMv6

open SharedUnits
open MipsSpinlock (unlocked locked)

namespace Spinlock

/-- A lock is one unit, and it is in the word when the word is `UNLOCKED`. -/
def free (word : BitVec 32) : Nat := if word = unlocked then 1 else 0

/-- The lock is taken when somebody has it. -/
theorem taken_of_owner {word : BitVec 32} {units : Nat} (owner : 1 ≤ units)
    (room : units + free word ≤ 1) : word ≠ unlocked := by
  rintro rfl
  have : free unlocked = 1 := rfl
  omega

theorem owned_le_one {Index Position : Type} [Fintype Index] {program : Program Position}
    {sound : BitVec 32 → Prop} {fine : BitVec 32 → Processor Position → Prop}
    {system : System Index Position} (units : program.free = free)
    (invariant : Invariant program 1 fine sound system) :
    ∑ index, (system.agents index).owned ≤ 1 ∧
      (system.word = unlocked → ∀ index, (system.agents index).owned = 0) := by
  have bound := invariant.owned_le
  refine ⟨by omega, fun isFree index => ?_⟩
  rw [units, free, if_pos isFree] at bound
  have none : ∑ index, (system.agents index).owned = 0 := by omega
  exact Finset.sum_eq_zero_iff.mp none index (Finset.mem_univ index)

namespace Arm

/-- `ARM_STREX_SUCCESS` and `ARM_STREX_FAIL`. -/
def strexSuccess : BitVec 32 := 0

def strexFail : BitVec 32 := 1

/-- The positions in `spin_lock` and, from `check` on, in `spin_unlock`. -/
inductive Position where
  | outside
  | ldrex
  | wfene (val : BitVec 32)
  | strexeq (val : BitVec 32)
  | loop (ret : BitVec 32)
  | check
  | store
  | sev
  | panicked
  deriving DecidableEq

/-- The next instruction. A processor unlocks only what it has locked. -/
def step (turn : Turn) (word : BitVec 32) (cpu : Processor Position) :
    Processor Position × Option (BitVec 32) × Bool :=
  match cpu.position with
  | .outside => cpu.call turn .check .ldrex
  | .ldrex => ({ cpu.goto (.wfene word) with linked := true }, none, false)
  | .wfene val =>
    if val = unlocked then (cpu.goto (.strexeq val), none, false)
    else if cpu.event || turn.wake then
      ({ cpu.goto (.strexeq val) with event := false }, none, false)
    else (cpu, none, false)
  | .strexeq val =>
    if val = unlocked then
      if cpu.linked && !turn.spurious then
        ((cpu.goto (.loop strexSuccess)).unlink, some locked, false)
      else ((cpu.goto (.loop strexFail)).unlink, none, false)
    else (cpu.goto (.loop turn.stale), none, false)
  | .loop ret =>
    if ret = strexSuccess then ({ cpu.goto .outside with owned := cpu.owned + 1 }, none, false)
    else (cpu.goto .ldrex, none, false)
  | .check => (cpu.goto (if word = unlocked then .panicked else .store), none, false)
  | .store => (cpu.goto .sev, some unlocked, false)
  | .sev => (cpu.goto .outside, none, true)
  | .panicked => (cpu, none, false)

def pending : Position → Nat
  | .loop ret => if ret = strexSuccess then 1 else 0
  | .check | .store | .panicked => 1
  | _ => 0

def spinlock : Program Position := ⟨step, free, pending⟩

def Fine (word : BitVec 32) (cpu : Processor Position) : Prop :=
  match cpu.position with
  | .wfene val | .strexeq val => cpu.linked = true → val = word
  | .panicked => False
  | _ => True

theorem keeps : KeepsUnits spinlock (fun turn => turn.stale ≠ strexSuccess) 1 Fine
    fun _ => True where
  signalled _ fine := fine
  unlinked {word cpu} after fine := by
    obtain ⟨position, linked, event, owned⟩ := cpu
    cases position with
    | wfene | strexeq => exact Bool.noConfusion
    | _ => exact fine
  step {word cpu turn} unwritten fine _ room := by
    obtain ⟨position, linked, event, owned⟩ := cpu
    unfold spinlock step
    cases position with
    | outside =>
      dsimp only
      rcases Processor.call_cases ⟨Position.outside, linked, event, owned⟩ turn .check .ldrex with
        same | ⟨left, rfl, same⟩ | same
      all_goals
        rw [same]
        exact ⟨trivial, trivial, rfl⟩
    | ldrex => exact ⟨fun _ => rfl, trivial, rfl⟩
    | wfene val =>
      dsimp only
      split
      · exact ⟨fine, trivial, rfl⟩
      · split <;> exact ⟨fine, trivial, rfl⟩
    | strexeq val =>
      dsimp only
      split
      · rename_i isFree
        split
        · rename_i success
          obtain rfl := isFree.symm.trans (fine (Bool.and_eq_true_iff.mp success).1)
          exact ⟨trivial, trivial, rfl⟩
        · exact ⟨trivial, trivial, rfl⟩
      · have nothing : pending (.loop turn.stale) = 0 := if_neg unwritten
        exact ⟨trivial, trivial, congrArg (fun pending => owned + pending + free word) nothing⟩
    | loop ret =>
      unfold Program.units pending
      dsimp only
      split <;> exact ⟨trivial, trivial, rfl⟩
    | check =>
      dsimp only
      rw [if_neg (taken_of_owner (Nat.le_add_left 1 owned) room)]
      exact ⟨trivial, trivial, rfl⟩
    | store =>
      have taken : free word = 0 := if_neg (taken_of_owner (Nat.le_add_left 1 owned) room)
      exact ⟨trivial, trivial, show owned + 1 = owned + 1 + free word by omega⟩
    | sev => exact ⟨trivial, trivial, rfl⟩
    | panicked => exact fine.elim

/-- A processor that sleeps in `spin_lock` unless an event comes. -/
def Asleep (cpu : Processor Position) : Prop :=
  ∃ val ≠ unlocked, cpu.position = .wfene val ∧ cpu.event = false

section Step

variable {word : BitVec 32} {cpu : Processor Position} {turn : Turn}

theorem asleep_step (isFree : word = unlocked) (asleep : Asleep (step turn word cpu).1) :
    Asleep cpu := by
  obtain ⟨position, linked, event, owned⟩ := cpu
  cases position <;> grind [step, Processor.call, Processor.goto, Processor.unlink, Asleep]

theorem sev_of_freed (isFree : (step turn word cpu).2.1.getD word = unlocked) :
    word = unlocked ∨ (step turn word cpu).1.position = .sev := by
  have different : locked ≠ unlocked := by decide
  obtain ⟨position, linked, event, owned⟩ := cpu
  cases position <;> grind [step, Processor.call, Processor.goto, Processor.unlink]

theorem step_sev (signalling : cpu.position = .sev) : (step turn word cpu).2.2 = true := by
  rw [step, signalling]

end Step

variable {Index : Type} [DecidableEq Index]

/-- Whoever sleeps while the lock is free is woken by somebody who has just released it. -/
def Awaited (system : System Index Position) : Prop :=
  system.word = unlocked → ∀ index, Asleep (system.agents index) →
    ∃ other, (system.agents other).position = .sev

theorem Awaited.advance {system : System Index Position} (before : Awaited system) (me : Index)
    (turn : Turn) : Awaited (advance spinlock system me turn) := by
  intro isFree index asleep
  rcases sev_of_freed isFree with wasFree | signalling
  swap
  · exact ⟨me, (congrArg Processor.position advance_me).trans signalling⟩
  obtain ⟨val, taken, place, awake⟩ := asleep
  -- The lock has been free before, so the event has been to come before. It still is, or it has
  -- been sent in this step and nobody sleeps.
  obtain ⟨other, different, signalling⟩ : ∃ other ≠ me, (system.agents other).position = .sev := by
    by_cases same : index = me
    · subst same
      rw [advance_me] at place awake
      have mine := asleep_step wasFree ⟨val, taken, place, (Bool.or_eq_false_iff.mp awake).1⟩
      obtain ⟨other, signalling⟩ := before wasFree index mine
      refine ⟨other, ?_, signalling⟩
      rintro rfl
      obtain ⟨_, -, elsewhere, -⟩ := mine
      cases elsewhere.symm.trans signalling
    · obtain ⟨position, -, event⟩ := advance_other same
      rw [position] at place
      rw [event] at awake
      obtain ⟨silent, quiet⟩ := Bool.or_eq_false_iff.mp awake
      obtain ⟨other, signalling⟩ := before wasFree index ⟨val, taken, place, silent⟩
      refine ⟨other, ?_, signalling⟩
      rintro rfl
      exact absurd (step_sev signalling) (Bool.eq_false_iff.mp quiet)
  exact ⟨other, (advance_other different).1.trans signalling⟩

variable [Fintype Index] {schedule : List (Index × Turn)}

theorem invariant_run (unwritten : ∀ turn ∈ schedule, turn.2.stale ≠ strexSuccess) :
    Invariant spinlock 1 Fine (fun _ => True) (run spinlock (start unlocked .outside) schedule) :=
  keeps.run (.start (by exact trivial) trivial rfl rfl) unwritten

/-- Whatever the processors do, at most one of them has the lock of the ARM port, the word says so,
and nobody who only unlocks what it has locked ends in the panic of `spin_unlock`. -/
theorem spin_lock_excludes (unwritten : ∀ turn ∈ schedule, turn.2.stale ≠ strexSuccess) :
    let final := run spinlock (start unlocked .outside) schedule
    (∑ index, (final.agents index).owned ≤ 1 ∧
      (final.word = unlocked → ∀ index, (final.agents index).owned = 0)) ∧
    ∀ index, (final.agents index).position ≠ .panicked := by
  have invariant := invariant_run unwritten
  refine ⟨owned_le_one rfl invariant, fun index stopped => ?_⟩
  have fine := invariant.everyone index
  rw [Fine, stopped] at fine
  exact fine

/-- One processor has the lock, and another one has gone round the loop with a register that the
assembly has left alone. -/
theorem spin_lock_excludes_contended : let schedule : List (Fin 2 × Turn) :=
      [0, 0, 0, 0, 0, 1, 1, 1, 1, 1].map fun index => (index, ⟨false, true, false, 0x80000000⟩)
    let final := run spinlock (start unlocked .outside) schedule
    (final.agents 0).owned = 1 ∧ (final.agents 1).position = .ldrex ∧
      ∑ index, (final.agents index).owned ≤ 1 :=
  ⟨by decide, by decide, (spin_lock_excludes (by decide)).1.1⟩

/-- No wake-up is lost: whenever somebody sleeps in `spin_lock`, somebody has the lock or is about
to send the event. -/
theorem spin_lock_wakes (unwritten : ∀ turn ∈ schedule, turn.2.stale ≠ strexSuccess) (index : Index)
    (asleep : Asleep ((run spinlock (start unlocked .outside) schedule).agents index)) :
    let final := run spinlock (start unlocked .outside) schedule
    ∃ other, 0 < spinlock.units (final.agents other) ∨ (final.agents other).position = .sev := by
  have initial : Awaited (start unlocked .outside : System Index Position) := by
    rintro - index ⟨_, -, place, -⟩
    cases place
  have awaited : Awaited (run spinlock _ schedule) :=
    run_induction Awaited (fun _ => True) (fun _ me turn _ before => before.advance me turn) initial
      fun _ _ => trivial
  dsimp only
  by_cases isFree : (run spinlock (start unlocked .outside) schedule).word = unlocked
  · obtain ⟨other, signalling⟩ := awaited isFree index asleep
    exact ⟨other, Or.inr signalling⟩
  · have whole := (invariant_run unwritten).whole
    rw [show spinlock.free _ = 0 from if_neg isFree, add_zero] at whole
    by_contra nobody
    push Not at nobody
    exact absurd (whole ▸ Finset.sum_nonpos fun other _ => (nobody other).1) (by decide)

/-- One processor has the lock and another one sleeps. -/
theorem spin_lock_wakes_sleeper : let schedule : List (Fin 2 × Turn) :=
      [0, 0, 0, 0, 0, 1, 1, 1].map fun index => (index, ⟨false, false, false, 0x80000000⟩)
    let final := run spinlock (start unlocked .outside) schedule
    Asleep (final.agents 1) ∧ ∃ other,
      0 < spinlock.units (final.agents other) ∨ (final.agents other).position = .sev :=
  have asleep : Asleep _ := ⟨locked, by decide, rfl, rfl⟩
  ⟨asleep, spin_lock_wakes (by decide) 1 asleep⟩

end Arm

namespace I386

/-- The positions in `spin_lock` and, at last, in `spin_unlock`. -/
inductive Position where
  | outside
  | xchgLocked
  | loop (result : BitVec 32)
  | xchgUnlocked
  deriving DecidableEq

def step (turn : Turn) (word : BitVec 32) (cpu : Processor Position) :
    Processor Position × Option (BitVec 32) × Bool :=
  match cpu.position with
  | .outside => cpu.call turn .xchgUnlocked .xchgLocked
  | .xchgLocked => (cpu.goto (.loop word), some locked, false)
  | .loop result =>
    if result = 0 then ({ cpu.goto .outside with owned := cpu.owned + 1 }, none, false)
    else (cpu.goto .xchgLocked, none, false)
  | .xchgUnlocked => (cpu.goto .outside, some unlocked, false)

def pending : Position → Nat
  | .loop result => if result = 0 then 1 else 0
  | .xchgUnlocked => 1
  | _ => 0

def spinlock : Program Position := ⟨step, free, pending⟩

theorem keeps : KeepsUnits spinlock (fun _ => True) 1 (fun _ _ => True)
    fun word => word = unlocked ∨ word = locked where
  signalled _ _ := trivial
  unlinked _ _ := trivial
  step {word cpu turn} _ _ binary room := by
    obtain ⟨position, linked, event, owned⟩ := cpu
    unfold spinlock step
    cases position with
    | outside =>
      dsimp only
      rcases Processor.call_cases ⟨Position.outside, linked, event, owned⟩ turn .xchgUnlocked
        .xchgLocked with same | ⟨left, rfl, same⟩ | same
      all_goals
        rw [same]
        exact ⟨trivial, binary, rfl⟩
    | xchgLocked => rcases binary with rfl | rfl <;> exact ⟨trivial, Or.inr rfl, rfl⟩
    | loop result =>
      unfold Program.units pending
      dsimp only
      split <;> exact ⟨trivial, binary, rfl⟩
    | xchgUnlocked =>
      have taken : free word = 0 := if_neg (taken_of_owner (Nat.le_add_left 1 owned) room)
      exact ⟨trivial, Or.inl rfl, show owned + 1 = owned + 1 + free word by omega⟩

/-- At most one processor has the lock of the i386 port, and the word says so. -/
theorem xchg_lock_excludes {Index : Type} [DecidableEq Index] [Fintype Index]
    (schedule : List (Index × Turn)) :
    let final := run spinlock (start unlocked .outside) schedule
    ∑ index, (final.agents index).owned ≤ 1 ∧
      (final.word = unlocked → ∀ index, (final.agents index).owned = 0) :=
  owned_le_one rfl (keeps.run (.start trivial (Or.inl rfl) rfl rfl) fun _ _ => trivial)

end I386

end Spinlock

end AIMv6
