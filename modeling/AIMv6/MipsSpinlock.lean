/-
This file proves mutual exclusion for the spinlock of `kern/arch/mips/sync.c`.

The two functions are loops of load-linked and store-conditional, and they are kept here instruction
by instruction. `spin_lock` also stores on the path it takes when the lock is held: it writes back
what it has loaded, which is harmless, because with an intact reservation the word is still what was
loaded. The invariant says for each point of the two programs what the register and the reservation
tell about the word; a processor owns the lock from the conditional store that succeeds in
`spin_lock` to the one that succeeds in `spin_unlock`.
-/

import AIMv6.LinkedWord

namespace AIMv6

open Set

namespace MipsSpinlock

open LinkedWord

/-- `UNLOCKED`. -/
def unlocked : BitVec 32 := 0

/-- `LOCKED`. -/
def locked : BitVec 32 := 1

/-- The instructions of `spin_lock`. -/
def spinLock : List (Instruction 32) :=
  [.ll, .beqz 4, .sc, .b 0, .or 1, .sc, .beqz 0]

/-- The instructions of `spin_unlock`. -/
def spinUnlock : List (Instruction 32) :=
  [.ll, .and (~~~1), .sc, .beqz 0]

/-- What a processor is doing with the lock. -/
inductive Place where
  | outside
  | locking
  | holding
  | unlocking
  deriving DecidableEq, Repr

/-- A processor, and whether its last acquire has succeeded and has not been released since. -/
structure Cpu where
  place : Place
  registers : Registers 32
  acquired : Bool
  deriving DecidableEq, Repr

/-- What is not determined about a step: whether a conditional store fails without a reason, and
what the register holds when a function is called. -/
structure Turn where
  spurious : Bool
  reg : BitVec 32
  deriving DecidableEq, Repr

namespace Cpu

/-- A call of one of the functions. -/
def call (place : Place) (turn : Turn) (cpu : Cpu) : Cpu :=
  { cpu with place, registers := { cpu.registers with pc := 0, reg := turn.reg } }

/-- The next step of a processor: it calls a function, executes an instruction, or returns. The
conditional store at position 5 of `spin_lock` acquires the lock; the one of `spin_unlock` releases
it. -/
def advance (turn : Turn) (word : BitVec 32) (cpu : Cpu) : Cpu × Option (BitVec 32) :=
  match cpu.place with
  | .outside => (cpu.call .locking turn, none)
  | .locking =>
    match spinLock[cpu.registers.pc]? with
    | none => ({ cpu with place := .holding }, none)
    | some instruction =>
      let result := execute turn.spurious word cpu.registers instruction
      let acquired := cpu.acquired || (cpu.registers.pc == 5 && result.2.isSome)
      ({ cpu with registers := result.1, acquired }, result.2)
  | .holding => (cpu.call .unlocking turn, none)
  | .unlocking =>
    match spinUnlock[cpu.registers.pc]? with
    | none => ({ cpu with place := .outside }, none)
    | some instruction =>
      let result := execute turn.spurious word cpu.registers instruction
      ({ cpu with registers := result.1, acquired := cpu.acquired && result.2.isNone }, result.2)

/-- The processor without its reservation. -/
def unlink (cpu : Cpu) : Cpu := { cpu with registers := { cpu.registers with linked := false } }

/-- What is known at each point of the programs. -/
def Consistent (word : BitVec 32) (cpu : Cpu) : Prop :=
  match cpu.place, cpu.registers.pc with
  | .outside, _ => cpu.acquired = false
  | .locking, 0 => cpu.acquired = false
  | .locking, 1 => cpu.acquired = false ∧ (cpu.registers.linked = true → cpu.registers.reg = word)
  | .locking, 2 => cpu.acquired = false ∧ (cpu.registers.linked = true → cpu.registers.reg = word)
  | .locking, 3 => cpu.acquired = false
  | .locking, 4 => cpu.acquired = false ∧ cpu.registers.reg = 0 ∧
      (cpu.registers.linked = true → word = unlocked)
  | .locking, 5 => cpu.acquired = false ∧ cpu.registers.reg = 1 ∧
      (cpu.registers.linked = true → word = unlocked)
  | .locking, 6 => (cpu.registers.reg = 0 ∧ cpu.acquired = false) ∨
      (cpu.registers.reg = 1 ∧ cpu.acquired = true)
  | .locking, 7 => cpu.acquired = true
  | .holding, _ => cpu.acquired = true
  | .unlocking, 0 => cpu.acquired = true
  | .unlocking, 1 => cpu.acquired = true ∧ cpu.registers.reg = locked
  | .unlocking, 2 => cpu.acquired = true ∧ cpu.registers.reg = unlocked
  | .unlocking, 3 => (cpu.registers.reg = 0 ∧ cpu.acquired = true) ∨
      (cpu.registers.reg = 1 ∧ cpu.acquired = false)
  | .unlocking, 4 => cpu.acquired = false
  | _, _ => False

/-- What a step can do to the lock: leave it, acquire it, or release it. -/
structure Moves (word : BitVec 32) (cpu next : Cpu) (stored : Option (BitVec 32)) : Prop where
  consistent : next.Consistent (stored.getD word)
  change : (stored.getD word = word ∧ next.acquired = cpu.acquired) ∨
    (word = unlocked ∧ stored = some locked ∧ next.acquired = true) ∨
    (stored = some unlocked ∧ cpu.acquired = true ∧ next.acquired = false)

variable {word reg : BitVec 32} {cpu : Cpu} {pc : Nat} {linked acquired : Bool}

theorem Consistent.unlink (consistent : cpu.Consistent word)
    (after : BitVec 32) : cpu.unlink.Consistent after := by
  obtain ⟨place, ⟨pc, reg, linked⟩, acquired⟩ := cpu
  revert consistent
  unfold Consistent Cpu.unlink
  dsimp only
  split <;> simp +contextual

/-- A step inside `spin_lock`. -/
theorem Consistent.lock
    (consistent : (⟨.locking, ⟨pc, reg, linked⟩, acquired⟩ : Cpu).Consistent word) (turn : Turn) :
    Moves word ⟨.locking, ⟨pc, reg, linked⟩, acquired⟩
      (advance turn word ⟨.locking, ⟨pc, reg, linked⟩, acquired⟩).1
      (advance turn word ⟨.locking, ⟨pc, reg, linked⟩, acquired⟩).2 := by
  rcases pc with _ | _ | _ | _ | _ | _ | _ | _ | pc
  · obtain rfl : acquired = false := consistent
    exact ⟨⟨rfl, fun _ => rfl⟩, Or.inl ⟨rfl, rfl⟩⟩
  · obtain ⟨rfl, loaded⟩ : acquired = false ∧ (linked = true → reg = word) := consistent
    refine ⟨?_, Or.inl ⟨rfl, rfl⟩⟩
    show Consistent word ⟨.locking, ⟨if reg = 0 then 4 else 2, reg, linked⟩, false⟩
    split
    · rename_i zero
      exact ⟨rfl, zero, fun isLinked => (loaded isLinked).symm.trans zero⟩
    · exact ⟨rfl, loaded⟩
  · obtain ⟨rfl, loaded⟩ : acquired = false ∧ (linked = true → reg = word) := consistent
    by_cases success : (linked && !turn.spurious) = true
    · have same : reg = word := loaded (Bool.and_eq_true_iff.mp success).1
      simp only [advance, spinLock, execute, List.getElem?_cons_succ,
        List.getElem?_cons_zero, success, if_true]
      exact ⟨rfl, Or.inl ⟨same, rfl⟩⟩
    · simp only [advance, spinLock, execute, List.getElem?_cons_succ,
        List.getElem?_cons_zero, success, Bool.false_eq_true, if_false]
      exact ⟨rfl, Or.inl ⟨rfl, rfl⟩⟩
  · obtain rfl : acquired = false := consistent
    exact ⟨rfl, Or.inl ⟨rfl, rfl⟩⟩
  · obtain ⟨rfl, rfl, free⟩ : acquired = false ∧ reg = 0 ∧ (linked = true → word = unlocked) :=
      consistent
    exact ⟨⟨rfl, show (0 : BitVec 32) ||| 1 = 1 by decide, free⟩, Or.inl ⟨rfl, rfl⟩⟩
  · obtain ⟨rfl, rfl, free⟩ : acquired = false ∧ reg = 1 ∧ (linked = true → word = unlocked) :=
      consistent
    by_cases success : (linked && !turn.spurious) = true
    · have empty := free (Bool.and_eq_true_iff.mp success).1
      simp only [advance, spinLock, execute, List.getElem?_cons_succ,
        List.getElem?_cons_zero, success, if_true]
      exact ⟨Or.inr ⟨rfl, rfl⟩, Or.inr (Or.inl ⟨empty, rfl, rfl⟩)⟩
    · simp only [advance, spinLock, execute, List.getElem?_cons_succ,
        List.getElem?_cons_zero, success, Bool.false_eq_true, if_false]
      exact ⟨Or.inl ⟨rfl, rfl⟩, Or.inl ⟨rfl, rfl⟩⟩
  · rcases (show (reg = 0 ∧ acquired = false) ∨ (reg = 1 ∧ acquired = true) from consistent) with
      ⟨rfl, rfl⟩ | ⟨rfl, rfl⟩
    · exact ⟨rfl, Or.inl ⟨rfl, rfl⟩⟩
    · exact ⟨rfl, Or.inl ⟨rfl, rfl⟩⟩
  · obtain rfl : acquired = true := consistent
    exact ⟨rfl, Or.inl ⟨rfl, rfl⟩⟩
  · exact consistent.elim

/-- A step inside `spin_unlock`. -/
theorem Consistent.unlock
    (consistent : (⟨.unlocking, ⟨pc, reg, linked⟩, acquired⟩ : Cpu).Consistent word)
    (owner : acquired = true → word = locked) (turn : Turn) :
    Moves word ⟨.unlocking, ⟨pc, reg, linked⟩, acquired⟩
      (advance turn word ⟨.unlocking, ⟨pc, reg, linked⟩, acquired⟩).1
      (advance turn word ⟨.unlocking, ⟨pc, reg, linked⟩, acquired⟩).2 := by
  rcases pc with _ | _ | _ | _ | _ | pc
  · obtain rfl : acquired = true := consistent
    exact ⟨⟨rfl, owner rfl⟩, Or.inl ⟨rfl, rfl⟩⟩
  · obtain ⟨rfl, rfl⟩ : acquired = true ∧ reg = locked := consistent
    exact ⟨⟨rfl, show locked &&& ~~~1 = unlocked by decide⟩, Or.inl ⟨rfl, rfl⟩⟩
  · obtain ⟨rfl, rfl⟩ : acquired = true ∧ reg = unlocked := consistent
    by_cases success : (linked && !turn.spurious) = true
    · simp only [advance, spinUnlock, execute, List.getElem?_cons_succ, List.getElem?_cons_zero,
        success, if_true]
      exact ⟨Or.inr ⟨rfl, rfl⟩, Or.inr (Or.inr ⟨rfl, rfl, rfl⟩)⟩
    · simp only [advance, spinUnlock, execute, List.getElem?_cons_succ, List.getElem?_cons_zero,
        success, Bool.false_eq_true, if_false]
      exact ⟨Or.inl ⟨rfl, rfl⟩, Or.inl ⟨rfl, rfl⟩⟩
  · rcases (show (reg = 0 ∧ acquired = true) ∨ (reg = 1 ∧ acquired = false) from consistent) with
      ⟨rfl, rfl⟩ | ⟨rfl, rfl⟩
    · exact ⟨rfl, Or.inl ⟨rfl, rfl⟩⟩
    · exact ⟨rfl, Or.inl ⟨rfl, rfl⟩⟩
  · obtain rfl : acquired = false := consistent
    exact ⟨rfl, Or.inl ⟨rfl, rfl⟩⟩
  · exact consistent.elim

theorem Consistent.advance (consistent : cpu.Consistent word)
    (owner : cpu.acquired = true → word = locked) (turn : Turn) :
    Moves word cpu (cpu.advance turn word).1 (cpu.advance turn word).2 := by
  obtain ⟨place, ⟨pc, reg, linked⟩, acquired⟩ := cpu
  cases place with
  | outside => exact ⟨consistent, Or.inl ⟨rfl, rfl⟩⟩
  | locking => exact consistent.lock turn
  | holding => exact ⟨consistent, Or.inl ⟨rfl, rfl⟩⟩
  | unlocking => exact consistent.unlock owner turn

end Cpu

/-! ### All processors -/

section System

variable {Index : Type} [DecidableEq Index]

/-- The lock word and the processors. -/
abbrev System (Index : Type) := Shared Index Cpu (BitVec 32)

/-- `spinlock_init`, while no processor uses the lock; their registers hold anything. -/
def spinlockInit (registers : Index → Registers 32) : System Index :=
  ⟨unlocked, fun index => ⟨.outside, registers index, false⟩⟩

/-- A step of one processor. -/
def advance (system : System Index) (index : Index) (turn : Turn) : System Index :=
  commit Cpu.unlink system index ((system.agents index).advance turn system.word)

/-- The steps of the processors in any order. -/
def run (system : System Index) (schedule : List (Index × Turn)) : System Index :=
  schedule.foldl (fun system step => advance system step.1 step.2) system

/-- At most one processor is between the return of `spin_lock` and the call of `spin_unlock`, and
the word says whether the lock has been acquired and not released. -/
structure Excludes (system : System Index) : Prop where
  exclusive : ∀ first second, (system.agents first).place = .holding →
    (system.agents second).place = .holding → first = second
  owner : ∀ index, (system.agents index).place = .holding → (system.agents index).acquired = true
  single : ∀ first second, (system.agents first).acquired = true →
    (system.agents second).acquired = true → first = second
  word : system.word = locked ↔ ∃ index, (system.agents index).acquired = true
  values : system.word = locked ∨ system.word = unlocked

/-- The processors that have acquired the lock and not released it. -/
def owners (system : System Index) : Set Index := {index | (system.agents index).acquired = true}

/-- The invariant. -/
structure Invariant (system : System Index) : Prop where
  consistent : ∀ index, (system.agents index).Consistent system.word
  single : (owners system).Subsingleton
  word : system.word = locked ↔ (owners system).Nonempty
  values : system.word = locked ∨ system.word = unlocked

omit [DecidableEq Index] in
theorem Invariant.init (registers : Index → Registers 32) : Invariant (spinlockInit registers) := by
  have none : owners (spinlockInit registers) = ∅ :=
    eq_empty_of_forall_notMem fun _ => Bool.noConfusion
  refine ⟨fun _ => rfl, ?_, ?_, Or.inr rfl⟩
  · rw [none]
    exact subsingleton_empty
  · rw [none]
    exact iff_of_false (show unlocked ≠ locked by decide) not_nonempty_empty

variable {system : System Index} {index : Index} {turn : Turn}

theorem mem_owners_me :
    index ∈ owners (advance system index turn) ↔
      ((system.agents index).advance turn system.word).1.acquired = true := by
  rw [owners, mem_ofPred_eq, advance, commit_me]

theorem mem_owners_other {other : Index} (different : other ≠ index) :
    other ∈ owners (advance system index turn) ↔ other ∈ owners system :=
  @commit_kept _ _ _ _ Cpu.unlink _ _ _ (fun cpu => cpu.acquired = true)
    (fun _ => Iff.rfl) _ different

theorem owners_kept
    (same : ((system.agents index).advance turn system.word).1.acquired =
      (system.agents index).acquired) : owners (advance system index turn) = owners system := by
  ext other
  by_cases here : other = index
  · rw [here, mem_owners_me, same]
    exact Iff.rfl
  · exact mem_owners_other here

theorem owners_acquire (none : owners system = ∅)
    (acquired : ((system.agents index).advance turn system.word).1.acquired = true) :
    owners (advance system index turn) = {index} := by
  ext other
  by_cases here : other = index
  · rw [here, mem_owners_me]
    exact iff_of_true acquired rfl
  · rw [mem_owners_other here, none]
    exact iff_of_false (notMem_empty _) here

theorem owners_release (single : (owners system).Subsingleton) (owned : index ∈ owners system)
    (released : ((system.agents index).advance turn system.word).1.acquired = false) :
    owners (advance system index turn) = ∅ := by
  refine eq_empty_of_forall_notMem fun other member => ?_
  by_cases here : other = index
  · rw [here, mem_owners_me, released] at member
    cases member
  · exact here (single ((mem_owners_other here).mp member) owned)

theorem Invariant.advance (invariant : Invariant system) (index : Index)
    (turn : Turn) : Invariant (MipsSpinlock.advance system index turn) := by
  obtain ⟨consistent, single, word, values⟩ := invariant
  obtain ⟨kept, change⟩ :=
    (consistent index).advance (fun acquired => word.mpr ⟨index, acquired⟩) turn
  have consistentAfter := fun other => @commit_local _ _ _ _ _ _ index
    _ _ consistent
    (fun _ after _ before => before.unlink after) kept other
  have wordAfter : (MipsSpinlock.advance system index turn).word =
    ((system.agents index).advance turn system.word).2.getD system.word := rfl
  rcases change with ⟨sameWord, same⟩ | ⟨empty, stored, acquired⟩ | ⟨stored, owned, released⟩
  · rw [sameWord] at wordAfter
    refine ⟨consistentAfter, ?_, ?_, wordAfter ▸ values⟩
    · rw [owners_kept same]
      exact single
    · rw [owners_kept same, wordAfter]
      exact word
  · have none : owners system = ∅ := not_nonempty_iff_eq_empty.mp fun someone => by
      rw [empty] at word
      exact absurd (word.mpr someone) (by decide)
    rw [stored, Option.getD_some] at wordAfter
    refine ⟨consistentAfter, ?_, ?_, Or.inl wordAfter⟩
    · rw [owners_acquire none acquired]
      exact subsingleton_singleton
    · rw [owners_acquire none acquired, wordAfter]
      exact iff_of_true rfl (singleton_nonempty index)
  · rw [stored, Option.getD_some] at wordAfter
    refine ⟨consistentAfter, ?_, ?_, Or.inr wordAfter⟩
    · rw [owners_release single owned released]
      exact subsingleton_empty
    · rw [owners_release single owned released, wordAfter]
      exact iff_of_false (by decide) not_nonempty_empty

theorem Invariant.run (invariant : Invariant system)
    (schedule : List (Index × Turn)) : Invariant (MipsSpinlock.run system schedule) := by
  induction schedule generalizing system with
  | nil => exact invariant
  | cons step rest inductionHypothesis =>
      exact inductionHypothesis (invariant.advance step.1 step.2)

omit [DecidableEq Index] in
theorem Invariant.excludes (invariant : Invariant system) : Excludes system := by
  have owner : ∀ index, (system.agents index).place = .holding →
      (system.agents index).acquired = true := by
    intro index holding
    have consistent := invariant.consistent index
    unfold Cpu.Consistent at consistent
    rw [holding] at consistent
    exact consistent
  have single : ∀ first second, (system.agents first).acquired = true →
      (system.agents second).acquired = true → first = second := fun _ _ first second =>
    invariant.single first second
  exact ⟨fun first second here there => single first second (owner first here) (owner second there),
    owner, single, invariant.word, invariant.values⟩

/-- The spinlock gives mutual exclusion under every interleaving of the instructions of any number
of processors and every pattern of conditional stores that fail without a reason. -/
theorem spinlock_excludes (registers : Index → Registers 32) (schedule : List (Index × Turn)) :
    Excludes (run (spinlockInit registers) schedule) :=
  ((Invariant.init registers).run schedule).excludes

example : ((run (spinlockInit fun _ : Fin 2 => ⟨0, 0, false⟩)
    (List.replicate 7 (0, ⟨false, 0⟩))).agents 0).place = .holding := by decide

end System

end MipsSpinlock

end AIMv6
