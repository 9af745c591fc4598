/-
This file is a small library of processors that share one word of memory and use it with load-linked
and store-conditional.

A load sets the reservation of its processor, a store of another processor clears it, and a
conditional store succeeds only with the reservation intact; it may also fail without a reason.
Every processor takes its steps in any order with the others. What is proved here is how a property
of one processor and the word carries over to all of them: a step has to establish it for the
processor that makes it, and losing the reservation has to keep it whatever the word becomes.
-/

import Mathlib.Tactic

namespace AIMv6

namespace LinkedWord

/-- The instructions that work on one register and the shared word. Targets are positions in the
program. -/
inductive Instruction (width : Nat) where
  | ll
  | sc
  | beqz (target : Nat)
  | b (target : Nat)
  | or (mask : BitVec width)
  | and (mask : BitVec width)
  deriving DecidableEq, Repr

/-- What a processor knows: its position in a program, the register, and whether it has a
reservation. -/
structure Registers (width : Nat) where
  pc : Nat
  reg : BitVec width
  linked : Bool
  deriving DecidableEq, Repr

variable {width : Nat}

/-- One instruction, with what it stores to the word if it does. -/
def execute (spurious : Bool) (word : BitVec width) (cpu : Registers width) :
    Instruction width → Registers width × Option (BitVec width)
  | .ll => (⟨cpu.pc + 1, word, true⟩, none)
  | .sc =>
    if cpu.linked && !spurious then (⟨cpu.pc + 1, 1, false⟩, some cpu.reg)
    else (⟨cpu.pc + 1, 0, false⟩, none)
  | .beqz target => ({ cpu with pc := if cpu.reg = 0 then target else cpu.pc + 1 }, none)
  | .b target => ({ cpu with pc := target }, none)
  | .or mask => ({ cpu with pc := cpu.pc + 1, reg := cpu.reg ||| mask }, none)
  | .and mask => ({ cpu with pc := cpu.pc + 1, reg := cpu.reg &&& mask }, none)

/-- The word and the agents that share it. -/
structure Shared (Index Agent Word : Type) where
  word : Word
  agents : Index → Agent

section Commit

variable {Index Agent Word : Type} [DecidableEq Index]

/-- An agent has made a step. When it has stored to the word, the others lose their reservations. -/
def commit (unlink : Agent → Agent) (shared : Shared Index Agent Word) (me : Index)
    (result : Agent × Option Word) : Shared Index Agent Word where
  word := result.2.getD shared.word
  agents other :=
    if other = me then result.1
    else if result.2.isSome then unlink (shared.agents other)
    else shared.agents other

variable {unlink : Agent → Agent} {shared : Shared Index Agent Word} {me : Index}
  {result : Agent × Option Word}

theorem commit_me : (commit unlink shared me result).agents me = result.1 := if_pos rfl

theorem commit_other {other : Index} (different : other ≠ me) :
    (commit unlink shared me result).agents other =
      if result.2.isSome then unlink (shared.agents other) else shared.agents other :=
  if_neg different

/-- A property of each agent and the word. -/
theorem commit_local {holds : Word → Agent → Prop}
    (before : ∀ agent, holds shared.word (shared.agents agent))
    (unlinked : ∀ word after agent, holds word agent → holds after (unlink agent))
    (mine : holds (result.2.getD shared.word) result.1) (agent : Index) :
    holds (commit unlink shared me result).word
      ((commit unlink shared me result).agents agent) := by
  by_cases same : agent = me
  · rw [same, commit_me]
    exact mine
  · rw [commit_other same]
    rcases stored : result.2 with _ | value
    · rw [commit, stored]
      exact before agent
    · exact unlinked _ _ _ (before agent)

theorem commit_kept {kept : Agent → Prop} (unlinked : ∀ agent, kept (unlink agent) ↔ kept agent)
    {other : Index} (different : other ≠ me) :
    kept ((commit unlink shared me result).agents other) ↔ kept (shared.agents other) := by
  rw [commit_other different]
  split
  · exact unlinked _
  · exact Iff.rfl

end Commit

end LinkedWord

end AIMv6
