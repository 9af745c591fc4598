/-
This file is a small library for a resource that is handed out and given back one item at a
time, seen from the side of its user.

The provider is not modelled: the pool carries the answers it is going to give, one for each
request. An answer that is no item, is not of the kind the user can have, or is still in use
counts as a refusal, so what a pool hands out is always fresh. Refusals and returns of items
that are not in use are recorded, because the results about a run speak about runs without
them.
-/

import Mathlib.Data.List.Basic
import Mathlib.Tactic

namespace AIMv6

open List

/-- The user's side of a provider: what is in use, and the answers to the requests to come. -/
structure Pool where
  inUse : List Nat
  answers : List (Option Nat)
  refused : Bool
  stray : Bool
  deriving DecidableEq, Repr

namespace Pool

/-- Ask for one item of the given kind. -/
def take (kind : Nat → Bool) (pool : Pool) : Option Nat × Pool :=
  match pool.answers with
  | some item :: rest =>
    if kind item && !pool.inUse.contains item then
      (some item, { pool with inUse := item :: pool.inUse, answers := rest })
    else (none, { pool with answers := rest, refused := true })
  | none :: rest => (none, { pool with answers := rest, refused := true })
  | [] => (none, { pool with refused := true })

/-- Give one item back. -/
def give (item : Nat) (pool : Pool) : Pool :=
  if pool.inUse.contains item then { pool with inUse := pool.inUse.erase item }
  else { pool with stray := true }

theorem take_some {kind : Nat → Bool} {pool : Pool} {item : Nat} {rest : List (Option Nat)}
    (answer : pool.answers = some item :: rest) (fits : kind item = true)
    (fresh : item ∉ pool.inUse) :
    pool.take kind = (some item, { pool with inUse := item :: pool.inUse, answers := rest }) := by
  simp [take, answer, fits, fresh]

variable {pool : Pool} {item : Nat}

theorem take_none {kind : Nat → Bool} {rest : List (Option Nat)}
    (answer : pool.answers = none :: rest) :
    pool.take kind = (none, { pool with answers := rest, refused := true }) := by
  simp only [take, answer]

/-- A request is answered with a fresh item, or refused. -/
theorem take_cases (kind : Nat → Bool) (pool : Pool) :
    (∃ item rest, kind item = true ∧ item ∉ pool.inUse ∧ pool.answers = some item :: rest ∧
      pool.take kind =
        (some item, { pool with inUse := item :: pool.inUse, answers := rest })) ∨
    ∃ rest, pool.take kind = (none, { pool with answers := rest, refused := true }) := by
  unfold take
  split
  · rename_i item rest answer
    split
    · rename_i granted
      rw [Bool.and_eq_true, Bool.not_eq_true', contains_eq_mem, decide_eq_false_iff_not] at granted
      exact Or.inl ⟨item, rest, granted.1, granted.2, answer, rfl⟩
    · exact Or.inr ⟨rest, rfl⟩
  · exact Or.inr ⟨_, rfl⟩
  · exact Or.inr ⟨pool.answers, rfl⟩

theorem give_of_mem (member : item ∈ pool.inUse) :
    pool.give item = { pool with inUse := pool.inUse.erase item } := by
  rw [give, if_pos (by simpa using member)]

theorem give_perm {rest : List Nat} (inUse : pool.inUse.Perm (item :: rest)) :
    (pool.give item).inUse.Perm rest ∧ (pool.give item).stray = pool.stray := by
  rw [give_of_mem (inUse.mem_iff.mpr mem_cons_self)]
  refine ⟨?_, rfl⟩
  have erased := inUse.erase item
  rwa [erase_cons_head] at erased

theorem mem_give_of_ne {other : Nat} (member : other ∈ pool.inUse)
    (different : other ≠ item) : other ∈ (pool.give item).inUse := by
  unfold give
  split
  · exact (mem_erase_of_ne different).mpr member
  · exact member

/-- The next requests for an item of a kind, in the given number, are all granted. -/
def Grants (kind : Nat → Bool) (count : Nat) (pool : Pool) : Prop :=
  ∃ (items : List Nat) (rest : List (Option Nat)), items.length = count ∧ items.Nodup ∧
    (∀ item ∈ items, kind item = true ∧ item ∉ pool.inUse) ∧
    pool.answers = items.map some ++ rest

theorem Grants.take {kind : Nat → Bool} {count : Nat} (grants : pool.Grants kind (count + 1)) :
    ∃ item after, pool.take kind = (some item, after) ∧ kind item = true ∧ item ∉ pool.inUse ∧
      after.inUse = item :: pool.inUse ∧ after.Grants kind count := by
  obtain ⟨items, rest, length, nodup, fits, answers⟩ := grants
  cases items with
  | nil => cases length
  | cons item items =>
    obtain ⟨right, fresh⟩ := fits item mem_cons_self
    obtain ⟨notLater, nodup⟩ := nodup_cons.mp nodup
    refine ⟨item, _, take_some answers right fresh, right, fresh, rfl, items, rest,
      Nat.succ.inj length, nodup, fun other member => ?_, rfl⟩
    obtain ⟨otherFits, otherFresh⟩ := fits other (mem_cons_of_mem _ member)
    refine ⟨otherFits, fun used => ?_⟩
    rcases mem_cons.mp used with same | old
    · exact notLater (same ▸ member)
    · exact otherFresh old

theorem grants_zero (kind : Nat → Bool) (pool : Pool) : pool.Grants kind 0 :=
  ⟨[], pool.answers, rfl, nodup_nil, nofun, rfl⟩

theorem not_grants_of_refused {kind : Nat → Bool} {count : Nat}
    (refused : (pool.take kind).1 = none) : ¬ pool.Grants kind (count + 1) := by
  intro grants
  obtain ⟨_, _, taken, -⟩ := grants.take
  rw [taken] at refused
  cases refused

theorem grants_succ_iff {kind : Nat → Bool} {count : Nat} {rest : List (Option Nat)}
    (answer : pool.answers = some item :: rest) (fits : kind item = true)
    (fresh : item ∉ pool.inUse) :
    pool.Grants kind (count + 1) ↔
      { pool with inUse := item :: pool.inUse, answers := rest }.Grants kind count := by
  constructor
  · intro grants
    obtain ⟨_, _, taken, -, -, -, later⟩ := grants.take
    rw [take_some answer fits fresh] at taken
    exact (Prod.mk.inj taken).2 ▸ later
  · rintro ⟨items, left, length, nodup, all, answers⟩
    refine ⟨item :: items, left, congrArg (· + 1) length,
      nodup_cons.mpr ⟨fun member => (all item member).2 mem_cons_self, nodup⟩,
      forall_mem_cons.mpr ⟨⟨fits, fresh⟩, fun other member => ?_⟩,
      answer.trans (congrArg (some item :: ·) answers)⟩
    exact ⟨(all other member).1, fun used => (all other member).2 (mem_cons_of_mem _ used)⟩

end Pool

end AIMv6
