/-
This file follows the holders of shared pages while they let go of them. `__unref_and_free_pages` of
`kern/mm/uvm.c` decrements `refs` in one atomic step and reads it back in another, so the calls of
several holders interleave between the two.

A holder that reads zero frees the pages. Every holder that has decremented and not yet read when
the last reference is dropped reads zero, and so does the holder that drops it: the pages are freed
once for each of them. They are freed exactly once when nobody else is between the two steps at that
moment.
-/

import Mathlib.Tactic

namespace AIMv6

open Function Finset BitVec

namespace PageReferences

/-- Where a holder is in `__unref_and_free_pages`: before `atomic_dec`, before the test of `refs`,
or back, having called `free_pages` and returned `__PAGES_FREED` or not. -/
inductive Stage where
  | holding
  | decremented
  | returned (freed : Bool)
  deriving DecidableEq, Repr

/-- `refs` of a `struct pages`, and where its holders are. -/
structure Sharing (holders : Nat) where
  refs : BitVec 32
  stage : Fin holders → Stage

/-- Each holder has one of the references. -/
def start (holders : Nat) : Sharing holders := ⟨BitVec.ofNat 32 holders, fun _ => .holding⟩

variable {holders : Nat}

/-- The next step of a holder. -/
def step (sharing : Sharing holders) (holder : Fin holders) : Option (Sharing holders) :=
  match sharing.stage holder with
  | .holding => some ⟨sharing.refs - 1, Function.update sharing.stage holder .decremented⟩
  | .decremented =>
    some { sharing with
      stage := Function.update sharing.stage holder (.returned (sharing.refs == 0)) }
  | .returned _ => none

/-- The steps of the holders in the order of a schedule. -/
def run (sharing : Sharing holders) (schedule : List (Fin holders)) : Option (Sharing holders) :=
  schedule.foldlM step sharing

/-- Every call has returned. -/
def Finished (sharing : Sharing holders) : Prop :=
  ∀ holder, ∃ freed, sharing.stage holder = .returned freed

/-- A state of a run, and the holder whose turn it is. -/
def Turn (schedule : List (Fin holders)) (sharing : Sharing holders)
    (holder : Fin holders) : Prop :=
  ∃ before after, schedule = before ++ holder :: after ∧ run (start holders) before = some sharing

/-- One call frees the pages, and it does so when all references have been dropped. -/
structure FreedOnce (schedule : List (Fin holders)) (final : Sharing holders) : Prop where
  once : ∃! holder, final.stage holder = .returned true
  last : ∀ sharing holder, Turn schedule sharing holder → sharing.stage holder = .decremented →
    sharing.refs = 0 → ∀ other, sharing.stage other ≠ .holding

/-- Nobody is between the decrement and the test when the last reference is dropped. -/
def Undisturbed (schedule : List (Fin holders)) : Prop :=
  ∀ sharing holder, Turn schedule sharing holder → sharing.stage holder = .holding →
    sharing.refs = 1 → ∀ other, sharing.stage other ≠ .decremented

/-! ### Counting the holders -/

/-- How many holders are at a stage. -/
def tally (stage : Fin holders → Stage) (value : Stage) : Nat :=
  (Finset.univ.filter fun holder => stage holder = value).card

section Tally

variable {stage : Fin holders → Stage} {holder : Fin holders} {new value : Stage}

theorem tally_eq_zero : tally stage value = 0 ↔ ∀ holder, stage holder ≠ value := by
  simp only [tally, card_eq_zero, filter_eq_empty_iff, mem_univ, true_implies, ne_eq]

theorem tally_eq_one : tally stage value = 1 ↔ ∃! holder, stage holder = value := by
  rw [tally, card_eq_one]
  constructor
  · rintro ⟨holder, only⟩
    have member : holder ∈ Finset.univ.filter fun other => stage other = value := by
      rw [only]
      exact mem_singleton_self holder
    refine ⟨holder, (mem_filter.mp member).2, fun other same => ?_⟩
    rw [← mem_singleton, ← only]
    exact mem_filter.mpr ⟨mem_univ _, same⟩
  · rintro ⟨holder, same, unique⟩
    refine ⟨holder, Finset.ext fun other => ?_⟩
    rw [mem_filter, mem_singleton]
    exact ⟨fun ⟨_, equal⟩ => unique other equal, fun equal => ⟨mem_univ _, equal ▸ same⟩⟩

theorem tally_const (value : Stage) : tally (fun _ : Fin holders => value) value = holders := by
  rw [tally, filter_true_of_mem fun _ _ => rfl, card_univ, Fintype.card_fin]

theorem tally_leave (here : stage holder = value) (moves : new ≠ value) :
    tally stage value = tally (Function.update stage holder new) value + 1 := by
  have smaller : (Finset.univ.filter fun other => Function.update stage holder new other = value) =
      (Finset.univ.filter fun other => stage other = value).erase holder := by
    ext other
    rw [mem_erase, mem_filter, mem_filter]
    by_cases same : other = holder
    · simp [same, moves]
    · simp [same]
  have member : holder ∈ Finset.univ.filter fun other => stage other = value :=
    mem_filter.mpr ⟨mem_univ _, here⟩
  rw [tally, tally, smaller, card_erase_add_one member]

theorem tally_enter (here : stage holder ≠ value) :
    tally (Function.update stage holder value) value = tally stage value + 1 := by
  have back : Function.update (Function.update stage holder value) holder (stage holder) =
      stage := by
    rw [update_idem, update_eq_self]
  rw [tally_leave (update_self holder value stage) here, back]

theorem tally_other (here : stage holder ≠ value) (moves : new ≠ value) :
    tally (Function.update stage holder new) value = tally stage value := by
  have entered := tally_enter here
  have left := tally_leave (update_self holder value stage) moves
  rw [update_idem] at left
  omega

end Tally

/-! ### One step -/

/-- `refs` counts the holders that have not dropped their reference. -/
structure Counted (sharing : Sharing holders) : Prop where
  refs : sharing.refs = BitVec.ofNat 32 (tally sharing.stage .holding)
  fits : tally sharing.stage .holding < 2 ^ 32
  early : 0 < tally sharing.stage .holding → tally sharing.stage (.returned true) = 0

theorem Counted.start (fits : holders < 2 ^ 32) : Counted (PageReferences.start holders) := by
  have all : tally (PageReferences.start holders).stage .holding = holders := tally_const .holding
  refine ⟨by rw [all]; rfl, by rw [all]; exact fits, fun _ => tally_eq_zero.mpr fun holder => ?_⟩
  exact Stage.noConfusion

variable {sharing : Sharing holders} {holder : Fin holders}

theorem Counted.refs_eq_iff (counted : Counted sharing) {count : Nat} (small : count < 2 ^ 32) :
    sharing.refs = BitVec.ofNat 32 count ↔ tally sharing.stage .holding = count := by
  rw [counted.refs, ← toNat_inj, toNat_ofNat, toNat_ofNat,
    Nat.mod_eq_of_lt counted.fits, Nat.mod_eq_of_lt small]

section Step

variable {sharing next : Sharing holders} {holder : Fin holders}

/-- What a step can do: drop a reference, or test what is left. -/
theorem step_cases (stepped : step sharing holder = some next) :
    (sharing.stage holder = .holding ∧
        next = ⟨sharing.refs - 1, Function.update sharing.stage holder .decremented⟩) ∨
      (sharing.stage holder = .decremented ∧ next = ⟨sharing.refs,
          Function.update sharing.stage holder (.returned (sharing.refs == 0))⟩) := by
  unfold step at stepped
  split at stepped
  · rename_i here
    exact Or.inl ⟨here, (Option.some.inj stepped).symm⟩
  · rename_i here
    exact Or.inr ⟨here, (Option.some.inj stepped).symm⟩
  · cases stepped

/-- The calls that have freed the pages, and those that have yet to test `refs`. -/
def due (sharing : Sharing holders) : Nat :=
  tally sharing.stage .decremented + tally sharing.stage (.returned true)

theorem Counted.drop (counted : Counted sharing) (here : sharing.stage holder = .holding)
    (stepped : step sharing holder = some next) :
    Counted next ∧ tally sharing.stage .holding = tally next.stage .holding + 1 ∧
      due next = due sharing + 1 := by
  rcases step_cases stepped with ⟨-, rfl⟩ | ⟨elsewhere, -⟩
  · have left := @tally_leave _ _ _ .decremented _ here Stage.noConfusion
    have entered := @tally_enter _ sharing.stage _ .decremented (by rw [here]; decide)
    have freed := @tally_other _ sharing.stage _ .decremented (.returned true)
      (by rw [here]; decide) Stage.noConfusion
    refine ⟨⟨?_, ?_, fun more => ?_⟩, left, ?_⟩
    · dsimp only
      rw [counted.refs, left, ofNat_add]
      exact add_sub_cancel _ _
    · have fits := counted.fits
      dsimp only
      omega
    · rw [freed]
      exact counted.early (by omega)
    · unfold due
      dsimp only
      omega
  · rw [here] at elsewhere
    cases elsewhere

theorem Counted.test (counted : Counted sharing) (here : sharing.stage holder = .decremented)
    (stepped : step sharing holder = some next) :
    Counted next ∧ tally next.stage .holding = tally sharing.stage .holding ∧
      (tally sharing.stage .holding = 0 → due next = due sharing) := by
  rcases step_cases stepped with ⟨elsewhere, -⟩ | ⟨-, rfl⟩
  · rw [here] at elsewhere
    cases elsewhere
  · have same := @tally_other _ sharing.stage _ (.returned (sharing.refs == 0)) .holding
      (by rw [here]; decide) Stage.noConfusion
    have left := @tally_leave _ _ _ (.returned (sharing.refs == 0))
      _ here Stage.noConfusion
    have zero := counted.refs_eq_iff (show 0 < 2 ^ 32 by decide)
    refine ⟨⟨?_, ?_, fun more => ?_⟩, same, fun none => ?_⟩
    · dsimp only
      rw [same]
      exact counted.refs
    · dsimp only
      rw [same]
      exact counted.fits
    · dsimp only at more ⊢
      rw [same] at more
      have notZero : (sharing.refs == 0) = false := by
        rw [beq_eq_false_iff_ne]
        exact fun isZero => (pos_iff_ne_zero.mp more) (zero.mp isZero)
      rw [notZero, tally_other (by rw [here]; decide) (by decide)]
      exact counted.early more
    · have isZero : (sharing.refs == 0) = true := by
        rw [beq_iff_eq]
        exact zero.mpr none
      have entered := @tally_enter _ sharing.stage _ (.returned true) (by rw [here]; decide)
      rw [isZero] at left
      unfold due
      dsimp only
      rw [isZero]
      omega

theorem Counted.step (counted : Counted sharing)
    (stepped : PageReferences.step sharing holder = some next) : Counted next := by
  rcases step_cases stepped with ⟨here, -⟩ | ⟨here, -⟩
  · exact (counted.drop here stepped).1
  · exact (counted.test here stepped).1

end Step

/-! ### Runs -/

section Run

variable {sharing final : Sharing holders} {schedule : List (Fin holders)}

theorem run_cons {rest : List (Fin holders)}
    (returned : run sharing (holder :: rest) = some final) :
    ∃ next, step sharing holder = some next ∧ run next rest = some final := by
  rw [run, List.foldlM_cons] at returned
  exact Option.bind_eq_some_iff.mp returned

theorem run_append {first second : List (Fin holders)} :
    run sharing (first ++ second) = (run sharing first).bind fun middle => run middle second :=
  List.foldlM_append

theorem Counted.run (counted : Counted sharing)
    (returned : PageReferences.run sharing schedule = some final) : Counted final := by
  induction schedule generalizing sharing with
  | nil =>
    cases returned
    exact counted
  | cons holder rest inductionHypothesis =>
    obtain ⟨next, stepped, later⟩ := run_cons returned
    exact inductionHypothesis (counted.step stepped) later

/-- Once all references have been dropped, each call that has yet to test `refs` frees the pages. -/
theorem Counted.run_dropped (counted : Counted sharing) (none : tally sharing.stage .holding = 0)
    (returned : PageReferences.run sharing schedule = some final) :
    due final = due sharing := by
  induction schedule generalizing sharing with
  | nil =>
    cases returned
    rfl
  | cons holder rest inductionHypothesis =>
    obtain ⟨next, stepped, later⟩ := run_cons returned
    have here : sharing.stage holder = .decremented := by
      rcases step_cases stepped with ⟨here, -⟩ | ⟨here, -⟩
      · exact absurd here (tally_eq_zero.mp none holder)
      · exact here
    obtain ⟨kept, same, dueSame⟩ := counted.test here stepped
    rw [inductionHypothesis kept (same.trans none) later, dueSame none]

/-- A run that drops all references has a turn at which the last one is dropped. -/
theorem exists_last_drop (some : 0 < tally sharing.stage .holding) (counted : Counted sharing)
    (none : tally final.stage .holding = 0)
    (returned : run sharing schedule = Option.some final) :
    ∃ before holder after middle, schedule = before ++ holder :: after ∧
      run sharing before = Option.some middle ∧ middle.stage holder = .holding ∧
      tally middle.stage .holding = 1 := by
  induction schedule generalizing sharing with
  | nil =>
    cases returned
    omega
  | cons holder rest inductionHypothesis =>
    obtain ⟨next, stepped, later⟩ := run_cons returned
    by_cases lastOne : sharing.stage holder = .holding ∧ tally sharing.stage .holding = 1
    · exact ⟨[], holder, rest, sharing, rfl, rfl, lastOne.1, lastOne.2⟩
    · have more : 0 < tally next.stage .holding := by
        rcases step_cases stepped with ⟨here, -⟩ | ⟨here, -⟩
        · have fewer := (counted.drop here stepped).2.1
          have notOne : tally sharing.stage .holding ≠ 1 := fun one => lastOne ⟨here, one⟩
          omega
        · rw [(counted.test here stepped).2.1]
          exact some
      obtain ⟨before, other, after, middle, split, reached, here, one⟩ :=
        inductionHypothesis more (counted.step stepped) later
      refine ⟨holder :: before, other, after, middle, by rw [split]; rfl, ?_, here, one⟩
      rw [run, List.foldlM_cons, stepped]
      exact reached

end Run

section Freed

variable {final : Sharing holders} {schedule : List (Fin holders)}

theorem Finished.tally_eq_zero (finished : Finished final) {value : Stage}
    (notBack : ∀ freed, value ≠ .returned freed) : tally final.stage value = 0 := by
  refine PageReferences.tally_eq_zero.mpr fun holder here => ?_
  obtain ⟨freed, back⟩ := finished holder
  exact notBack freed (here.symm.trans back)

/-- The pages are freed by the holder that drops the last reference and by everybody who is between
the decrement and the test at that moment. -/
theorem tally_freed (fits : holders < 2 ^ 32) (returned : run (start holders) schedule = some final)
    (finished : Finished final) (turn : Turn schedule sharing holder)
    (here : sharing.stage holder = .holding) (one : sharing.refs = 1) :
    tally final.stage (.returned true) = tally sharing.stage .decremented + 1 := by
  obtain ⟨before, after, rfl, reached⟩ := turn
  have counted := (Counted.start fits).run reached
  have last := (counted.refs_eq_iff (show 1 < 2 ^ 32 by decide)).mp one
  rw [run_append, reached] at returned
  obtain ⟨next, stepped, later⟩ := run_cons returned
  obtain ⟨kept, fewer, more⟩ := counted.drop here stepped
  have dueSame := kept.run_dropped (by omega) later
  have unfreed := counted.early (by omega)
  have tested := @Finished.tally_eq_zero _ _ finished .decremented fun freed => Stage.noConfusion
  unfold due at *
  omega

/-- The pages are freed exactly once if and only if nobody else is between the decrement and the
test when the last reference is dropped. -/
theorem freedOnce_iff (positive : 1 ≤ holders) (fits : holders < 2 ^ 32)
    (returned : run (start holders) schedule = some final) (finished : Finished final) :
    FreedOnce schedule final ↔ Undisturbed schedule := by
  constructor
  · rintro ⟨once, -⟩ sharing holder turn here one
    have freed := tally_freed fits returned finished turn here one
    rw [tally_eq_one.mpr once] at freed
    exact tally_eq_zero.mp (by omega)
  · intro undisturbed
    have all : tally (start holders).stage .holding = holders := tally_const .holding
    obtain ⟨before, holder, after, middle, split, reached, here, one⟩ := exists_last_drop
      (by omega) (Counted.start fits) (finished.tally_eq_zero fun freed =>
        Stage.noConfusion) returned
    have counted := (Counted.start fits).run reached
    have last := (counted.refs_eq_iff (show 1 < 2 ^ 32 by decide)).mpr one
    have turn : Turn schedule middle holder := ⟨before, after, split, reached⟩
    refine ⟨tally_eq_one.mp ?_, fun sharing other turn _ zero => ?_⟩
    · rw [tally_freed fits returned finished turn here last,
        tally_eq_zero.mpr (undisturbed middle holder turn here last)]
    · obtain ⟨early, late, -, came⟩ := turn
      have countedHere := (Counted.start fits).run came
      exact tally_eq_zero.mp ((countedHere.refs_eq_iff (show 0 < 2 ^ 32 by decide)).mp zero)

end Freed

theorem undisturbed_of_take {schedule : List (Fin holders)}
    (each : ∀ count < schedule.length, ∀ sharing ∈ run (start holders) (schedule.take count),
      ∀ holder ∈ schedule[count]?, sharing.stage holder = .holding → sharing.refs = 1 →
        ∀ other, sharing.stage other ≠ .decremented) : Undisturbed schedule := by
  rintro sharing holder ⟨before, after, rfl, reached⟩
  refine each before.length ?_ sharing ?_ holder ?_
  · rw [List.length_append, List.length_cons]
    omega
  · rw [List.take_left]
    exact reached
  · rw [List.getElem?_append_right le_rfl, Nat.sub_self]
    rfl

/-- Two of three holders are in their calls at the same time, and the third one drops the last
reference when both have returned. -/
theorem freedOnce_overlapping :
    ∃ final : Sharing 3, run (start 3) [0, 1, 1, 0, 2, 2] = some final ∧
      FreedOnce [0, 1, 1, 0, 2, 2] final := by
  obtain ⟨final, returned, back⟩ : ∃ final : Sharing 3,
      run (start 3) [0, 1, 1, 0, 2, 2] = some final ∧
      ∀ holder, final.stage holder = .returned (holder == 2) := ⟨_, rfl, by decide⟩
  refine ⟨final, returned, (freedOnce_iff (by decide) (by decide) returned
    fun holder => ⟨_, back holder⟩).mpr (undisturbed_of_take (by decide))⟩

/-- Two holders that both decrement before either tests free the pages twice. -/
theorem freed_twice :
    ∃ final : Sharing 2, run (start 2) [0, 1, 0, 1] = some final ∧ Finished final ∧
      final.stage 0 = .returned true ∧ final.stage 1 = .returned true ∧
      ¬ FreedOnce [0, 1, 0, 1] final := by
  obtain ⟨final, returned, back⟩ : ∃ final : Sharing 2, run (start 2) [0, 1, 0, 1] = some final ∧
      ∀ holder, final.stage holder = .returned true := ⟨_, rfl, by decide⟩
  refine ⟨final, returned, fun holder => ⟨true, back holder⟩, back 0, back 1, fun freed => ?_⟩
  obtain ⟨holder, -, unique⟩ := freed.once
  exact absurd ((unique 0 (back 0)).trans (unique 1 (back 1)).symm) (by decide)

end PageReferences

end AIMv6
