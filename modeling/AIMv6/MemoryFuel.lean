/-
This file shows that the bounds on the loops and on the nesting of the two memory allocators only
decide whether a call comes to its end. Of two runs of a call with different bounds, the one with
the smaller bounds ends in `Trap.stuck` or as the other one does. Each function keeps this order
when its bound grows and the `kfree` that it calls gets larger bounds.
-/

import AIMv6.MemorySystem

namespace AIMv6

namespace MemorySystem

open FreeList

/-- The first call needs a larger bound, or it ends like the second. -/
def Below {α : Type} (first second : Except Trap α) : Prop := first = .error .stuck ∨ first = second

namespace Below

variable {α β : Type} {first second : Except Trap α}

theorem stuck : Below (.error .stuck) second := Or.inl rfl

theorem refl (first : Except Trap α) : Below first first := Or.inr rfl

/-- A call that does not need a larger bound ends like the one with the larger bound. -/
theorem eq (below : Below first second) (ends : first ≠ .error .stuck) : first = second :=
  below.resolve_left ends

theorem ok {result : α} (below : Below first second) (returned : first = .ok result) :
    second = .ok result := by
  rw [← below.eq (by rw [returned]; exact nofun), returned]

theorem bind (below : Below first second) {next further : α → Except Trap β}
    (later : ∀ result, Below (next result) (further result)) :
    Below (first >>= next) (second >>= further) := by
  rcases below with rfl | rfl
  · exact stuck
  · cases first with
    | error trap => exact refl _
    | ok result => exact later result

end Below

/-- A `kfree` with smaller bounds than another. -/
def Less (first second : Release) : Prop := ∀ obj sys, Below (first obj sys) (second obj sys)

section Less

variable {heap : Heap} {loops more : Nat} {first second : Release} (less : Less first second)

include less

theorem foldlM_below (freed : List Nat) (sys : System) :
    Below (freed.foldlM (fun sys node => first node sys) sys)
      (freed.foldlM (fun sys node => second node sys) sys) := by
  induction freed generalizing sys with
  | nil => exact Below.refl _
  | cons node freed inductionHypothesis =>
    rw [List.foldlM_cons, List.foldlM_cons]
    exact (less node sys).bind inductionHypothesis

theorem allocPages_below (pages : Pages) (sys : System) :
    Below (allocPages first pages sys) (allocPages second pages sys) := by
  unfold allocPages
  split
  · exact Below.refl _
  split
  · exact Below.refl _
  split
  · exact Below.refl _
  · exact (foldlM_below less _ _).bind fun _ => Below.refl _

theorem kmalloc_below (bound : loops ≤ more) (size flags : Nat) (sys : System) :
    Below (kmalloc heap loops first size flags sys) (kmalloc heap more second size flags sys) := by
  unfold kmalloc
  rcases found : search heap loops size sys.mem with _ | place
  · exact Below.stuck
  have again : search heap more size sys.mem = some place := Ring.seek_mono bound found
  rw [again]
  dsimp only
  split
  · refine (allocPages_below less _ _).bind fun ⟨retcode, pages, ready⟩ => ?_
    split
    · exact Below.refl _
    rcases taken : takePages heap.abi heap.kva heap.head loops size flags pages.paddr ready.mem with
      _ | ⟨obj, mem⟩
    · exact Below.stuck
    · rw [takePages_mono bound taken]
      exact Below.refl _
  · exact Below.refl _

theorem mergeDown_below (this : PageBlock) (before after : List PageBlock) (sys : System) :
    Below (mergeDown first this before after sys) (mergeDown second this before after sys) := by
  unfold mergeDown
  split
  · exact Below.refl _
  split
  · exact (less _ _).bind fun _ => Below.refl _
  · exact Below.refl _

theorem mergeUp_below (node : Nat) (sys : System) :
    Below (mergeUp first node sys) (mergeUp second node sys) := by
  unfold mergeUp
  split
  · exact Below.refl _
  · exact Below.refl _
  split
  · exact less _ _
  · exact Below.refl _

theorem freePages_below (bound : loops ≤ more) (pages : Pages) (sys : System) :
    Below (freePages heap loops first pages sys) (freePages heap more second pages sys) := by
  unfold freePages
  split
  · exact Below.refl _
  split
  · exact Below.refl _
  refine (kmalloc_below less bound _ _ _).bind fun ⟨node, ready⟩ => ?_
  dsimp only
  split
  · exact Below.refl _
  refine (mergeDown_below less _ _ _ _).bind fun ⟨this, lowered⟩ => ?_
  exact (mergeUp_below less _ _).bind fun _ => Below.refl _

/-- The search of `kfree` may come to its end in the second call only. -/
theorem giveBack_below (bound : loops ≤ more) (event : Event)
    {result further : Option (Option Pages × Memory)}
    (same : ∀ found, result = some found → further = some found) (sys : System) :
    Below (giveBack heap loops first event result sys)
      (giveBack heap more second event further sys) := by
  rcases result with _ | ⟨pages, mem⟩
  · exact Below.stuck
  · rw [same _ rfl]
    rcases pages with _ | pages
    · exact Below.refl _
    · exact freePages_below less bound pages _

end Less

theorem kfree_below {heap : Heap} {loops more : Nat} (bound : loops ≤ more) {depth deeper : Nat}
    (nesting : depth ≤ deeper) : Less (kfree heap loops depth) (kfree heap more deeper) := by
  induction depth generalizing deeper with
  | zero => exact fun _ _ => Below.stuck
  | succ depth inductionHypothesis =>
    obtain ⟨deeper, rfl⟩ := Nat.exists_eq_succ_of_ne_zero (Nat.ne_zero_of_lt nesting)
    intro obj sys
    exact giveBack_below (inductionHypothesis (Nat.le_of_succ_le_succ nesting)) bound _
      (fun found returned => kfree_mono bound returned) sys

end MemorySystem

end AIMv6
