/-
This file is a small library of lists that are kept sorted by a key.

Elements arrive one after the other. The list is sorted by the key, and elements of the same
key stand in the order they arrived in. That is kept when an element that arrives is put in
front of the first element of a greater key, and when an element is taken out. The first
element of a key in such a list is the first that arrived.
-/

import Mathlib.Data.List.Basic
import Mathlib.Tactic

namespace AIMv6

open List

/-- The listed elements are the ones that arrived, sorted by the key, and in the order of
arrival where the keys are equal. -/
structure StablySorted {Element Key : Type} [LinearOrder Key] (key : Element → Key)
    (arrived listed : List Element) : Prop where
  sorted : listed.Pairwise fun first second => key first ≤ key second
  stable : ∀ value, listed.filter (fun element => key element = value) =
    arrived.filter fun element => key element = value

namespace StablySorted

variable {Element Key : Type} [LinearOrder Key] {key : Element → Key}
  {arrived listed front back : List Element}

theorem nil : StablySorted key [] [] := ⟨List.Pairwise.nil, fun _ => rfl⟩

theorem mem_iff (order : StablySorted key arrived listed) {element : Element} :
    element ∈ listed ↔ element ∈ arrived := by
  have same := congrArg (fun elements => element ∈ elements) (order.stable (key element))
  simp only [mem_filter, decide_true, and_true] at same
  exact iff_of_eq same

theorem find_eq (order : StablySorted key arrived listed) (value : Key) :
    listed.find? (fun element => key element = value) =
      arrived.find? fun element => key element = value := by
  rw [← List.head?_filter, ← List.head?_filter, order.stable]

/-- The same for a test that the elements of one key pass and no others. -/
theorem find_eq_of_test (order : StablySorted key arrived listed) (test : Element → Bool)
    (single : ∀ first second, test first = true → (test second = true ↔ key second = key first)) :
    listed.find? test = arrived.find? test := by
  by_cases some : ∃ element ∈ arrived, test element = true
  · obtain ⟨element, -, passes⟩ := some
    have same : test = fun other => decide (key other = key element) :=
      funext fun other => by
        rw [Bool.eq_iff_iff, decide_eq_true_iff]
        exact single element other passes
    rw [same, order.find_eq]
  · push Not at some
    rw [List.find?_eq_none.mpr fun element member => some element (order.mem_iff.mp member),
      List.find?_eq_none.mpr some]

/-- An element that arrives is put in front of the first element of a greater key. -/
theorem insert {new : Element} (order : StablySorted key arrived (front ++ back))
    (notGreater : ∀ element ∈ front, key element ≤ key new)
    (greater : ∀ element ∈ back.head?, key new < key element) :
    StablySorted key (arrived ++ [new]) (front ++ new :: back) := by
  obtain ⟨frontSorted, backSorted, across⟩ := pairwise_append.mp order.sorted
  have behind : ∀ element ∈ back, key new < key element := by
    rcases back with _ | ⟨first, rest⟩
    · nofun
    · intro element member
      have next := greater first rfl
      rcases mem_cons.mp member with rfl | later
      · exact next
      · exact lt_of_lt_of_le next ((pairwise_cons.mp backSorted).1 element later)
  constructor
  · refine pairwise_append.mpr ⟨frontSorted, pairwise_cons.mpr
      ⟨fun element member => le_of_lt (behind element member), backSorted⟩, ?_⟩
    intro element member other otherMember
    rcases mem_cons.mp otherMember with rfl | later
    · exact notGreater element member
    · exact across element member other later
  · intro value
    have before := order.stable value
    rw [filter_append] at before
    rw [filter_append, filter_append, filter_cons, ← before]
    by_cases here : key new = value
    · have none : back.filter (fun element => key element = value) = [] :=
        filter_eq_nil_iff.mpr fun element member => by
          simpa using (here ▸ behind element member).ne'
      simp [here, none]
    · simp [here]

theorem remove [DecidableEq Element] {element : Element}
    (order : StablySorted key arrived (front ++ element :: back))
    (elsewhere : element ∉ front ++ back) :
    StablySorted key (arrived.filter fun other => other ≠ element) (front ++ back) := by
  have smaller : (front ++ back).Sublist (front ++ element :: back) :=
    (sublist_cons_self element back).append_left front
  have kept : (front ++ element :: back).filter (fun other => other ≠ element) = front ++ back := by
    rw [filter_append, filter_cons_of_neg (by simp), ← filter_append, filter_eq_self]
    intro other member
    exact decide_eq_true fun same => elsewhere (same ▸ member)
  refine ⟨order.sorted.sublist smaller, fun value => ?_⟩
  rw [← kept, filter_comm, order.stable, filter_comm]

end StablySorted

end AIMv6
