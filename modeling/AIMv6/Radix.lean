/-
This file is a small library of trees that live in memory as tables of pointers.

A tree is given by its root and by `child node index`, the node an entry of a table points
to. The trees of interest have a fixed depth, and no table is reached along two paths
(`Proper`). The file says how every walk from the root changes when one entry is changed:
when an empty entry receives a fresh table (`walk_link`), and that nothing changes when only
what lies below the tree is written (`walk_congr`). The nodes and the indices are arbitrary
types.
-/

import Mathlib.Data.List.Basic
import Mathlib.Data.List.Induction
import Mathlib.Tactic

namespace AIMv6.Radix

variable {Node Index : Type} {child child' : Node → Index → Option Node} {root : Node}

/-- The node reached from `node` along a path of indices, if every entry on it is present. -/
def walk (child : Node → Index → Option Node) : Node → List Index → Option Node
  | node, [] => some node
  | node, index :: rest => (child node index).bind fun next => walk child next rest

variable (node : Node)

theorem walk_singleton (index : Index) : walk child node [index] = child node index := by
  simp only [walk, Option.bind_fun_some]

theorem walk_append (first second : List Index) :
    walk child node (first ++ second) =
      (walk child node first).bind fun next => walk child next second := by
  induction first generalizing node with
  | nil => rfl
  | cons index rest inductionHypothesis =>
    simp only [List.cons_append, walk, Option.bind_assoc, inductionHypothesis]

theorem walk_concat (path : List Index) (index : Index) :
    walk child node (path ++ [index]) =
      (walk child node path).bind fun next => child next index := by
  simp only [walk_append, walk_singleton]

/-- No node of the tree is reached along two paths. -/
def Proper (child : Node → Index → Option Node) (root : Node) (depth : Nat) : Prop :=
  ∀ first second node, first.length ≤ depth → second.length ≤ depth →
    walk child root first = some node → walk child root second = some node → first = second

/-- The nodes the tree consists of, leaves included. -/
def Reached (child : Node → Index → Option Node) (root : Node) (depth : Nat) (node : Node) :
    Prop :=
  ∃ path, path.length ≤ depth ∧ walk child root path = some node

/-- Two trees with the same entries in every table above the leaves are the same tree. -/
theorem walk_congr {depth : Nat}
    (agree : ∀ path node, path.length < depth → walk child root path = some node →
      ∀ index, child' node index = child node index) :
    ∀ path, path.length ≤ depth → walk child' root path = walk child root path := by
  intro path
  induction path using List.reverseRecOn with
  | nil => exact fun _ => rfl
  | append_singleton path index inductionHypothesis =>
    intro short
    rw [List.length_append, List.length_singleton] at short
    rw [walk_concat, walk_concat, inductionHypothesis (by omega)]
    cases arrives : walk child root path with
    | none => rfl
    | some node => exact agree path node (by omega) arrives index

/-! ### Linking a fresh table -/

section Link

variable {depth : Nat} {path : List Index} {index : Index} {parent fresh : Node}
  (proper : Proper child root depth) (arrives : walk child root path = some parent)
  (short : path.length < depth) (absent : child parent index = none)
  (unreached : ∀ node, Reached child root depth node → node ≠ fresh)
  (present : child' parent index = some fresh) (empty : ∀ other, child' fresh other = none)
  (others : ∀ node other, Reached child root depth node → (node ≠ parent ∨ other ≠ index) →
    child' node other = child node other)

include proper arrives short absent present empty others

/-- After a fresh empty table is linked, one more path arrives, at that table. -/
theorem walk_link [DecidableEq Index] (target : List Index) (within : target.length ≤ depth) :
    walk child' root target =
      if target = path ++ [index] then some fresh else walk child root target := by
  have noPath : walk child root (path ++ [index]) = none := by
    rw [walk_concat, arrives]
    exact absent
  induction target using List.reverseRecOn with
  | nil => rw [if_neg (by simp)]; rfl
  | append_singleton target last inductionHypothesis =>
    rw [List.length_append, List.length_singleton] at within
    rw [walk_concat, inductionHypothesis (by omega)]
    by_cases here : target = path ++ [index]
    · have longer : ¬ target ++ [last] = path ++ [index] := by
        intro equal
        have lengths := congrArg List.length (equal.trans here.symm)
        simp at lengths
      rw [if_pos here, if_neg longer, walk_concat, here, noPath]
      exact empty last
    · rw [if_neg here, walk_concat]
      cases reached : walk child root target with
      | none =>
        have elsewhere : ¬ target ++ [last] = path ++ [index] := by
          intro equal
          have same := (List.append_inj' equal rfl).1
          rw [same, arrives] at reached
          cases reached
        rw [if_neg elsewhere]
        rfl
      | some node =>
        by_cases entry : target ++ [last] = path ++ [index]
        · obtain ⟨samePath, sameIndex⟩ := List.append_inj' entry rfl
          rw [samePath, arrives] at reached
          cases reached
          cases sameIndex
          rw [if_pos entry]
          exact present
        · rw [if_neg entry]
          refine others node last ⟨target, by omega, reached⟩ ?_
          by_contra both
          push Not at both
          obtain ⟨rfl, rfl⟩ := both
          exact entry (by rw [proper target path node (by omega) (by omega) reached arrives])

include unreached

theorem proper_link : Proper child' root depth := by
  classical
  intro first second node firstShort secondShort
  rw [walk_link proper arrives short absent present empty others first firstShort,
    walk_link proper arrives short absent present empty others second secondShort]
  intro firstArrives secondArrives
  have notFresh : ∀ target : List Index, target.length ≤ depth →
      walk child root target ≠ some fresh := fun target within reached =>
    unreached fresh ⟨target, within, reached⟩ rfl
  split at firstArrives <;> split at secondArrives
  · rename_i firstIs secondIs
    rw [firstIs, secondIs]
  · cases firstArrives
    exact absurd secondArrives (notFresh second secondShort)
  · cases secondArrives
    exact absurd firstArrives (notFresh first firstShort)
  · exact proper first second node firstShort secondShort firstArrives secondArrives

omit unreached in
theorem reached_link {node : Node} :
    Reached child' root depth node ↔ Reached child root depth node ∨ node = fresh := by
  classical
  constructor
  · rintro ⟨target, within, reached⟩
    rw [walk_link proper arrives short absent present empty others target within] at reached
    split at reached
    · cases reached
      exact Or.inr rfl
    · exact Or.inl ⟨target, within, reached⟩
  · rintro (⟨target, within, reached⟩ | rfl)
    · refine ⟨target, within, ?_⟩
      rw [walk_link proper arrives short absent present empty others target within, if_neg]
      · exact reached
      · rintro rfl
        rw [walk_concat, arrives] at reached
        rw [show (some parent).bind (fun next => child next index) = none from absent] at reached
        cases reached
    · refine ⟨path ++ [index], by simpa using short, ?_⟩
      rw [walk_link proper arrives short absent present empty others _ (by simpa using short),
        if_pos rfl]

end Link

end AIMv6.Radix
