/-
This file is a small library of circular doubly-linked lists in memory.

A node is the address of its forward link; its backward link lies a fixed gap behind. The
ring of a head node is given by the list of the other nodes in the order of the forward
links. Linking a node in between two neighbours and taking a node out are writes to four and
to two links, and what they do to the ring is what the names say, provided the links of the
nodes are different cells of the memory. A search that follows the forward links from the
head ends at the first node it looks for, or at the head.
-/

import Mathlib.Data.List.Basic
import Mathlib.Tactic

namespace AIMv6

open List Function

/-- Memory as cells: the value of the cell that begins at an address. -/
abbrev Memory := Nat → Nat

namespace Ring

/-! ### Links -/

/-- The forward link of the first node leads to the second, whose backward link leads back. -/
def Linked (gap : Nat) (mem : Memory) (first second : Nat) : Prop :=
  mem first = second ∧ mem (second + gap) = first

/-- From one node the links lead through the listed nodes to the last of them. -/
def Leads (gap : Nat) (mem : Memory) : Nat → List Nat → Nat → Prop
  | first, [], last => first = last
  | first, node :: rest, last => Linked gap mem first node ∧ Leads gap mem node rest last

/-- The nodes are different, and so are their links. -/
structure Separate (gap : Nat) (nodes : List Nat) : Prop where
  nodup : nodes.Nodup
  links : ∀ first ∈ nodes, ∀ second ∈ nodes, first ≠ second + gap

/-- The nodes of a ring behind its head, in order. -/
structure IsRing (gap : Nat) (mem : Memory) (head : Nat) (nodes : List Nat) : Prop where
  leads : Leads gap mem head (nodes ++ [head]) head
  separate : Separate gap (head :: nodes)

variable {gap : Nat} {mem after : Memory}

theorem Separate.perm {nodes others : List Nat} (separate : Separate gap nodes)
    (same : nodes.Perm others) : Separate gap others :=
  ⟨same.nodup_iff.mp separate.nodup, fun first firstMember second secondMember =>
    separate.links first (same.mem_iff.mpr firstMember) second (same.mem_iff.mpr secondMember)⟩

theorem leads_append {first last : Nat} {front back : List Nat} :
    Leads gap mem first (front ++ back) last ↔
      ∃ middle, Leads gap mem first front middle ∧ Leads gap mem middle back last := by
  induction front generalizing first with
  | nil => exact ⟨fun leads => ⟨first, rfl, leads⟩, fun ⟨_, same, leads⟩ => same ▸ leads⟩
  | cons node rest inductionHypothesis =>
    constructor
    · rintro ⟨linked, leads⟩
      obtain ⟨middle, early, late⟩ := inductionHypothesis.mp leads
      exact ⟨middle, ⟨linked, early⟩, late⟩
    · rintro ⟨middle, ⟨linked, early⟩, late⟩
      exact ⟨linked, inductionHypothesis.mpr ⟨middle, early, late⟩⟩

section Walks

variable {first last : Nat} {nodes : List Nat} (leads : Leads gap mem first nodes last)

include leads

theorem Leads.last_mem : last ∈ first :: nodes := by
  induction nodes generalizing first with
  | nil => exact mem_singleton.mpr leads.symm
  | cons node rest inductionHypothesis => exact mem_cons_of_mem _ (inductionHypothesis leads.2)

theorem Leads.last_eq : last = nodes.getLast?.getD first := by
  induction nodes generalizing first with
  | nil => exact leads.symm
  | cons node rest inductionHypothesis =>
    rw [inductionHypothesis leads.2]
    rcases rest with _ | ⟨second, tail⟩
    · rfl
    · rw [List.getLast?_cons_cons, List.getLast?_eq_some_getLast (cons_ne_nil _ _)]
      rfl

theorem Leads.reaches : ∀ node ∈ nodes, ∃ steps, mem^[steps] first = node := by
  induction nodes generalizing first with
  | nil => nofun
  | cons next rest inductionHypothesis =>
    obtain ⟨⟨toNext, -⟩, later⟩ := leads
    intro node member
    rcases mem_cons.mp member with rfl | behind
    · exact ⟨1, toNext⟩
    · obtain ⟨steps, found⟩ := inductionHypothesis later node behind
      exact ⟨steps + 1, by rw [iterate_succ_apply, toNext, found]⟩

theorem Leads.congr (nodup : (first :: nodes).Nodup)
    (forward : ∀ node ∈ first :: nodes, node ≠ last → after node = mem node)
    (backward : ∀ node ∈ nodes, after (node + gap) = mem (node + gap)) :
    Leads gap after first nodes last := by
  induction nodes generalizing first with
  | nil => exact leads
  | cons node rest inductionHypothesis =>
    obtain ⟨⟨toNode, toFirst⟩, later⟩ := leads
    obtain ⟨fresh, restNodup⟩ := nodup_cons.mp nodup
    have notLast : first ≠ last := fun same => fresh (same ▸ later.last_mem)
    refine ⟨⟨?_, ?_⟩, inductionHypothesis later restNodup
      (fun other member => forward other (mem_cons_of_mem _ member))
      fun other member => backward other (mem_cons_of_mem _ member)⟩
    · rw [forward first mem_cons_self notLast, toNode]
    · rw [backward node mem_cons_self, toFirst]

end Walks

theorem neighbours_mem (head : Nat) (front back : List Nat) :
    front.getLast?.getD head ∈ head :: (front ++ back) ∧
      back.head?.getD head ∈ head :: (front ++ back) := by
  constructor
  · rcases eq_nil_or_concat' front with rfl | ⟨rest, last, rfl⟩
    · exact mem_cons_self
    · rw [List.getLast?_concat]
      simp
  · rcases back with _ | ⟨first, rest⟩ <;> simp

/-! ### Linking in and taking out -/

/-- Link a node in between two neighbours. -/
def insert (gap : Nat) (mem : Memory) (new before behind : Nat) : Memory :=
  Function.update (Function.update
    (Function.update (Function.update mem (behind + gap) new) new behind)
    (new + gap) before) before new

/-- Link the neighbours of a node to each other. -/
def remove (gap : Nat) (mem : Memory) (node : Nat) : Memory :=
  Function.update (Function.update mem (mem node + gap) (mem (node + gap)))
    (mem (node + gap)) (mem node)

theorem insert_apply (new before behind address : Nat) :
    insert gap mem new before behind address =
      if address = before then new else if address = new + gap then before
      else if address = new then behind else if address = behind + gap then new
      else mem address := by
  simp only [insert, update_apply]

theorem remove_apply (node address : Nat) :
    remove gap mem node address = if address = mem (node + gap) then mem node
      else if address = mem node + gap then mem (node + gap) else mem address := by
  simp only [remove, update_apply]

namespace IsRing

variable {head node : Nat} {nodes front back tail : List Nat}

/-- A ring at a place: the nodes on both sides of it and the link between them. -/
theorem split (ring : IsRing gap mem head (front ++ back)) :
    ∃ before behind tail, back ++ [head] = behind :: tail ∧ Leads gap mem head front before ∧
      Linked gap mem before behind ∧ Leads gap mem behind tail head := by
  have leads := ring.leads
  rw [append_assoc] at leads
  obtain ⟨before, early, late⟩ := leads_append.mp leads
  rcases whole : back ++ [head] with _ | ⟨behind, tail⟩
  · simp at whole
  · rw [whole] at late
    exact ⟨before, behind, tail, rfl, early, late.1, late.2⟩

theorem head_behind (whole : back ++ [head] = node :: tail) : back.head?.getD head = node := by
  rcases back with _ | ⟨first, rest⟩ <;> exact (List.cons.inj whole).1

theorem backward (ring : IsRing gap mem head (front ++ back)) :
    mem (back.head?.getD head + gap) = front.getLast?.getD head := by
  obtain ⟨before, behind, tail, whole, early, linked, -⟩ := ring.split
  rw [head_behind whole, linked.2, early.last_eq]

theorem forward (ring : IsRing gap mem head (front ++ back)) :
    mem (front.getLast?.getD head) = back.head?.getD head := by
  obtain ⟨before, behind, tail, whole, early, linked, -⟩ := ring.split
  rw [head_behind whole, ← early.last_eq, linked.1]

/-- The links lead from the head to each node of the ring and, but for the head, to no others. -/
theorem mem_iff (ring : IsRing gap mem head nodes) :
    node ∈ nodes ↔ node ≠ head ∧ ∃ steps, mem^[steps] head = node := by
  constructor
  · intro member
    exact ⟨fun same => (nodup_cons.mp ring.separate.nodup).1 (same ▸ member),
      ring.leads.reaches node (mem_append_left _ member)⟩
  · rintro ⟨notHead, steps, rfl⟩
    have closed : ∀ place ∈ head :: nodes, mem place ∈ head :: nodes := by
      intro place member
      rcases mem_cons.mp member with rfl | inside
      · have next := @forward _ _ _ [] _ ring
        rw [show mem place = nodes.head?.getD place from next]
        rcases nodes with _ | ⟨first, rest⟩ <;> simp
      · obtain ⟨front, back, rfl⟩ := append_of_mem inside
        have next := @forward _ _ _ (front ++ [place]) _ (by rwa [append_assoc, singleton_append])
        rw [List.getLast?_concat, Option.getD_some] at next
        rw [next]
        rcases back with _ | ⟨first, rest⟩ <;> simp
    have inside : mem^[steps] head ∈ head :: nodes := by
      induction steps with
      | zero => exact mem_cons_self
      | succ steps inductionHypothesis =>
        rw [iterate_succ_apply']
        by_cases atHead : mem^[steps] head = head
        · rw [atHead]
          exact closed head mem_cons_self
        · exact closed _ (inductionHypothesis atHead)
    exact (mem_cons.mp inside).resolve_left notHead

theorem congr (ring : IsRing gap mem head nodes)
    (same : ∀ node ∈ head :: nodes, after node = mem node ∧ after (node + gap) = mem (node + gap)) :
    IsRing gap after head nodes := by
  obtain ⟨before, behind, tail, whole, early, linked, late⟩ := @split _ _ _ [] _ ring
  obtain rfl : head = before := early
  have members : ∀ node ∈ behind :: tail, node ∈ head :: nodes := by
    intro node member
    rw [← whole] at member
    rcases mem_append.mp member with inside | isHead
    · exact mem_cons_of_mem _ inside
    · exact mem_cons.mpr (Or.inl (mem_singleton.mp isHead))
  have nodup : (behind :: tail).Nodup := by
    rw [← whole]
    exact (nodup_middle.mpr (by rw [append_nil]; exact ring.separate.nodup))
  refine ⟨?_, ring.separate⟩
  rw [whole]
  refine ⟨⟨?_, ?_⟩, late.congr nodup (fun node member _ => (same node (members node member)).1)
    fun node member => (same node (members node (mem_cons_of_mem _ member))).2⟩
  · rw [(same head mem_cons_self).1, linked.1]
  · rw [(same behind (members behind mem_cons_self)).2, linked.2]

/-- When only the links between the two sides of a place change, each side leads as before. -/
theorem sides {before behind : Nat} (early : Leads gap mem head front before)
    (late : Leads gap mem behind tail head) (frontNodup : (head :: front).Nodup)
    (tailNodup : (behind :: tail).Nodup) (apart : ∀ node ∈ front, node ∉ behind :: tail)
    (same : ∀ node ∈ head :: (front ++ behind :: tail), (node ≠ before → after node = mem node) ∧
        (node ≠ behind → after (node + gap) = mem (node + gap))) :
    Leads gap after head front before ∧ Leads gap after behind tail head := by
  have frontMember : ∀ node ∈ head :: front, node ∈ head :: (front ++ behind :: tail) := by
    intro node member
    rcases mem_cons.mp member with rfl | inside
    · exact mem_cons_self
    · exact mem_cons_of_mem _ (mem_append_left _ inside)
  have tailMember : ∀ node ∈ behind :: tail, node ∈ head :: (front ++ behind :: tail) :=
    fun node member => mem_cons_of_mem _ (mem_append_right _ member)
  constructor
  · refine early.congr frontNodup (fun node member => (same node (frontMember node member)).1)
      fun node member => (same node (frontMember node (mem_cons_of_mem _ member))).2 ?_
    rintro rfl
    exact apart node member mem_cons_self
  · refine late.congr tailNodup (fun node member notHead =>
      (same node (tailMember node member)).1 ?_) fun node member =>
      (same node (tailMember node (mem_cons_of_mem _ member))).2 ?_
    · rintro rfl
      rcases mem_cons.mp early.last_mem with isHead | inside
      · exact notHead isHead
      · exact apart node inside member
    · rintro rfl
      exact (nodup_cons.mp tailNodup).1 member

theorem sides_nodup (nodup : (head :: (front ++ back)).Nodup) {behind : Nat}
    (whole : back ++ [head] = behind :: tail) :
    (head :: front).Nodup ∧ (behind :: tail).Nodup ∧ ∀ node ∈ front, node ∉ behind :: tail := by
  have cycle : (front ++ behind :: tail).Nodup := by
    rw [← whole, ← append_assoc]
    exact nodup_middle.mpr (by rwa [append_nil])
  obtain ⟨-, tailNodup, apart⟩ := nodup_append.mp cycle
  refine ⟨nodup.sublist (List.Sublist.cons_cons _ (sublist_append_left _ _)), tailNodup,
    fun node inFront inTail => apart node inFront node inTail rfl⟩

theorem mem_of_sides (whole : back ++ [head] = node :: tail) {other : Nat}
    (member : other ∈ head :: (front ++ node :: tail)) : other ∈ head :: (front ++ back) := by
  rw [← whole] at member
  simp only [mem_cons, mem_append, not_mem_nil, or_false] at member ⊢
  tauto

/-- Linking in a node between the nodes on both sides of a place. -/
theorem insert (ring : IsRing gap mem head (front ++ back)) {new : Nat}
    (apart : Separate gap (head :: new :: (front ++ back))) :
    IsRing gap (Ring.insert gap mem new (front.getLast?.getD head) (back.head?.getD head)) head
      (front ++ new :: back) := by
  obtain ⟨before, behind, tail, whole, early, linked, late⟩ := ring.split
  rw [head_behind whole, ← early.last_eq]
  obtain ⟨frontNodup, tailNodup, sideways⟩ := sides_nodup ring.separate.nodup whole
  have separate := apart.perm (List.Perm.swap new head (front ++ back))
  obtain ⟨fresh, -⟩ := nodup_cons.mp separate.nodup
  have old : ∀ node ∈ head :: (front ++ behind :: tail), node ≠ new ∧ node ≠ new + gap ∧
      new ≠ node + gap ∧ ∀ other ∈ head :: (front ++ behind :: tail), node ≠ other + gap := by
    intro node member
    have known := mem_of_sides whole member
    refine ⟨?_, separate.links node (mem_cons_of_mem _ known) new mem_cons_self,
      separate.links new mem_cons_self node (mem_cons_of_mem _ known),
      fun other otherMember => separate.links node (mem_cons_of_mem _ known) other
        (mem_cons_of_mem _ (mem_of_sides whole otherMember))⟩
    rintro rfl
    exact fresh known
  have beforeMember : before ∈ head :: (front ++ behind :: tail) :=
    mem_append_left (behind :: tail) early.last_mem
  have behindMember : behind ∈ head :: (front ++ behind :: tail) := by simp
  obtain ⟨beforeNew, beforeLink, newBefore, beforeLinks⟩ := old before beforeMember
  obtain ⟨behindNew, behindLink, newBehind, behindLinks⟩ := old behind behindMember
  have newLink : new ≠ new + gap := separate.links new mem_cons_self new mem_cons_self
  obtain ⟨newEarly, newLate⟩ :=
    @sides _ _ (Ring.insert gap mem new before behind) _ _ _
    before behind early late frontNodup tailNodup sideways fun node member => by
      obtain ⟨nodeNew, nodeLink, newNode, links⟩ := old node member
      have backLinks := beforeLinks node member
      constructor
      · intro notBefore
        rw [insert_apply, if_neg notBefore, if_neg nodeLink, if_neg nodeNew,
          if_neg (links behind behindMember)]
      · intro notBehind
        rw [insert_apply, if_neg (Ne.symm backLinks), if_neg (by omega), if_neg (Ne.symm newNode),
          if_neg (by omega)]
  have toNew : Linked gap (Ring.insert gap mem new before behind) before new :=
    ⟨by rw [insert_apply, if_pos rfl], by
      rw [insert_apply, if_neg (Ne.symm beforeLink), if_pos rfl]⟩
  have fromNew : Linked gap (Ring.insert gap mem new before behind) new behind := by
    constructor
    · rw [insert_apply, if_neg (Ne.symm beforeNew), if_neg newLink, if_pos rfl]
    · rw [insert_apply, if_neg (Ne.symm (beforeLinks behind behindMember)), if_neg (by omega),
        if_neg (Ne.symm newBehind), if_pos rfl]
  refine ⟨?_, ?_⟩
  · rw [append_assoc, cons_append, whole]
    exact leads_append.mpr ⟨before, newEarly, toNew, fromNew, newLate⟩
  · exact apart.perm (perm_middle.symm.cons head)

theorem remove (ring : IsRing gap mem head (front ++ node :: back)) :
    IsRing gap (Ring.remove gap mem node) head (front ++ back) := by
  have leads := ring.leads
  rw [append_assoc] at leads
  obtain ⟨before, early, ⟨toNode, fromNode⟩, rest⟩ := leads_append.mp leads
  rcases whole : back ++ [head] with _ | ⟨behind, tail⟩
  · simp at whole
  change Leads gap mem node (back ++ [head]) head at rest
  rw [whole] at rest
  obtain ⟨⟨toBehind, fromBehind⟩, late⟩ := rest
  have smaller : (head :: (front ++ back)).Sublist (head :: (front ++ node :: back)) :=
    ((sublist_cons_self node back).append_left front).cons_cons head
  obtain ⟨frontNodup, tailNodup, apart⟩ := sides_nodup (ring.separate.nodup.sublist smaller) whole
  have links : ∀ first ∈ head :: (front ++ behind :: tail),
      ∀ second ∈ head :: (front ++ behind :: tail),
      first ≠ second + gap := fun first firstMember second secondMember =>
    ring.separate.links first (smaller.subset (mem_of_sides whole firstMember)) second
      (smaller.subset (mem_of_sides whole secondMember))
  have beforeMember : before ∈ head :: (front ++ behind :: tail) :=
    mem_append_left (behind :: tail) early.last_mem
  have behindMember : behind ∈ head :: (front ++ behind :: tail) := by simp
  have cells : ∀ address, Ring.remove gap mem node address =
      if address = before then behind else if address = behind + gap then before
        else mem address := by
    intro address
    rw [remove_apply, toBehind, fromNode]
  obtain ⟨newEarly, newLate⟩ :=
    @sides _ _ (Ring.remove gap mem node) _ _ _ _ _
    early late frontNodup tailNodup apart fun other member => by
      have backLink := links before beforeMember other member
      constructor
      · intro notBefore
        rw [cells, if_neg notBefore, if_neg (links other member behind behindMember)]
      · intro notBehind
        rw [cells, if_neg (Ne.symm backLink), if_neg (by omega)]
  have joined : Linked gap (Ring.remove gap mem node) before behind :=
    ⟨by rw [cells, if_pos rfl], by
      rw [cells, if_neg (Ne.symm (links before beforeMember behind behindMember)), if_pos rfl]⟩
  refine ⟨?_, ring.separate.nodup.sublist smaller, fun first firstMember second secondMember =>
    ring.separate.links first (smaller.subset firstMember) second (smaller.subset secondMember)⟩
  rw [append_assoc, whole]
  exact leads_append.mpr ⟨before, newEarly, joined, newLate⟩

end IsRing

/-! ### Searching -/

/-- Follow the forward links until the head or a node to stop at; `none` when that takes more
steps than allowed. -/
def seek (mem : Memory) (head : Nat) (stop : Nat → Bool) : Nat → Nat → Option Nat
  | 0, _ => none
  | fuel + 1, node =>
    if node = head || stop node then some node else seek mem head stop fuel (mem node)

theorem seek_mono {head : Nat} {stop : Nat → Bool} {fuel more node found : Nat}
    (bound : fuel ≤ more)
    (ends : seek mem head stop fuel node = some found) :
    seek mem head stop more node = some found := by
  induction fuel generalizing more node with
  | zero => cases ends
  | succ fuel inductionHypothesis =>
    obtain ⟨rest, rfl⟩ := Nat.exists_eq_add_of_le' (Nat.one_le_of_lt bound)
    rw [seek] at ends ⊢
    split at ends
    · rename_i here
      rw [if_pos here, ends]
    · rename_i further
      rw [if_neg further]
      exact inductionHypothesis (Nat.le_of_succ_le_succ bound) ends

/-- The search ends at a place: nothing in front of it is a node to stop at, and what is behind
it is one or the head. -/
theorem IsRing.seek {head fuel : Nat} {nodes : List Nat} (ring : IsRing gap mem head nodes)
    (stop : Nat → Bool) (enough : nodes.length < fuel) :
    ∃ front back, nodes = front ++ back ∧ (∀ node ∈ front, stop node = false) ∧
      (∀ node ∈ back.head?, stop node = true) ∧
      Ring.seek mem head stop fuel (mem head) = some (back.head?.getD head) := by
  have general : ∀ (rest : List Nat) (start fuel : Nat), Leads gap mem start (rest ++ [head]) head →
      head ∉ rest → rest.length < fuel →
      ∃ front back, rest = front ++ back ∧ (∀ node ∈ front, stop node = false) ∧
        (∀ node ∈ back.head?, stop node = true) ∧
        Ring.seek mem head stop fuel (mem start) = some (back.head?.getD head) := by
    intro rest
    induction rest with
    | nil =>
      rintro start (_ | fuel) leads - enough
      · cases enough
      · exact ⟨[], [], rfl, nofun, nofun, by rw [leads.1.1, Ring.seek]; simp⟩
    | cons node rest inductionHypothesis =>
      rintro start (_ | fuel) leads absent enough
      · cases enough
      obtain ⟨⟨toNode, -⟩, later⟩ := leads
      have notHead : node ≠ head := fun same => absent (same ▸ mem_cons_self)
      rw [toNode, Ring.seek]
      by_cases here : stop node = true
      · exact ⟨[], node :: rest, rfl, nofun, by simpa using here, by simp [here]⟩
      · obtain ⟨front, back, split, passed, stops, found⟩ := inductionHypothesis node fuel later
          (fun member => absent (mem_cons_of_mem _ member)) (Nat.lt_of_succ_lt_succ enough)
        refine ⟨node :: front, back, by rw [split]; rfl, ?_, stops, ?_⟩
        · intro other member
          rcases mem_cons.mp member with rfl | inside
          · exact Bool.eq_false_iff.mpr here
          · exact passed other inside
        · rw [if_neg (by simp [notHead, here])]
          exact found
  exact general nodes head fuel ring.leads (nodup_cons.mp ring.separate.nodup).1 enough

end Ring

end AIMv6
