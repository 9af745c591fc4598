/-
This file proves what `map_pages` and `unmap_pages` of the ARM port do to the translation of
addresses.

The loop maps one block after the other, and each block is mapped as `Maps` says. Addresses are
numbers modulo the size of the address space, so a range may go over its end. By induction over
the loop an address of the range ends up translated as asked for, and an address outside of it
keeps its translation, unless its megabyte was mapped as a section and the range reaches into
that megabyte: then a page mapping has put an empty table in the place of the section.
`unmap_pages` does not change the tables.
-/

import AIMv6.ArmWalk

namespace AIMv6

namespace Arm

/-! ### Ranges -/

/-- The distance from one address up to another. -/
def distance (vaddr va : Nat) : Nat := (va + 2 ^ 32 - vaddr) % 2 ^ 32

/-- The address is in the range of a size that begins at an address. -/
def InRange (vaddr size va : Nat) : Prop := distance vaddr va < size

instance (vaddr size va : Nat) : Decidable (InRange vaddr size va) :=
  inferInstanceAs (Decidable (_ < _))

theorem inRange_iff {vaddr size va : Nat} (fits : vaddr + size ≤ 2 ^ 32) (small : va < 2 ^ 32)
    (nonempty : 0 < size) : InRange vaddr size va ↔ vaddr ≤ va ∧ va < vaddr + size := by
  unfold InRange distance
  omega

section Cut

variable {vaddr block size va : Nat} (fits : vaddr + block ≤ 2 ^ 32) (positive : 0 < block)
  (inside : block ≤ size) (small : va < 2 ^ 32)

include fits positive inside small in
theorem inRange_cut :
    InRange vaddr size va ↔
      Block vaddr block va ∨ InRange ((vaddr + block) % 2 ^ 32) (size - block) va := by
  unfold InRange distance Block
  omega

include fits positive inside small in
theorem distance_cut (total : size ≤ 2 ^ 32)
    (later : InRange ((vaddr + block) % 2 ^ 32) (size - block) va) :
    distance vaddr va = distance ((vaddr + block) % 2 ^ 32) va + block := by
  unfold InRange distance at later
  unfold distance
  omega

include positive inside small in
theorem not_inRange_of_block (total : size ≤ 2 ^ 32) (here : Block vaddr block va) :
    ¬ InRange ((vaddr + block) % 2 ^ 32) (size - block) va := by
  unfold Block at here
  unfold InRange distance
  omega

end Cut

/-! ### The loop -/

/-- What mapping a range does to the walk. -/
structure Spreads (tables after : Tables) (vaddr paddr size flags : Nat) : Prop where
  wellFormed : WellFormed after
  inside : ∀ va < 2 ^ 32, InRange vaddr size va →
    walk after va = some ⟨(paddr + distance vaddr va) % 2 ^ 32, convertFlags flags⟩
  kept : ∀ va < 2 ^ 32, ¬ InRange vaddr size va →
    (isSectEntry (tables.l1 (l1Index va)) = true →
      ∀ other < 2 ^ 32, l1Index other = l1Index va → ¬ InRange vaddr size other) →
    walk after va = walk tables va
  lost : ∀ va < 2 ^ 32, ¬ InRange vaddr size va → isSectEntry (tables.l1 (l1Index va)) = true →
    ∀ other < 2 ^ 32, l1Index other = l1Index va → InRange vaddr size other → walk after va = none

variable {tables middle after : Tables} {vaddr paddr size flags : Nat}

theorem Spreads.nothing (wellFormed : WellFormed tables) :
    Spreads tables tables vaddr paddr 0 flags :=
  ⟨wellFormed, fun _ _ none => absurd none (Nat.not_lt_zero _), fun _ _ _ _ => rfl,
    fun _ _ _ _ _ _ _ none => absurd none (Nat.not_lt_zero _)⟩

/-- A block is a page or a section. -/
def IsBlock (block : Nat) : Prop := block = pageSize ∨ block = sectSize

namespace IsBlock

variable {block va : Nat} (isBlock : IsBlock block)

include isBlock

theorem pos : 0 < block := by rcases isBlock with rfl | rfl <;> decide

theorem limit_le (fits : vaddr < 2 ^ 32) (aligned : vaddr % block = 0) :
    vaddr + block ≤ 2 ^ 32 := by
  rcases isBlock with rfl | rfl
  · unfold pageSize at *
    omega
  · unfold sectSize at *
    omega

/-- A block does not reach into another slot of the first level. -/
theorem l1Index_eq (aligned : vaddr % block = 0) (here : Block vaddr block va) :
    l1Index va = l1Index vaddr := by
  rw [Arm.l1Index_eq, Arm.l1Index_eq]
  unfold Block at here
  rcases isBlock with rfl | rfl
  · unfold pageSize at *
    omega
  · unfold sectSize at *
    omega

theorem offset_eq (aligned : vaddr % block = 0) (physicalAligned : paddr % block = 0)
    (here : Block vaddr block va) :
    paddr % 2 ^ 32 + (va - vaddr) = (paddr + distance vaddr va) % 2 ^ 32 := by
  unfold Block at here
  unfold distance
  rcases isBlock with rfl | rfl
  · unfold pageSize at *
    omega
  · unfold sectSize at *
    omega

end IsBlock

section Cons

variable {block va : Nat} (isBlock : IsBlock block) (fits : vaddr < 2 ^ 32)
  (aligned : vaddr % block = 0) (physicalAligned : paddr % block = 0) (within : block ≤ size)
  (total : size ≤ 2 ^ 32) (first : Maps tables middle vaddr paddr block flags)
  (later : Spreads middle after ((vaddr + block) % 2 ^ 32) ((paddr + block) % 2 ^ 64)
    (size - block) flags)

include isBlock aligned within total first later in
/-- What is mapped behind the first block leaves the rest of its slot alone. -/
theorem Spreads.slot_kept (small : va < 2 ^ 32) (slot : l1Index va = l1Index vaddr)
    (outside : ¬ InRange ((vaddr + block) % 2 ^ 32) (size - block) va) :
    walk after va = walk middle va := by
  refine later.kept va small outside fun sect other otherSmall otherSlot => ?_
  refine not_inRange_of_block isBlock.pos within otherSmall total ?_
  rw [← otherSlot] at sect
  rcases first.settled with table | rfl
  · rw [otherSlot, slot, table] at sect
    cases sect
  · have same := otherSlot.trans slot
    rw [Arm.l1Index_eq, Arm.l1Index_eq] at same
    unfold Block sectSize at *
    omega

include isBlock fits aligned physicalAligned within total first later in
/-- Mapping a range is mapping its first block and then what is behind it. -/
theorem Spreads.cons : Spreads tables after vaddr paddr size flags := by
  have whole := isBlock.limit_le fits aligned
  have cut := fun va small => @inRange_cut _ _ _ va whole isBlock.pos within small
  have stays := fun va small slot =>
    @Spreads.slot_kept _ _ _ _ _ _ _ _
    va isBlock aligned within total first later small slot
  have start : InRange vaddr size vaddr :=
    (cut vaddr fits).mpr (Or.inl ⟨le_rfl, Nat.lt_add_of_pos_right isBlock.pos⟩)
  refine ⟨later.wellFormed, fun va small ranged => ?_, fun va small outside untouched => ?_,
    fun va small outside sect other otherSmall otherSlot ranged => ?_⟩
  · rcases (cut va small).mp ranged with here | behind
    · rw [stays va small (isBlock.l1Index_eq aligned here)
        (not_inRange_of_block isBlock.pos within small total here), first.inside va here,
        isBlock.offset_eq aligned physicalAligned here]
    · rw [later.inside va small behind, distance_cut whole isBlock.pos within small total behind]
      have offset : ((paddr + block) % 2 ^ 64 + distance ((vaddr + block) % 2 ^ 32) va) % 2 ^ 32 =
          (paddr + (distance ((vaddr + block) % 2 ^ 32) va + block)) % 2 ^ 32 := by
        omega
      rw [offset]
  · rw [cut va small, not_or] at outside
    have same : walk middle va = walk tables va := by
      refine first.kept va small outside.1 fun slot => ?_
      by_contra sect
      rw [Bool.not_eq_false, ← slot] at sect
      exact untouched sect vaddr fits slot.symm start
    rw [← same]
    by_cases slot : l1Index va = l1Index vaddr
    · exact stays va small slot outside.2
    · refine later.kept va small outside.2 fun sect other otherSmall otherSlot otherRanged => ?_
      rw [first.others _ slot] at sect
      exact untouched sect other otherSmall otherSlot
        ((cut other otherSmall).mpr (Or.inr otherRanged))
  · rw [cut va small, not_or] at outside
    by_cases slot : l1Index va = l1Index vaddr
    · rw [stays va small slot outside.2]
      exact first.lost va outside.1 slot (slot ▸ sect)
    · refine later.lost va small outside.2 (by rwa [first.others _ slot]) other
        otherSmall otherSlot ?_
      refine ((cut other otherSmall).mp ranged).resolve_left fun here => slot ?_
      rw [← otherSlot, isBlock.l1Index_eq aligned here]

end Cons

/-- The loop of `map_pages`, with any test for a section that allows one only where it fits. -/
theorem mapLoop_spreads {large : Nat → Nat → Nat → Bool} (sound : ∀ vaddr paddr size,
      large vaddr paddr size = true → vaddr % sectSize = 0 ∧ paddr % sectSize = 0 ∧ sectSize ≤ size)
    (rounds : Nat) (wellFormed : WellFormed tables) (fits : vaddr < 2 ^ 32)
    (aligned : vaddr % pageSize = 0) (physicalAligned : paddr % pageSize = 0)
    (whole : size % pageSize = 0) (total : size ≤ 2 ^ 32)
    (done : mapLoop large flags rounds vaddr paddr size tables = some after) :
    Spreads tables after vaddr paddr size flags := by
  induction rounds generalizing vaddr paddr size tables with
  | zero =>
    rw [mapLoop] at done
    split at done
    · rename_i none
      cases done
      rw [none]
      exact Spreads.nothing wellFormed
    · cases done
  | succ rounds inductionHypothesis =>
    rw [mapLoop] at done
    split at done
    · rename_i some
      split at done
      · rename_i isLarge
        obtain ⟨sectAligned, sectPhysical, room⟩ := sound vaddr paddr size isLarge
        have first := @mapSect_maps _ _ _ flags wellFormed fits sectAligned sectPhysical
        refine Spreads.cons (Or.inr rfl) fits sectAligned sectPhysical room total first
          (inductionHypothesis first.wellFormed (Nat.mod_lt _ (by decide)) ?_ ?_ ?_ (by omega) done)
        all_goals
          unfold pageSize sectSize at *
          omega
      · obtain ⟨middle, mapped, rest⟩ := Option.bind_eq_some_iff.mp done
        have first := mapPage_maps wellFormed fits aligned physicalAligned mapped
        have room : pageSize ≤ size := by
          unfold pageSize at *
          omega
        refine Spreads.cons (Or.inl rfl) fits aligned physicalAligned room total first
          (inductionHypothesis first.wellFormed (Nat.mod_lt _ (by decide)) ?_ ?_ ?_ (by omega) rest)
        all_goals
          unfold pageSize at *
          omega
    · rename_i none
      cases done
      obtain rfl : size = 0 := by omega
      exact Spreads.nothing wellFormed

variable {pgindex : Nat}

theorem accepts_iff : accepts pgindex vaddr paddr size = true ↔
    pgindex ≠ 0 ∧ vaddr % pageSize = 0 ∧ paddr % pageSize = 0 ∧ size % pageSize = 0 := by
  simp only [accepts, Bool.and_eq_true, decide_eq_true_eq, show pageSize = 2 ^ 12 from rfl,
    isAligned_two_pow, and_assoc]

theorem sectPossible_sound (vaddr paddr size : Nat)
    (possible : sectPossible vaddr paddr size = true) :
    vaddr % sectSize = 0 ∧ paddr % sectSize = 0 ∧ sectSize ≤ size := by
  rw [sectPossible, Bool.and_eq_true, Bool.and_eq_true, sectSize, isAligned_two_pow,
    isAligned_two_pow] at possible
  exact ⟨possible.1.1, possible.1.2, of_decide_eq_true possible.2⟩

/-- A call of `map_pages` changes nothing, or it is its loop. -/
theorem mapPages_cases {retval : Int} (wellFormed : WellFormed tables) (fits : vaddr < 2 ^ 32)
    (total : size ≤ 2 ^ 32)
    (call : mapPages pgindex vaddr paddr size flags tables = some (retval, after)) :
    (accepts pgindex vaddr paddr size = false ∧ retval = eof ∧ after = tables) ∨
    accepts pgindex vaddr paddr size = true ∧ retval = 0 ∧
      Spreads tables after vaddr paddr size flags := by
  unfold mapPages at call
  split at call
  · rename_i accepted
    obtain ⟨result, done, same⟩ := Option.map_eq_some_iff.mp call
    obtain ⟨rfl, rfl⟩ := Prod.mk.inj same
    obtain ⟨-, aligned, physicalAligned, whole⟩ := accepts_iff.mp accepted
    exact Or.inr ⟨accepted, rfl, mapLoop_spreads sectPossible_sound _ wellFormed fits aligned
      physicalAligned whole total done⟩
  · rename_i refused
    cases call
    exact Or.inl ⟨Bool.eq_false_iff.mpr refused, rfl, rfl⟩

theorem mapPages_spreads (wellFormed : WellFormed tables) (fits : vaddr < 2 ^ 32)
    (total : size ≤ 2 ^ 32)
    (call : mapPages pgindex vaddr paddr size flags tables = some (0, after)) :
    accepts pgindex vaddr paddr size = true ∧ Spreads tables after vaddr paddr size flags := by
  rcases mapPages_cases wellFormed fits total call with ⟨-, failed, -⟩ | ⟨accepted, -, spreads⟩
  · cases failed
  · exact ⟨accepted, spreads⟩

theorem wellFormed_of_cleared (cleared : ∀ index, tables.l1 index = 0) : WellFormed tables := by
  have none : ∀ index, isTableEntry (tables.l1 index) = false := by
    intro index
    rw [cleared]
    rfl
  constructor
  · intro first _ second _ table
    rw [none] at table
    cases table
  · intro index _ table
    rw [none] at table
    cases table

/-! ### Sections and pages -/

/-- After `map_pages` has returned 0, the walk of every address of the range finds the physical
address with the attributes of the flags, as it does when every page is mapped by itself. -/
theorem sections_agree_with_pages {pgindex : Nat} (wellFormed : WellFormed tables)
    (fits : vaddr + size ≤ 2 ^ 32) (physicalFits : paddr + size ≤ 2 ^ 32)
    (call : mapPages pgindex vaddr paddr size flags tables = some (0, after)) (va : Nat)
    (above : vaddr ≤ va) (below : va < vaddr + size) :
    walk after va = some ⟨paddr + (va - vaddr), convertFlags flags⟩ ∧
      ∀ each, mapEachPage vaddr paddr size flags tables = some each →
        walk each va = some ⟨paddr + (va - vaddr), convertFlags flags⟩ := by
  obtain ⟨accepted, spreads⟩ := mapPages_spreads wellFormed (by omega) (by omega) call
  obtain ⟨-, aligned, physicalAligned, whole⟩ := accepts_iff.mp accepted
  have ranged : InRange vaddr size va :=
    (inRange_iff fits (by omega) (by omega)).mpr ⟨above, below⟩
  have offset : (paddr + distance vaddr va) % 2 ^ 32 = paddr + (va - vaddr) := by
    unfold distance
    omega
  refine ⟨by rw [spreads.inside va (by omega) ranged, offset], fun each done => ?_⟩
  have pages := mapLoop_spreads (fun _ _ _ never => absurd never (by decide)) _
    wellFormed (by omega) aligned physicalAligned whole (by omega) done
  rw [pages.inside va (by omega) ranged, offset]

/-- A cleared first-level table and three second-level tables to hand out. -/
def emptyTables : Tables :=
  ⟨fun _ => 0, fun _ _ => 0, ⟨[], [some 0x4000, some 0x4400, some 0x4800], false, false⟩⟩

theorem emptyTables_wellFormed : WellFormed emptyTables := wellFormed_of_cleared fun _ => rfl

theorem result_of_zero {pgindex : Nat}
    (zero : (mapPages pgindex vaddr paddr size flags tables).map Prod.fst = some 0) :
    ∃ after, mapPages pgindex vaddr paddr size flags tables = some (0, after) := by
  obtain ⟨⟨retval, after⟩, call, rfl⟩ := Option.map_eq_some_iff.mp zero
  exact ⟨after, call⟩

/-- A page, a section and a page. -/
theorem sections_agree_with_pages_mixed :
    ∃ after, mapPages 1 0xFF000 0x1FF000 0x102000 vmaWrite emptyTables = some (0, after) ∧
      walk after 0x123456 = some ⟨0x223456, convertFlags vmaWrite⟩ := by
  obtain ⟨after, call⟩ :=
    @result_of_zero emptyTables 0xFF000 0x1FF000 0x102000 vmaWrite 1 (by decide)
  exact ⟨after, call, (sections_agree_with_pages emptyTables_wellFormed (by decide) (by decide) call
    0x123456 (by decide) (by decide)).1⟩

/-! ### The rest of the address space -/

/-- A call of `map_pages` between two states. -/
def Mapped (before after : Tables) : Prop :=
  ∃ pgindex vaddr paddr size flags retval, vaddr < 2 ^ 32 ∧ size < 2 ^ 32 ∧
    mapPages pgindex vaddr paddr size flags before = some (retval, after)

/-- The states after calls of `map_pages` on the table that `init_pgindex` returns. -/
def Reachable (tables : Tables) : Prop :=
  ∃ start : Tables, (∀ index, start.l1 index = 0) ∧ Relation.ReflTransGen Mapped start tables

theorem Reachable.wellFormed (reached : Reachable tables) : WellFormed tables := by
  obtain ⟨start, cleared, run⟩ := reached
  induction run with
  | refl => exact wellFormed_of_cleared cleared
  | tail earlier step inductionHypothesis =>
    obtain ⟨pgindex, vaddr, paddr, size, flags, retval, fits, total, call⟩ := step
    rcases mapPages_cases inductionHypothesis fits (le_of_lt total) call with
      ⟨-, -, rfl⟩ | ⟨-, -, spreads⟩
    · exact inductionHypothesis
    · exact spreads.wellFormed

/-- No megabyte that is mapped as a section lies partly inside and partly outside of the range. -/
def SectionsWhole (tables : Tables) (vaddr size : Nat) : Prop :=
  ∀ va < 2 ^ 32, ∀ other < 2 ^ 32, l1Index other = l1Index va →
    isSectEntry (tables.l1 (l1Index va)) = true → InRange vaddr size other → InRange vaddr size va

/-- `map_pages` keeps the translation of every address outside of its range exactly when it is
refused or no section lies partly inside of the range. -/
theorem outside_kept_iff {pgindex : Nat} {retval : Int} (reached : Reachable tables)
    (fits : vaddr < 2 ^ 32) (total : size < 2 ^ 32)
    (call : mapPages pgindex vaddr paddr size flags tables = some (retval, after)) :
    (∀ va < 2 ^ 32, ¬ InRange vaddr size va → walk after va = walk tables va) ↔
      (accepts pgindex vaddr paddr size = true → SectionsWhole tables vaddr size) := by
  rcases mapPages_cases reached.wellFormed fits (le_of_lt total) call with
    ⟨refused, -, rfl⟩ | ⟨accepted, -, spreads⟩
  · rw [refused]
    exact ⟨fun _ accepted => absurd accepted (by decide), fun _ _ _ _ => rfl⟩
  · constructor
    · intro same _ va small other otherSmall slot sect ranged
      by_contra outside
      have gone := spreads.lost va small outside sect other otherSmall slot ranged
      rw [same va small outside, walk] at gone
      simp only [sect, if_true] at gone
      cases gone
    · intro whole va small outside
      refine spreads.kept va small outside fun sect other otherSmall slot ranged => outside ?_
      exact whole accepted va small other otherSmall slot sect ranged

/-- The first megabyte is mapped as a section. -/
def oneSection : Tables := mapSect 0 0 vmaWrite emptyTables

theorem oneSection_reachable : Reachable oneSection := by
  refine ⟨emptyTables, fun _ => rfl, Relation.ReflTransGen.single ?_⟩
  exact ⟨1, 0, 0, sectSize, vmaWrite, 0, by decide, by decide, rfl⟩

/-- A page of another megabyte is mapped. -/
theorem outside_kept_iff_section :
    ∃ after, mapPages 1 0x100000 0x5000 0x1000 vmaWrite oneSection = some (0, after) ∧
      walk after 0x5000 = walk oneSection 0x5000 := by
  obtain ⟨after, call⟩ := @result_of_zero oneSection 0x100000 0x5000 0x1000 vmaWrite 1 (by decide)
  refine ⟨after, call, (outside_kept_iff oneSection_reachable (by decide) (by decide) call).mpr
    ?_ 0x5000 (by decide) (by decide)⟩
  intro _ va small other otherSmall slot sect ranged
  have megabyte : l1Index other = 1 := by
    unfold l1Index sectShift
    unfold InRange distance at ranged
    rw [Nat.shiftRight_eq_div_pow]
    omega
  rw [← slot, megabyte] at sect
  cases sect

/-- A page of a section is mapped: the other pages of the section are not mapped any more. -/
theorem page_in_section_unmaps_rest :
    ∃ after, Reachable oneSection ∧
      mapPages 1 0x1000 0x1000 0x1000 vmaWrite oneSection = some (0, after) ∧
      ¬ InRange 0x1000 0x1000 0x5000 ∧
      walk oneSection 0x5000 = some ⟨0x5000, convertFlags vmaWrite⟩ ∧ walk after 0x5000 = none := by
  have evaluated : (mapPages 1 0x1000 0x1000 0x1000 vmaWrite oneSection).map
      (fun result => (result.1, walk result.2 0x5000)) = some (0, none) := by decide
  obtain ⟨⟨retval, after⟩, call, values⟩ := Option.map_eq_some_iff.mp evaluated
  obtain ⟨rfl, gone⟩ := Prod.mk.inj values
  exact ⟨after, oneSection_reachable, call, by decide, by decide, gone⟩

/-! ### Unmapping -/

theorem unmapPages_unchanged {rounds pa returned stored : Nat}
    (call : unmapPages rounds vaddr size pa tables = some (returned, stored, after)) :
    stored = pa ∧ after = tables := by
  unfold unmapPages at call
  split at call
  split at call
  · cases call
    exact ⟨rfl, rfl⟩
  · obtain ⟨blockSize, -, same⟩ := Option.map_eq_some_iff.mp call
    cases same
    exact ⟨rfl, rfl⟩

/-- After `map_pages` has returned 0, no call of `unmap_pages` for the range removes it. -/
theorem unmapPages_removes_nothing {pgindex : Nat} (wellFormed : WellFormed tables)
    (fits : vaddr < 2 ^ 32) (positive : 0 < size) (total : size < 2 ^ 32)
    (call : mapPages pgindex vaddr paddr size flags tables = some (0, after)) (pa : Nat) :
    ¬ ∃ rounds result, unmapPages rounds vaddr size pa after = some (size, paddr, result) ∧
      (∀ va < 2 ^ 32, InRange vaddr size va → walk result va = none) ∧
      ∀ va < 2 ^ 32, ¬ InRange vaddr size va → walk result va = walk after va := by
  rintro ⟨rounds, result, unmapped, gone, -⟩
  obtain ⟨-, spreads⟩ := mapPages_spreads wellFormed fits (le_of_lt total) call
  obtain ⟨-, rfl⟩ := unmapPages_unchanged unmapped
  have start : InRange vaddr size vaddr := by
    unfold InRange distance
    omega
  have mapped := spreads.inside vaddr fits start
  rw [gone vaddr fits start] at mapped
  cases mapped

/-- One page is mapped and unmapped: it stays mapped, and `*paddr` is not written. -/
theorem unmapped_page_stays :
    ∃ after, mapPages 1 0x1000 0x3000 0x1000 vmaWrite emptyTables = some (0, after) ∧
      unmapPages 1 0x1000 0x1000 0 after = some (0x1000, 0, after) ∧
      walk after 0x1000 = some ⟨0x3000, convertFlags vmaWrite⟩ := by
  obtain ⟨after, call⟩ := @result_of_zero emptyTables 0x1000 0x3000 0x1000 vmaWrite 1 (by decide)
  cases call
  exact ⟨_, rfl, rfl, by decide⟩

theorem unmapPages_removes_nothing_page :
    ∃ after, mapPages 1 0x1000 0x3000 0x1000 vmaWrite emptyTables = some (0, after) ∧
      ¬ ∃ rounds result, unmapPages rounds 0x1000 0x1000 0 after = some (0x1000, 0x3000, result) ∧
        (∀ va < 2 ^ 32, InRange 0x1000 0x1000 va → walk result va = none) ∧
        ∀ va < 2 ^ 32, ¬ InRange 0x1000 0x1000 va → walk result va = walk after va := by
  obtain ⟨after, call⟩ := @result_of_zero emptyTables 0x1000 0x3000 0x1000 vmaWrite 1 (by decide)
  exact ⟨after, call, unmapPages_removes_nothing emptyTables_wellFormed (by decide) (by decide)
    (by decide) call 0⟩

end Arm

end AIMv6
