/-
This file proves what `map_pages` does to the translation of addresses.

The first pass only extends the tree: when it succeeds every page of the range has a leaf
table and no page's entry has changed. The second pass stores one entry for each page. So
after a call that returns 0 a lookup of a page of the range gives its physical address with
the mode bits of the flags, and a lookup of any other page gives what it gave before, with a
missing leaf table and an empty entry both read as an absent page.
-/

import AIMv6.PageTableTree

namespace AIMv6

open Kernel Radix Nat

/-- What a lookup through `__getpagedesc` finds for an address: the entry, or no leaf table. -/
def lookup (abi : Abi) (pgindex : Nat) (desc : PageDesc) (kernel : Kernel) (va : Nat) :
    Option Nat :=
  match getpagedesc abi pgindex va false desc kernel with
  | (retcode, desc, kernel) =>
    if retcode = 0 then some (kernel.word abi desc.ptev desc.ptx) else none

theorem lookup_eq (abi : Abi) (pgindex : Nat) (desc : PageDesc) (kernel : Kernel) (va : Nat) :
    lookup abi pgindex desc kernel va =
      (leaf abi pgindex kernel va).map fun table => kernel.word abi table (ptx abi va) := by
  unfold lookup
  rcases getpagedesc_find abi pgindex va desc kernel with
    ⟨missing, found, call⟩ | ⟨found, there, index, call⟩
  · rw [call, missing]
    rfl
  · rw [call, there, ← index]
    rfl

theorem lookup_getD (abi : Abi) (pgindex : Nat) (desc : PageDesc) (kernel : Kernel) (va : Nat) :
    (lookup abi pgindex desc kernel va).getD 0 = entry abi pgindex kernel va := by
  rw [lookup_eq]
  rfl

theorem Abi.two_pow_addressBits_le (abi : Abi) : 2 ^ abi.addressBits ≤ abi.modulus :=
  Nat.pow_le_pow_right (by decide) (by cases abi <;> decide)

theorem pgtablePerm_lt (flags : Nat) : pgtablePerm flags < 4096 := by
  unfold pgtablePerm machPgtablePerm
  split <;> decide

variable {abi : Abi} {paddr pgindex : Nat} {kernel after : Kernel}

theorem entry_mod {perm : Nat} (fits : paddr < 2 ^ abi.addressBits)
    (mode : perm < 4096) : (paddr ||| perm) % abi.modulus = paddr ||| perm := by
  have wide : 2 ^ 12 ≤ 2 ^ abi.bits :=
    Nat.pow_le_pow_right (by decide) (by cases abi <;> decide)
  exact mod_eq_of_lt (or_lt_two_pow (lt_of_lt_of_le fits abi.two_pow_addressBits_le)
    (lt_of_lt_of_le mode wide))

theorem page_div_inj {first second : Nat} (firstWhole : first % pageSize = 0)
    (secondWhole : second % pageSize = 0) :
    first / pageSize = second / pageSize ↔ first = second := by
  unfold pageSize at *
  omega

/-! ### The two passes -/

/-- When the first pass succeeds it has extended the tree to the leaf table of every page. -/
theorem mapFirst_spec (pages : Nat) {vcur stop : Nat} {desc found : PageDesc}
    (wellFormed : WellFormed abi pgindex kernel)
    (fits : vcur + pages * pageSize ≤ 2 ^ abi.addressBits)
    (call : mapFirst abi pgindex pages vcur desc kernel = (0, stop, found, after)) :
    Extends abi pgindex kernel after ∧
      ∀ page < pages, ∃ table, leaf abi pgindex after (vcur + page * pageSize) = some table := by
  induction pages generalizing vcur desc kernel with
  | zero =>
    cases call
    exact ⟨Extends.refl wellFormed, fun page none => absurd none (not_lt_zero page)⟩
  | succ pages inductionHypothesis =>
    unfold mapFirst at call
    rcases getpagedesc_create wellFormed vcur desc with
      ⟨made, middle, failed⟩ | ⟨made, middle, done, extension, there, index⟩
    · simp only [failed, if_true] at call
      cases call
    simp only [done, if_neg (show ¬ (0 : Int) = -enomem by decide)] at call
    split at call
    · cases call
    have lower := mod_le (vcur + pageSize) abi.modulus
    have width := abi.two_pow_addressBits_le
    rw [succ_mul] at fits
    obtain ⟨later, leaves⟩ := inductionHypothesis extension.wellFormed (by omega) call
    refine ⟨extension.trans later, fun page bound => ?_⟩
    cases page with
    | zero => exact ⟨made.ptev, later.leaf_some (by rwa [zero_mul, add_zero])⟩
    | succ page =>
      obtain ⟨table, leafThere⟩ := leaves page (by omega)
      have room : pageSize ≤ pages * pageSize := Nat.le_mul_of_pos_left _ (by omega)
      have size : 0 < pageSize := by decide
      rw [mod_eq_of_lt (by omega)] at leafThere
      exact ⟨table, by rwa [succ_mul, add_comm (page * pageSize), ← add_assoc]⟩

/-- The second pass stores the entries of the range and nothing else. -/
theorem mapSecond_spec {abi : Abi} {pgindex perm : Nat} (pages : Nat) {pcur vcur : Nat}
    {desc : PageDesc} {kernel : Kernel} (wellFormed : WellFormed abi pgindex kernel)
    (aligned : vcur % pageSize = 0) (fits : vcur + pages * pageSize ≤ 2 ^ abi.addressBits)
    (leaves : ∀ page < pages, ∃ table,
      leaf abi pgindex kernel (vcur + page * pageSize) = some table) :
    WellFormed abi pgindex (mapSecond abi pgindex perm pages pcur vcur desc kernel) ∧
      (∀ page, leaf abi pgindex (mapSecond abi pgindex perm pages pcur vcur desc kernel) page =
        leaf abi pgindex kernel page) ∧
      ∀ page, page % pageSize = 0 → page < 2 ^ abi.addressBits →
        entry abi pgindex (mapSecond abi pgindex perm pages pcur vcur desc kernel) page =
          if vcur ≤ page ∧ page < vcur + pages * pageSize then
            ((pcur + (page - vcur)) ||| perm) % abi.modulus
          else entry abi pgindex kernel page := by
  induction pages generalizing pcur vcur desc kernel with
  | zero =>
    refine ⟨wellFormed, fun _ => rfl, fun page _ _ => ?_⟩
    rw [if_neg (by omega)]
    rfl
  | succ pages inductionHypothesis =>
    obtain ⟨table, there⟩ := leaves 0 (succ_pos pages)
    rw [zero_mul, add_zero] at there
    unfold mapSecond
    rcases getpagedesc_find abi pgindex vcur desc kernel with ⟨missing, -⟩ |
      ⟨made, found, index, call⟩
    · rw [missing] at there
      cases there
    simp only [call, index]
    have width := abi.two_pow_addressBits_le
    have size : pageSize = 4096 := rfl
    have lower := mod_le (vcur + pageSize) abi.modulus
    have alignedNext : (vcur + pageSize) % abi.modulus % pageSize = 0 := by
      rw [mod_mod_of_dvd _ (by cases abi <;> decide), add_mod_right]
      exact aligned
    have next : pages = 0 ∨ (vcur + pageSize) % abi.modulus = vcur + pageSize := by
      rcases Nat.eq_zero_or_pos pages with none | some
      · exact Or.inl none
      · have room : pageSize ≤ pages * pageSize := Nat.le_mul_of_pos_left _ some
        exact Or.inr (mod_eq_of_lt (by rw [succ_mul] at fits; omega))
    rw [succ_mul] at fits
    have leafSame := @leaf_setWord _ _ _ _ _ (pcur ||| perm) _ wellFormed found (ptx_lt abi vcur)
    obtain ⟨stays, leafLater, entries⟩ := @inductionHypothesis (pcur + pageSize)
      ((vcur + pageSize) % abi.modulus) _ _
      (wellFormed_setWord wellFormed found (ptx_lt abi vcur)) alignedNext (by omega) (by
        intro page bound
        obtain ⟨other, leafThere⟩ := leaves (page + 1) (by omega)
        rw [leafSame, next.resolve_left (by omega)]
        exact ⟨other, by rwa [succ_mul, add_comm (page * pageSize), ← add_assoc] at leafThere⟩)
    refine ⟨stays, fun page => (leafLater page).trans (leafSame page), fun page whole inside => ?_⟩
    rw [entries page whole inside, entry_setWord wellFormed found (by omega) inside]
    simp only [page_div_inj whole aligned, succ_mul]
    by_cases here : page = vcur
    · have notLater : ¬ ((vcur + pageSize) % abi.modulus ≤ page ∧
          page < (vcur + pageSize) % abi.modulus + pages * pageSize) := by
        rcases next with rfl | next <;> omega
      rw [if_neg notLater, if_pos here, if_pos (by omega), here, Nat.sub_self, Nat.add_zero]
    · rw [if_neg here]
      have later : ((vcur + pageSize) % abi.modulus ≤ page ∧
          page < (vcur + pageSize) % abi.modulus + pages * pageSize) ↔
          vcur ≤ page ∧ page < vcur + (pages * pageSize + pageSize) := by
        rw [size] at whole aligned
        rcases next with rfl | next <;> omega
      by_cases within : vcur ≤ page ∧ page < vcur + (pages * pageSize + pageSize)
      · have after := later.mpr within
        rw [if_pos after, if_pos within]
        have shifted : pcur + pageSize + (page - (vcur + pageSize) % abi.modulus) =
            pcur + (page - vcur) := by
          rcases next with rfl | next <;> omega
        rw [shifted]
      · rw [if_neg (mt later.mp within), if_neg within]

/-! ### The whole call -/

theorem mapPages_aligned {vaddr size flags : Nat}
    (call : mapPages abi pgindex vaddr paddr size flags kernel = (0, after)) :
    vaddr % pageSize = 0 ∧ paddr % pageSize = 0 ∧ size % pageSize = 0 := by
  unfold mapPages at call
  split at call
  · cases call
  rename_i accepted
  simp only [Bool.or_eq_true, Bool.not_eq_true', not_or, Bool.not_eq_false,
    show pageSize = 2 ^ 12 from rfl, isAligned_two_pow] at accepted
  exact ⟨accepted.2, accepted.1.1, accepted.1.2⟩

/-- A call of `map_pages` that returns 0 is its two passes. -/
theorem mapPages_zero {vaddr size flags : Nat} (physicalFits : paddr + size < 2 ^ 64)
    (call : mapPages abi pgindex vaddr paddr size flags kernel = (0, after)) :
    ∃ stop found middle, mapFirst abi pgindex (size / pageSize) vaddr kernel.freshDesc kernel =
        (0, stop, found, middle) ∧
      after = mapSecond abi pgindex (pgtablePerm flags) (size / pageSize) paddr vaddr found
        middle := by
  unfold mapPages at call
  split at call
  · cases call
  have count : (paddr + size) % 2 ^ 64 - paddr = size := by
    rw [mod_eq_of_lt physicalFits, Nat.add_sub_cancel_left]
  simp only [count] at call
  rcases first : mapFirst abi pgindex (size / pageSize) vaddr kernel.freshDesc kernel with
    ⟨retcode, stop, found, middle⟩
  rw [first] at call
  by_cases done : retcode = 0
  · simp only [if_pos done, Prod.mk.injEq, true_and] at call
    exact ⟨stop, found, middle, by rw [done], call.symm⟩
  · simp only [if_neg done, Prod.mk.injEq] at call
    exact absurd call.1 done

/-- `map_pages` maps its range and nothing else. -/
theorem mapPages_maps_range {abi : Abi} {pgindex vaddr paddr size flags : Nat}
    {kernel after : Kernel} (wellFormed : WellFormed abi pgindex kernel)
    (fits : vaddr + size ≤ 2 ^ abi.addressBits) (physicalFits : paddr + size ≤ 2 ^ abi.addressBits)
    (call : mapPages abi pgindex vaddr paddr size flags kernel = (0, after))
    (desc : PageDesc) (page : Nat) (whole : page % pageSize = 0)
    (inside : page < 2 ^ abi.addressBits) :
    (vaddr ≤ page ∧ page < vaddr + size →
      lookup abi pgindex desc after page =
        some ((paddr + (page - vaddr)) ||| pgtablePerm flags)) ∧
    (page < vaddr ∨ vaddr + size ≤ page →
      (lookup abi pgindex desc after page).getD 0 =
        (lookup abi pgindex desc kernel page).getD 0) := by
  have narrow : 2 ^ abi.addressBits ≤ 2 ^ 48 :=
    Nat.pow_le_pow_right (by decide) (by cases abi <;> decide)
  obtain ⟨aligned, -, wholeSize⟩ := mapPages_aligned call
  obtain ⟨stop, found, middle, first, rfl⟩ := mapPages_zero (by omega) call
  have length : size / pageSize * pageSize = size :=
    Nat.div_mul_cancel (Nat.dvd_of_mod_eq_zero wholeSize)
  obtain ⟨extension, leaves⟩ := mapFirst_spec (size / pageSize) wellFormed (by rwa [length]) first
  obtain ⟨-, leafSame, entries⟩ := @mapSecond_spec _ _ _
    (size / pageSize) paddr _ _ _ extension.wellFormed aligned (by rwa [length]) leaves
  have entryAfter := entries page whole inside
  rw [length] at entryAfter
  constructor
  · intro within
    rw [if_pos within, entry_mod (by omega) (pgtablePerm_lt flags)] at entryAfter
    have number : vaddr + (page - vaddr) / pageSize * pageSize = page := by
      unfold pageSize at *
      omega
    obtain ⟨table, there⟩ := leaves ((page - vaddr) / pageSize) (by unfold pageSize at *; omega)
    rw [number] at there
    have thereAfter := (leafSame page).trans there
    rw [lookup_eq, thereAfter, Option.map_some, ← entry_of_leaf thereAfter, entryAfter]
  · intro outside
    rw [if_neg (by omega)] at entryAfter
    rw [lookup_getD, lookup_getD, entryAfter, extension.entry_eq]

/-- A kernel with an empty top directory at physical page 0x1000 and more pages to grant. -/
def oneDirectory : Kernel :=
  { mem := fun _ => 0
    frames := ⟨[0x1000], [some 0x2000, some 0x3000, some 0x4000], false, false⟩
    junk := 0 }

theorem oneDirectory_wellFormed (abi : Abi) : WellFormed abi (pa2kva abi 0x1000) oneDirectory :=
  wellFormed_of_empty (by cases abi <;> decide) (by decide) fun _ => zero_mod _

/-- Two pages on both sides of the border of two leaf tables, and the pages around them. -/
theorem mapPages_maps_range_border :
    ∃ after, mapPages .ilp32 (pa2kva .ilp32 0x1000) 0x3ff000 0x9000 0x2000 0 oneDirectory =
        (0, after) ∧
      (∀ page ∈ [0, 1], lookup .ilp32 (pa2kva .ilp32 0x1000) oneDirectory.freshDesc after
        (0x3ff000 + page * pageSize) = some ((0x9000 + page * pageSize) ||| pgtablePerm 0)) ∧
      ∀ page ∈ [0x3fe000, 0x401000],
        (lookup .ilp32 (pa2kva .ilp32 0x1000) oneDirectory.freshDesc after page).getD 0 =
          (lookup .ilp32 (pa2kva .ilp32 0x1000) oneDirectory.freshDesc oneDirectory page).getD
            0 := by
  have zero : (mapPages .ilp32 (pa2kva .ilp32 0x1000) 0x3ff000 0x9000 0x2000 0 oneDirectory).1 =
      0 := by decide +kernel
  have maps := mapPages_maps_range (oneDirectory_wellFormed .ilp32) (by decide) (by decide)
    (Prod.ext zero rfl) oneDirectory.freshDesc
  refine ⟨_, Prod.ext zero rfl, fun page member => ?_, fun page member => ?_⟩
  · rcases List.mem_pair.mp member with rfl | rfl
    · exact (maps 0x3ff000 (by decide) (by decide)).1 (by decide)
    · exact (maps 0x400000 (by decide) (by decide)).1 (by decide)
  · rcases List.mem_pair.mp member with rfl | rfl
    · exact (maps 0x3fe000 (by decide) (by decide)).2 (by decide)
    · exact (maps 0x401000 (by decide) (by decide)).2 (by decide)

end AIMv6
