/-
This file follows the three lists of a cache through `cache_free`. A slab belongs on the full list
when all its 32 bits are set, on the empty list when none is, and on the partial list otherwise.
`__free` does not record where the slab came from: it takes a slab to have been full when the slab's
predecessor on its list is the head of the full list, which is so for the first full slab only. Any
other full slab stays on the full list with a clear bit, and `__alloc`, which never looks at that
list, does not find the free slot again.

The end of a slab is computed in a pointer. For a slab that ends where the address space ends it is
zero, so that no address is before it, and `cache_free` returns `EOF`.
-/

import AIMv6.SlabCalls

namespace AIMv6

open Nat

/-! ### Bitmaps of four bytes -/

namespace Slab

variable {slab : Slab} {index other : Nat}

/-- The bitmap is made of bytes. -/
def Bytes (slab : Slab) : Prop := ∀ i, slab.used.getD i 0 < 256

theorem Bytes.clearBit (bytes : slab.Bytes) (i j : Nat) : (slab.clearBit i j).Bytes := by
  intro k
  by_cases inBounds : k < slabMaskChars
  · rw [Slab.clearBit, getD_setIfInBounds _ _ _ inBounds]
    split
    · exact and_le_left.trans_lt (bytes i)
    · exact bytes k
  · have outside : (slab.clearBit i j).used.getD k 0 = 0 := by
      simp [Vector.getD, Array.getD, inBounds]
    rw [outside]
    decide

theorem bit_clearBit (bytes : slab.Bytes) (low : other < slabEntries) :
    (slab.clearBit (index / 8) (index % 8)).bit other = true ↔
      other ≠ index ∧ slab.bit other = true := by
  have inBounds : other / 8 < slabMaskChars :=
    Nat.div_lt_of_lt_mul (low.trans_eq (Nat.mul_comm slabMaskChars 8))
  rw [bit, Slab.clearBit, getD_setIfInBounds _ _ _ inBounds]
  split
  · rename_i sameByte
    rw [testBit_mask (bytes _) (mod_lt _ (by decide)), sameByte]
    refine and_congr_left fun _ => not_congr ⟨fun sameBit => ?_, fun same => by rw [same]⟩
    rw [← div_add_mod other 8, ← div_add_mod index 8, sameBit, sameByte]
  · rename_i otherByte
    exact ⟨fun set => ⟨fun same => otherByte (by rw [same]), set⟩, fun both => both.2⟩

theorem isEmpty_iff (bytes : slab.Bytes) :
    slab.isEmpty = true ↔ ∀ index < slabEntries, slab.bit index = false := by
  have read : ∀ {i : Nat} (inBounds : i < slabMaskChars), slab.used.getD i 0 = slab.used[i] :=
    fun inBounds => by simp [Vector.getD, Array.getD, inBounds]
  rw [isEmpty, Vector.all_eq_true]
  constructor
  · intro zero index low
    have inBounds : index / 8 < slabMaskChars :=
      Nat.div_lt_of_lt_mul (low.trans_eq (Nat.mul_comm slabMaskChars 8))
    rw [bit, read inBounds, beq_iff_eq.mp (zero _ inBounds), zero_testBit]
  · intro clear i inBounds
    rw [beq_iff_eq, ← read inBounds]
    refine eq_of_testBit_eq fun j => ?_
    rw [zero_testBit]
    by_cases inByte : j < 8
    · have slot := clear (8 * i + j) (by unfold slabEntries; omega)
      rw [bit, mul_add_div (by decide), div_eq_of_lt inByte, mul_add_mod,
        mod_eq_of_lt inByte] at slot
      exact slot
    · exact testBit_lt_two_pow
        ((bytes i).trans_le (Nat.pow_le_pow_right (by decide) (Nat.not_lt.mp inByte) : 2 ^ 8 ≤ _))

end Slab

/-! ### Well-formed caches -/

namespace Cache

variable {abi : Abi} {cache : Cache} {slab other : Slab} {slabs others : List Slab}
  {slabSize obj index : Nat}

/-- Slabs that lie in the address space, apart from each other, with bitmaps of bytes. -/
structure Sited (abi : Abi) (slabSize : Nat) (slabs : List Slab) : Prop where
  inSpace : ∀ slab ∈ slabs, slab.vaddr + slabSize ≤ abi.modulus
  apart : slabs.Pairwise fun first second =>
    Disjoint (first.region slabSize).bytes (second.region slabSize).bytes
  bytes : ∀ slab ∈ slabs, slab.Bytes

namespace Sited

theorem perm (sited : Sited abi slabSize slabs) (same : slabs.Perm others) :
    Sited abi slabSize others where
  inSpace slab member := sited.inSpace slab (same.mem_iff.mpr member)
  apart := (same.pairwise_iff fun apart => apart.symm).mp sited.apart
  bytes slab member := sited.bytes slab (same.mem_iff.mpr member)

theorem eq_of_inside (sited : Sited abi slabSize slabs) (member : slab ∈ slabs)
    (otherMember : other ∈ slabs) (inside : obj ∈ (slab.region slabSize).bytes)
    (insideOther : obj ∈ (other.region slabSize).bytes) : other = slab := by
  by_contra different
  have : Std.Symm fun first second : Slab =>
      Disjoint (first.region slabSize).bytes (second.region slabSize).bytes :=
    ⟨fun _ _ apart => apart.symm⟩
  exact Set.disjoint_left.mp (sited.apart.forall otherMember member different) insideOther inside

theorem clearBit (sited : Sited abi slabSize (slab :: slabs)) (i j : Nat) :
    Sited abi slabSize (slab.clearBit i j :: slabs) := by
  obtain ⟨inSpace, apart, bytes⟩ := sited
  obtain ⟨here, later⟩ := List.forall_mem_cons.mp bytes
  exact ⟨List.forall_mem_cons.mpr (List.forall_mem_cons.mp inSpace),
    List.pairwise_cons.mpr (List.pairwise_cons.mp apart),
    List.forall_mem_cons.mpr ⟨here.clearBit i j, later⟩⟩

end Sited

/-- Every slab is on the list its bitmap asks for. -/
structure WellFormed (abi : Abi) (cache : Cache) : Prop where
  sited : Sited abi cache.slabSize cache.slabs
  full : ∀ slab ∈ cache.fullSlabs, ∀ index < slabEntries, slab.bit index = true
  empty : ∀ slab ∈ cache.emptySlabs, ∀ index < slabEntries, slab.bit index = false
  partly : ∀ slab ∈ cache.partialSlabs,
    (∃ index < slabEntries, slab.bit index = true) ∧ ∃ index < slabEntries, slab.bit index = false

/-! ### Finding the slab -/

theorem findSlab_eq_none (outside : ∀ slab ∈ slabs,
      ¬ (slab.vaddr ≤ obj ∧ obj < (slab.vaddr + slabSize) % abi.modulus)) :
    findSlab abi slabSize obj slabs = none := by
  induction slabs with
  | nil => rfl
  | cons head rest inductionHypothesis =>
    obtain ⟨here, later⟩ := List.forall_mem_cons.mp outside
    rw [findSlab, if_neg here, inductionHypothesis later]
    rfl

theorem Sited.eq_of_match (sited : Sited abi slabSize slabs) (member : slab ∈ slabs)
    (inside : obj ∈ (slab.region slabSize).bytes) (otherMember : other ∈ slabs)
    (matched : other.vaddr ≤ obj ∧ obj < (other.vaddr + slabSize) % abi.modulus) : other = slab :=
  sited.eq_of_inside member otherMember inside
    (Region.mem_bytes.mpr ⟨matched.1, matched.2.trans_le (mod_le _ _)⟩)

/-! ### Freeing a live object -/

theorem slabs_middle_full (cache : Cache) (before behind : List Slab) (slab : Slab) :
    ({ cache with fullSlabs := before ++ slab :: behind } : Cache).slabs.Perm
      (slab :: ({ cache with fullSlabs := before ++ behind } : Cache).slabs) := by
  show (cache.emptySlabs ++ cache.partialSlabs ++ (before ++ slab :: behind)).Perm
    (slab :: (cache.emptySlabs ++ cache.partialSlabs ++ (before ++ behind)))
  rw [← List.append_assoc, ← List.append_assoc]
  exact List.perm_middle

theorem exists_bit_clearBit (bytes : slab.Bytes)
    (full : ∀ index < slabEntries, slab.bit index = true) (index : Nat) :
    ∃ other < slabEntries, (slab.clearBit (index / 8) (index % 8)).bit other = true := by
  by_cases first : index = 0
  · refine ⟨1, by decide, (Slab.bit_clearBit bytes (by decide)).mpr ⟨?_, full 1 (by decide)⟩⟩
    rw [first]
    decide
  · exact ⟨0, by decide, (Slab.bit_clearBit bytes (by decide)).mpr
      ⟨Ne.symm first, full 0 (by decide)⟩⟩

theorem not_isEmpty_clearBit (bytes : slab.Bytes)
    (full : ∀ index < slabEntries, slab.bit index = true) (index : Nat) :
    ¬ (slab.clearBit (index / 8) (index % 8)).isEmpty = true := by
  rw [Slab.isEmpty_iff (bytes.clearBit _ _)]
  intro clear
  obtain ⟨other, bound, set⟩ := exists_bit_clearBit bytes full index
  rw [clear other bound] at set
  cases set

theorem bit_clearBit_self (bytes : slab.Bytes) (low : index < slabEntries) :
    (slab.clearBit (index / 8) (index % 8)).bit index = false := by
  rw [← Bool.not_eq_true, Slab.bit_clearBit bytes low]
  exact fun both => both.1 rfl

section Live

variable (wellFormed : WellFormed abi cache) (positive : 1 ≤ cache.size)
  (room : slabEntries * cache.size ≤ cache.slabSize) (low : index < slabEntries)

include positive room low in
theorem slot_mem (slab : Slab) :
    slab.vaddr + index * cache.size ∈ (slab.region cache.slabSize).bytes := by
  have bound : (index + 1) * cache.size ≤ slabEntries * cache.size := mul_le_mul_right _ low
  rw [add_mul, one_mul] at bound
  refine Region.mem_bytes.mpr ⟨Nat.le_add_right _ _, ?_⟩
  show slab.vaddr + index * cache.size < slab.vaddr + cache.slabSize
  omega

include wellFormed positive room low

theorem free_at_end (member : slab ∈ cache.slabs)
    (top : slab.vaddr + cache.slabSize = abi.modulus) :
    cache.free abi (slab.vaddr + index * cache.size) = (-1, cache) := by
  have inside := slot_mem positive room low slab
  have outside : ∀ other ∈ cache.slabs, ¬ (other.vaddr ≤ slab.vaddr + index * cache.size ∧
      slab.vaddr + index * cache.size < (other.vaddr + cache.slabSize) % abi.modulus) := by
    intro other otherMember matched
    rw [wellFormed.sited.eq_of_match member inside otherMember matched, top, mod_self] at matched
    exact not_lt_zero _ matched.2
  exact free_of_none
    (findSlab_eq_none fun other full => outside other (mem_slabs.mpr (Or.inr (Or.inr full))))
    (findSlab_eq_none fun other part => outside other (mem_slabs.mpr (Or.inr (Or.inl part))))

/-- On the list that a slab is on, the search stops at it. -/
theorem findSlab_home (member : slab ∈ cache.slabs)
    (inSpace : slab.vaddr + cache.slabSize < abi.modulus) (listed : slab ∈ slabs)
    (onCache : ∀ other ∈ slabs, other ∈ cache.slabs) :
    ∃ before behind, slabs = before ++ slab :: behind ∧
      findSlab abi cache.slabSize (slab.vaddr + index * cache.size) slabs =
        some (before, slab, behind) := by
  have inside := slot_mem positive room low slab
  have matched : slab.vaddr ≤ slab.vaddr + index * cache.size ∧
      slab.vaddr + index * cache.size < (slab.vaddr + cache.slabSize) % abi.modulus := by
    rw [mod_eq_of_lt inSpace]
    exact Region.mem_bytes.mp inside
  obtain ⟨⟨before, home, behind⟩, found⟩ := findSlab_isSome listed matched
  obtain ⟨split, homeMatched⟩ := Usage.findSlab_some found
  have homeMember : home ∈ slabs := by
    rw [split]
    exact List.mem_append_right _ List.mem_cons_self
  obtain rfl := wellFormed.sited.eq_of_match member inside (onCache home homeMember) homeMatched
  exact ⟨before, behind, split, found⟩

/-- An object of the first full slab: the slab moves to the partial list. -/
theorem free_first_full {behind : List Slab} (first : cache.fullSlabs = slab :: behind)
    (inSpace : slab.vaddr + cache.slabSize < abi.modulus) :
    (cache.free abi (slab.vaddr + index * cache.size)).1 = 0 ∧
      WellFormed abi (cache.free abi (slab.vaddr + index * cache.size)).2 := by
  have onFull : slab ∈ cache.fullSlabs := first ▸ List.mem_cons_self
  have member : slab ∈ cache.slabs := mem_slabs.mpr (Or.inr (Or.inr onFull))
  have found : findSlab abi cache.slabSize (slab.vaddr + index * cache.size) cache.fullSlabs =
      some ([], slab, behind) := by
    rw [first]
    refine if_pos ?_
    rw [mod_eq_of_lt inSpace]
    exact Region.mem_bytes.mp (slot_mem positive room low slab)
  have bytes := wellFormed.sited.bytes slab member
  have allSet := wellFormed.full slab onFull
  rw [free_of_full found, Usage.release_slot positive slab low,
    if_neg (not_isEmpty_clearBit bytes allSet index), if_pos List.isEmpty_nil]
  have order : cache.slabs.Perm (slab :: ({ cache with fullSlabs := behind } : Cache).slabs) := by
    have middle := slabs_middle_full cache [] behind slab
    rwa [List.nil_append, ← first] at middle
  refine ⟨rfl, ?_, fun other listed => ?_, wellFormed.empty, List.forall_mem_cons.mpr ⟨?_, ?_⟩⟩
  · exact ((wellFormed.sited.perm order).clearBit _ _).perm
      (Usage.slabs_perm { cache with fullSlabs := behind } _).symm
  · exact wellFormed.full other (first ▸ List.mem_cons_of_mem _ listed)
  · exact ⟨exists_bit_clearBit bytes allSet index, index, low, bit_clearBit_self bytes low⟩
  · exact wellFormed.partly

/-- An object of a partial slab: the slab stays, or moves to the empty list when it was the last. -/
theorem free_partial (onPartial : slab ∈ cache.partialSlabs) (notFull : slab ∉ cache.fullSlabs)
    (inSpace : slab.vaddr + cache.slabSize < abi.modulus) :
    (cache.free abi (slab.vaddr + index * cache.size)).1 = 0 ∧
      WellFormed abi (cache.free abi (slab.vaddr + index * cache.size)).2 := by
  have member : slab ∈ cache.slabs := mem_slabs.mpr (Or.inr (Or.inl onPartial))
  have inside := slot_mem positive room low slab
  have onFull : findSlab abi cache.slabSize (slab.vaddr + index * cache.size) cache.fullSlabs =
      none :=
    findSlab_eq_none fun other listed matched => notFull
      (wellFormed.sited.eq_of_match member inside (mem_slabs.mpr (Or.inr (Or.inr listed))) matched ▸
        listed)
  obtain ⟨before, behind, split, found⟩ := findSlab_home wellFormed positive room low member inSpace
    onPartial fun other listed => mem_slabs.mpr (Or.inr (Or.inl listed))
  have bytes := wellFormed.sited.bytes slab member
  have order : cache.slabs.Perm
      (slab :: ({ cache with partialSlabs := before ++ behind } : Cache).slabs) := by
    have middle := Usage.slabs_middle cache before behind slab
    rwa [← split] at middle
  have sited := (wellFormed.sited.perm order).clearBit (index / 8) (index % 8)
  have others : ∀ other ∈ before ++ behind, other ∈ cache.partialSlabs := by
    intro other listed
    rw [split]
    exact ((List.Sublist.refl before).append (List.sublist_cons_self _ _)).subset listed
  rw [free_of_partlyUsed onFull found, Usage.release_slot positive slab low]
  refine ⟨rfl, ?_⟩
  by_cases nowEmpty : (slab.clearBit (index / 8) (index % 8)).isEmpty = true
  · rw [if_pos nowEmpty]
    exact ⟨sited, wellFormed.full, List.forall_mem_cons.mpr
      ⟨(Slab.isEmpty_iff (bytes.clearBit _ _)).mp nowEmpty, wellFormed.empty⟩,
      fun other listed => wellFormed.partly other (others other listed)⟩
  · rw [if_neg nowEmpty]
    refine ⟨sited.perm (Usage.slabs_middle cache before behind _).symm, wellFormed.full,
      wellFormed.empty, fun other listed => ?_⟩
    have place : other = slab.clearBit (index / 8) (index % 8) ∨ other ∈ before ++ behind := by
      have listed' := List.perm_middle.mem_iff.mp listed
      exact List.mem_cons.mp listed'
    rcases place with rfl | old
    · rw [Slab.isEmpty_iff (bytes.clearBit _ _)] at nowEmpty
      push Not at nowEmpty
      obtain ⟨kept, bound, set⟩ := nowEmpty
      exact ⟨⟨kept, bound, Bool.eq_true_of_not_eq_false set⟩, index, low,
        bit_clearBit_self bytes low⟩
    · exact wellFormed.partly other (others other old)

/-- An object of a full slab that has another before it: the slab stays on the full list with a
clear bit. -/
theorem free_later_full (onFull : slab ∈ cache.fullSlabs)
    (later : cache.fullSlabs.head? ≠ some slab)
    (inSpace : slab.vaddr + cache.slabSize < abi.modulus) :
    ¬ WellFormed abi (cache.free abi (slab.vaddr + index * cache.size)).2 := by
  have member : slab ∈ cache.slabs := mem_slabs.mpr (Or.inr (Or.inr onFull))
  obtain ⟨before, behind, split, found⟩ := findSlab_home wellFormed positive room low member inSpace
    onFull fun other listed => mem_slabs.mpr (Or.inr (Or.inr listed))
  have bytes := wellFormed.sited.bytes slab member
  have notEmpty := not_isEmpty_clearBit bytes (wellFormed.full slab onFull) index
  have notFirst : ¬ before.isEmpty = true := by
    intro first
    rw [List.isEmpty_iff] at first
    rw [split, first] at later
    exact later rfl
  rw [free_of_full found, Usage.release_slot positive slab low, if_neg notEmpty, if_neg notFirst]
  intro after
  have set := after.full (slab.clearBit (index / 8) (index % 8))
    (List.mem_append_right _ List.mem_cons_self) index low
  rw [bit_clearBit_self bytes low] at set
  cases set

end Live

/-- `cache_free` of a live object returns zero and leaves every slab on the right list exactly when
the slab ends before the end of the address space and is not on the full list behind another. -/
theorem free_wellFormed_iff (wellFormed : WellFormed abi cache) (positive : 1 ≤ cache.size)
    (room : slabEntries * cache.size ≤ cache.slabSize) (low : index < slabEntries)
    (member : slab ∈ cache.slabs) (live : slab.bit index = true) :
    ((cache.free abi (slab.vaddr + index * cache.size)).1 = 0 ∧
        WellFormed abi (cache.free abi (slab.vaddr + index * cache.size)).2) ↔
      slab.vaddr + cache.slabSize < abi.modulus ∧
        (slab ∈ cache.fullSlabs → cache.fullSlabs.head? = some slab) := by
  constructor
  · rintro ⟨zero, after⟩
    have inSpace : slab.vaddr + cache.slabSize < abi.modulus := by
      refine lt_of_le_of_ne (wellFormed.sited.inSpace slab member) fun top => ?_
      rw [free_at_end wellFormed positive room low member top] at zero
      exact absurd zero (by decide : ¬ (-1 : Int) = 0)
    refine ⟨inSpace, fun onFull => ?_⟩
    by_contra later
    exact free_later_full wellFormed positive room low onFull later inSpace after
  · rintro ⟨inSpace, first⟩
    by_cases onFull : slab ∈ cache.fullSlabs
    · obtain ⟨behind, split⟩ := List.head?_eq_some_iff.mp (first onFull)
      exact free_first_full wellFormed positive room low split inSpace
    · rcases mem_slabs.mp member with onEmpty | onPartial | onFull'
      · rw [wellFormed.empty slab onEmpty index low] at live
        cases live
      · exact free_partial wellFormed positive room low onPartial onFull inSpace
      · exact absurd onFull' onFull

/-- A slab of objects in use at each of some addresses. -/
def allFull (bases : List Nat) : Cache :=
  { create .ilp32 128 128 false with
    fullSlabs := bases.map fun vaddr => ⟨vaddr, Vector.replicate slabMaskChars 255⟩ }

theorem bytes_full (vaddr : Nat) : (⟨vaddr, Vector.replicate slabMaskChars 255⟩ : Slab).Bytes := by
  intro i
  by_cases inBounds : i < slabMaskChars
  · simp [Vector.getD, Array.getD, inBounds]
  · simp [Vector.getD, Array.getD, inBounds]

theorem bit_full (vaddr : Nat) :
    ∀ index < slabEntries,
      (⟨vaddr, Vector.replicate slabMaskChars 255⟩ : Slab).bit index = true := by
  have all : ∀ index < slabEntries,
      ((Vector.replicate slabMaskChars 255).getD (index / 8) 0).testBit (index % 8) = true := by
    decide +kernel
  exact all

theorem allFull_wellFormed : WellFormed .ilp32 (allFull [0x80001000, 0x80002000]) := by
  have apart : Disjoint (⟨0x80001000, 4096⟩ : Region).bytes (⟨0x80002000, 4096⟩ : Region).bytes :=
    Region.disjoint_of_limit_le (by decide)
  refine ⟨⟨?_, List.pairwise_pair.mpr apart, ?_⟩, ?_, nofun, nofun⟩
  · exact List.forall_mem_cons.mpr ⟨by decide, List.forall_mem_singleton.mpr (by decide)⟩
  · exact List.forall_mem_cons.mpr ⟨bytes_full _, List.forall_mem_singleton.mpr (bytes_full _)⟩
  · exact List.forall_mem_cons.mpr ⟨bit_full _, List.forall_mem_singleton.mpr (bit_full _)⟩

/-- Two full slabs: an object of the first one is freed, and the slab is then partly used. -/
theorem free_wellFormed_twoSlabs :
    ((allFull [0x80001000, 0x80002000]).free .ilp32 (0x80001000 + 5 * 128)).1 = 0 ∧
      WellFormed .ilp32 ((allFull [0x80001000, 0x80002000]).free .ilp32 (0x80001000 + 5 * 128)).2 :=
  (@free_wellFormed_iff .ilp32 (allFull [0x80001000, 0x80002000])
    ⟨0x80001000, Vector.replicate slabMaskChars 255⟩ 5 allFull_wellFormed (by decide) (by decide)
    (by decide) List.mem_cons_self (bit_full _ 5 (by decide))).mpr ⟨by decide, fun _ => rfl⟩

/-- Two full slabs: an object of the second one is freed, and the slab stays on the full list. -/
theorem free_misplaces :
    WellFormed .ilp32 (allFull [0x80001000, 0x80002000]) ∧
      ¬ WellFormed .ilp32 ((allFull [0x80001000, 0x80002000]).free .ilp32
        (0x80002000 + 5 * 128)).2 :=
  ⟨allFull_wellFormed, @free_later_full .ilp32 (allFull [0x80001000, 0x80002000])
    ⟨0x80002000, Vector.replicate slabMaskChars 255⟩ 5 allFull_wellFormed (by decide) (by decide)
    (by decide) (List.mem_cons_of_mem _ List.mem_cons_self)
    (fun same => absurd (congrArg Slab.vaddr (Option.some.inj same)) (by decide)) (by decide)⟩

end Cache

end AIMv6
