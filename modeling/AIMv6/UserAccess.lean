/-
This file puts the user address spaces and the TLB refill handler of the 32-bit MIPS build
together: whatever calls have been made on an address space, a page pair that the handler writes
into the TLB translates the addresses of both pages as the areas say, and no others.

The abstract side is `access`, which reads the areas only; the other side is the machine code of
`__tlb_entry`. Both are compared through the entry of the page table for an address.
-/

import AIMv6.TlbRefill
import AIMv6.UvmRuns

namespace AIMv6

open List Option

def Vma.covers (va : Nat) (vma : Vma) : Bool :=
  decide (vma.start ≤ va ∧ va < vma.start + vma.size)

/-- The physical address that the areas give an address: that in the page of its area. -/
def Mm.access (mm : Mm) (va : Nat) : Option Nat :=
  (mm.areas.find? (Vma.covers va)).map fun vma => vma.pages.paddr + (va - vma.start)

/-- The physical address that the TLB gives an address of the pair it has an entry for. -/
def translate (pair : Nat × Nat) (va : Nat) : Option Nat :=
  let fields := entryLoFields (if va / pageSize % 2 = 0 then pair.1 else pair.2)
  if fields.v = 1 then some (fields.pfn * pageSize + va % pageSize) else none

/-- The physical address in a page-table entry. -/
def pteAccess (pte va : Nat) : Option Nat :=
  if pte = 0 then none else some (pte / pageSize * pageSize + va % pageSize)

/-! ### The handler and the entries -/

theorem exec_tlbEntry {abi : Abi} {cpu : Cpu} {pgindex : Nat} (isaRev pgdirSlotBase : Nat)
    (switched : cpu.kernel.word abi pgdirSlotBase cpu.number = pgindex) (indexed : pgindex ≠ 0) :
    (entry abi pgindex cpu.kernel cpu.badVAddr &&& pteValid = 0 ∧
      ∃ after, exec abi none (tlbEntry abi isaRev pgdirSlotBase) cpu =
        .jumped (genericExceptEntry % abi.modulus) after ∧ after.tlb = cpu.tlb) ∨
    (entry abi pgindex cpu.kernel cpu.badVAddr &&& pteValid ≠ 0 ∧
      ∃ after, exec abi none (tlbEntry abi isaRev pgdirSlotBase) cpu = .returned after ∧
        after.tlb = (softShifted abi isaRev (entry abi pgindex cpu.kernel (evenPage cpu.badVAddr)),
          softShifted abi isaRev
            (entry abi pgindex cpu.kernel (evenPage cpu.badVAddr + pageSize))) :: cpu.tlb) := by
  have noLabel : Instr.label .nine ∉ loadPair abi ++ (dropSoftBits isaRev ++ writePair) := by
    unfold dropSoftBits
    split <;> simp [loadPair, writePair]
  rw [tlbEntry, exec_fetchIndex, switched, if_neg indexed, walkDirectories_eq]
  rcases exec_walkLevels noLabel abi.dirShifts with
    ⟨missing, gaveUp⟩ | ⟨table, junk, arrives, continues⟩
  · refine Or.inl ⟨?_, gaveUp⟩
    rw [entry_of_no_leaf missing, Nat.zero_and]
  · obtain ⟨⟨evenPath, evenIndex⟩, oddPath, oddIndex⟩ := pair_indices abi cpu.badVAddr
    have here : leaf abi pgindex cpu.kernel cpu.badVAddr = some table := arrives
    have even : leaf abi pgindex cpu.kernel (evenPage cpu.badVAddr) = some table := by
      rw [leaf, evenPath, ← leaf, here]
    have odd : leaf abi pgindex cpu.kernel (evenPage cpu.badVAddr + pageSize) = some table := by
      rw [leaf, oddPath, ← leaf, here]
    obtain ⟨invalid, valid⟩ := exec_leaf
    rw [continues, entry_of_leaf here, entry_of_leaf even, entry_of_leaf odd, evenIndex, oddIndex]
    by_cases absent : cpu.kernel.word abi table (ptx abi cpu.badVAddr) &&& pteValid = 0
    · exact Or.inl ⟨absent, invalid absent⟩
    · obtain ⟨after, run, -, -, written⟩ := valid absent
      exact Or.inr ⟨absent, after, run, written⟩

/-! ### The entries and the areas -/

theorem valid_of_stored {pte : Nat} (stored : Stored pte) : pte / 2 ^ 7 % 2 = 1 ↔ pte ≠ 0 := by
  rcases stored with rfl | ⟨paddr, flags, aligned, rfl⟩
  · decide
  · have bit : pgtablePerm flags / 2 ^ 7 % 2 = 1 := by
      unfold pgtablePerm machPgtablePerm
      split <;> decide
    rw [or_eq_add 12 aligned (pgtablePerm_lt flags)]
    unfold pageSize at aligned
    omega

theorem and_pteValid {pte : Nat} (stored : Stored pte) : pte &&& pteValid = 0 ↔ pte = 0 := by
  rw [← not_iff_not, ← ne_eq pte, ← valid_of_stored stored, show pteValid = 2 ^ 7 from rfl,
    Nat.and_two_pow, Nat.testBit_eq_decide_div_mod_eq]
  by_cases set : pte / 2 ^ 7 % 2 = 1 <;> simp

theorem translate_softShifted {even odd va isaRev : Nat}
    (stored : Stored (if va / pageSize % 2 = 0 then even else odd)) :
    translate (softShifted .ilp32 isaRev even, softShifted .ilp32 isaRev odd) va =
      pteAccess (if va / pageSize % 2 = 0 then even else odd) va := by
  rw [translate, ← apply_ite (softShifted .ilp32 isaRev), fields_of_stored stored, pteAccess]
  exact (ite_congr (propext (valid_of_stored stored)) (fun _ => rfl) fun _ => rfl).trans
    (ite_not _ _ _)

section Access

variable {usable : Nat → Prop} {outsideFrames outsideObjs : List Nat} {mm : Mm} {world : World}
  (consistent : Consistent usable outsideFrames outsideObjs mm world) {va : Nat}

include consistent

theorem Consistent.entry_of_covers {vma : Vma} (member : vma ∈ mm.areas) (low : vma.start ≤ va)
    (high : va < vma.start + vma.size) : entry .ilp32 mm.pgindex world.kernel va = vma.pte := by
  have fine := consistent.fine vma member
  have aligned := fine.aligned
  rw [fine.size] at high
  rw [← consistent.mapped vma member]
  refine entry_of_same_page ?_
  unfold pageSize at *
  omega

theorem Consistent.entry_stored (inside : va < 2 ^ 32) :
    Stored (entry .ilp32 mm.pgindex world.kernel va) := by
  by_cases absent : entry .ilp32 mm.pgindex world.kernel va = 0
  · exact Or.inl absent
  · obtain ⟨vma, ⟨member, low, high⟩, -⟩ := consistent.belongs inside absent
    exact Or.inr ⟨vma.pages.paddr, vma.flags,
      (mappable_of_frame (consistent.fine vma member).frame).1,
      consistent.entry_of_covers member low high⟩

theorem Consistent.access_eq_some {paddr : Nat} (reaches : mm.access va = some paddr) :
    ∃ vma, (vma ∈ mm.areas ∧ vma.pages.paddr % pageSize = 0) ∧ vma.start ≤ va ∧
      va < vma.start + pageSize ∧ vma.pages.paddr + (va - vma.start) = paddr := by
  obtain ⟨vma, found, place⟩ := map_eq_some_iff.mp reaches
  have member := mem_of_find?_eq_some found
  have covers : vma.covers va = true := find?_some found
  obtain ⟨low, high⟩ := of_decide_eq_true covers
  have fine := consistent.fine vma member
  exact ⟨vma, ⟨member, (mappable_of_frame fine.frame).1⟩, low, fine.size ▸ high, place⟩

/-- The areas and the page table give every address the same translation. -/
theorem Consistent.access_eq (inside : va < 2 ^ 32) :
    mm.access va = pteAccess (entry .ilp32 mm.pgindex world.kernel va) va := by
  rcases reaches : mm.access va with _ | paddr
  · have absent : entry .ilp32 mm.pgindex world.kernel va = 0 := by
      by_contra present
      obtain ⟨vma, ⟨member, covers⟩, -⟩ := consistent.belongs inside present
      exact absurd (decide_eq_true covers)
        (find?_eq_none.mp (map_eq_none_iff.mp reaches) vma member)
    exact (if_pos absent).symm
  · obtain ⟨vma, ⟨member, aligned⟩, low, high, rfl⟩ := consistent.access_eq_some reaches
    have fine := consistent.fine vma member
    have start := fine.aligned
    have mode := pgtablePerm_lt vma.flags
    rw [consistent.entry_of_covers member low (fine.size ▸ high), pteAccess,
      if_neg vma.pte_ne_zero, Vma.pte, or_eq_add 12 aligned mode]
    refine congrArg some ?_
    unfold pageSize at *
    omega

end Access

/-- After any run of calls on an address space, the refill handler on a processor that uses its
page index returns exactly for the addresses of the areas, with a pair that translates both of its
pages as the areas say; for other addresses it goes to the generic exception entry. -/
theorem user_access_exact {start world : World} {mm : Mm} (clean : start.Clean InLowRam)
    (reached : UvmReachable (UvmCall.Proper InLowRam) start mm world)
    (isaRev pgdirSlotBase : Nat) (cpu : Cpu) (current : cpu.kernel = world.kernel)
    (switched : world.kernel.word .ilp32 pgdirSlotBase cpu.number = mm.pgindex)
    (user : cpu.badVAddr < 2 ^ 32) :
    match exec .ilp32 none (tlbEntry .ilp32 isaRev pgdirSlotBase) cpu with
    | .returned after => mm.access cpu.badVAddr ≠ none ∧ ∃ pair, after.tlb = pair :: cpu.tlb ∧
        ∀ va, evenPage va = evenPage cpu.badVAddr → translate pair va = mm.access va
    | .jumped target after => mm.access cpu.badVAddr = none ∧
        target = genericExceptEntry % 2 ^ 32 ∧ after.tlb = cpu.tlb
    | _ => False := by
  obtain ⟨⟨_, -, consistent⟩, -⟩ := reached.steady clean fun paddr => returnable_of_low
  have test := and_pteValid (consistent.entry_stored user)
  rcases exec_tlbEntry isaRev pgdirSlotBase (current ▸ switched)
      consistent.table.root_isTable.nonzero.ne' with
    ⟨invalid, after, run, same⟩ | ⟨valid, after, run, written⟩
  · rw [run, consistent.access_eq user]
    rw [current, test] at invalid
    exact ⟨if_pos invalid, rfl, same⟩
  · rw [current] at valid written
    rw [run, consistent.access_eq user]
    refine ⟨?_, _, written, fun va pair => ?_⟩
    · rw [pteAccess, if_neg (mt test.mpr valid)]
      exact some_ne_none _
    · have inside : va < 2 ^ 32 := by
        unfold evenPage pageSize at pair
        omega
      have select : (if va / pageSize % 2 = 0 then
            entry .ilp32 mm.pgindex world.kernel (evenPage cpu.badVAddr)
          else entry .ilp32 mm.pgindex world.kernel (evenPage cpu.badVAddr + pageSize)) =
          entry .ilp32 mm.pgindex world.kernel va := by
        rw [← pair]
        split
        all_goals
          refine entry_of_same_page ?_
          unfold evenPage pageSize at *
          omega
      rw [translate_softShifted (select ▸ consistent.entry_stored inside), select,
        consistent.access_eq inside]

/-- The boot state with the page directory of `bootMm` in the slot of processor 1. -/
def slotWorld : World :=
  { bootWorld with kernel := bootWorld.kernel.setWord .ilp32 0x80000400 1 bootMm.pgindex }

theorem user_access_exact_onePage : ∃ cpu after pair, cpu.badVAddr = 0x100abc ∧
    exec .ilp32 none (tlbEntry .ilp32 2 0x80000400) cpu = .returned after ∧
      after.tlb = pair :: cpu.tlb ∧ translate pair 0x100abc = some 0x5abc := by
  obtain ⟨mm, world, returned, slot, area⟩ := @exists_returned
    (createUvm .ilp32 ⟨0, 0⟩ onePageAnswers bootMm 0x100000 0x1000 6 (mmNew .ilp32 slotWorld).2) 0
    (fun mm after => after.kernel.word .ilp32 0x80000400 1 = mm.pgindex ∧
      mm.access 0x100abc = some 0x5abc) _ (by decide +kernel)
  obtain ⟨frames, objs, framesStray, heapStray, answers⟩ := @bootWorld_clean InLowRam (by decide)
  have outcome := @user_access_exact slotWorld _ _ ⟨frames, objs, framesStray, heapStray, answers⟩
    (.step (.create ⟨0, 0⟩ onePageAnswers 0x100000 0x1000 6) (.new rfl)
      (onePage_proper (by decide) (by decide)) returned)
    2 0x80000400 { faultingCpu with kernel := world.kernel, badVAddr := 0x100abc } rfl slot
    (show 0x100abc < 2 ^ 32 by decide)
  split at outcome
  · rename_i after ran
    obtain ⟨-, pair, written, agrees⟩ := outcome
    exact ⟨_, after, pair, rfl, ran, written, (agrees _ rfl).trans area⟩
  · cases outcome.1.symm.trans area
  · exact outcome.elim

theorem onePage_access {usable : Nat → Prop} (fits : ∀ paddr ∈ [0x5000, 0x6000], usable paddr) :
    ∃ mm world, UvmReachable (UvmCall.Proper usable) bootWorld mm world ∧
      mm.access 0x100abc = some 0x5abc := by
  obtain ⟨mm, world, returned, area⟩ := @exists_returned
    (createUvm .ilp32 ⟨0, 0⟩ onePageAnswers bootMm 0x100000 0x1000 6 (mmNew .ilp32 bootWorld).2) 0
    (fun mm _ => mm.access 0x100abc = some 0x5abc) _ (by decide +kernel)
  exact ⟨mm, world, .step (.create ⟨0, 0⟩ onePageAnswers 0x100000 0x1000 6) (.new rfl)
    (onePage_proper (by decide) fits) returned, area⟩

/-- Different addresses of an address space never reach the same byte of the memory. -/
theorem user_access_injective {start world : World} {mm : Mm} (clean : start.Clean InLowRam)
    (reached : UvmReachable (UvmCall.Proper InLowRam) start mm world) {first second paddr : Nat}
    (firstReaches : mm.access first = some paddr) (secondReaches : mm.access second = some paddr) :
    first = second := by
  obtain ⟨⟨_, -, consistent⟩, ordered⟩ := reached.steady clean fun paddr => returnable_of_low
  obtain ⟨vma, ⟨member, fine⟩, low, high, rfl⟩ := consistent.access_eq_some firstReaches
  obtain ⟨other, ⟨otherMember, otherFine⟩, otherLow, otherHigh, same⟩ :=
    consistent.access_eq_some secondReaches
  have page : vma.pages.paddr = other.pages.paddr := by
    unfold pageSize at *
    omega
  obtain rfl := inj_on_of_nodup_map (consistent.areaInvariant ordered).oneToOne.2 member
    otherMember page
  omega

theorem user_access_injective_onePage : ∃ mm : Mm, mm.access 0x100abc = some 0x5abc ∧
    ∀ va, mm.access va = some 0x5abc → va = 0x100abc := by
  obtain ⟨mm, _, reached, area⟩ := @onePage_access InLowRam (by decide)
  exact ⟨mm, area, fun _ reaches =>
    user_access_injective (bootWorld_clean (by decide)) reached reaches area⟩

/-- No address of an address space reaches a page that was in use before the address space was made,
its page directory, or one of its leaf tables. -/
theorem user_access_isolated {start world : World} {mm : Mm} (clean : start.Clean Invertible)
    (reached : UvmReachable (UvmCall.Proper Invertible) start mm world) {va paddr : Nat}
    (reaches : mm.access va = some paddr) :
    let page := paddr / pageSize * pageSize
    page ∉ start.kernel.frames.inUse ∧ mm.pgindex ≠ pa2kva .ilp32 page ∧
      ∀ index < 1024, pde mm.pgindex world.kernel index ≠ pa2kva .ilp32 page := by
  obtain ⟨⟨_, keeps, consistent⟩, -⟩ := reached.steady clean fun _ => Or.inr
  rw [keeps (show ¬ kva2pa .ilp32 (pa2kva .ilp32 0) = 0 by decide)] at consistent
  obtain ⟨vma, ⟨member, aligned⟩, low, high, rfl⟩ := consistent.access_eq_some reaches
  obtain ⟨root, leaves, tables, inUse⟩ := consistent.frames
  have frame := (consistent.fine vma member).frame
  have own : (vma.pages.paddr + (va - vma.start)) / pageSize * pageSize = vma.pages.paddr := by
    unfold pageSize at *
    omega
  have apart : vma.pages.paddr ∉ leaves ∧ vma.pages.paddr ∉ root :: start.kernel.frames.inUse := by
    have nodup := inUse.nodup_iff.mp consistent.framesNodup
    rw [append_assoc] at nodup
    have elsewhere := disjoint_of_nodup_append nodup (mem_map_of_mem member)
    exact not_or.mp (mt mem_append.mpr elsewhere)
  intro page
  rw [show page = vma.pages.paddr from own]
  refine ⟨fun before => apart.2 (mem_cons_of_mem _ before), fun same => ?_,
    fun index bound same => apart.1 ((tables.mem_leaves _).mpr ⟨frame, index, bound, same⟩)⟩
  obtain rfl := pa2kva_injective tables.rootFrame frame (tables.directory.symm.trans same)
  exact apart.2 mem_cons_self

theorem user_access_isolated_onePage : ∃ mm : Mm,
    mm.access 0x100abc = some 0x5abc ∧ mm.pgindex ≠ pa2kva .ilp32 0x5000 := by
  obtain ⟨mm, _, reached, area⟩ := @onePage_access Invertible (by decide)
  exact ⟨mm, area, (user_access_isolated (bootWorld_clean (by decide)) reached area).2.1⟩

end AIMv6
