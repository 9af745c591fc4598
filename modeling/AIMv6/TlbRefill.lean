/-
This file models the TLB refill handler `__tlb_entry` of `kern/arch/mips/tlbex.S` and proves
that it agrees with the page-table walk of the C code.

The handler is a list of instructions with two forward labels, for each build and for each
of the two ways the entries are moved into place (`SRL` for revision 1 of the instruction
set, `ROTR` after it). Both labels lie ahead of every branch to them, so a taken branch skips
instructions until the label comes by. The proofs follow the blocks of the handler: fetching
the page index, one block for each directory level, and the block that loads the page pair.
-/

import AIMv6.PageTableMap

namespace AIMv6

open List Nat

/-! ### The processor -/

/-- The two registers the handler uses. -/
inductive Reg where
  | k0
  | k1
  deriving DecidableEq, Repr

/-- The coprocessor registers the handler uses. -/
inductive Cp0 where
  | badVAddr
  | entryLo0
  | entryLo1
  deriving DecidableEq, Repr

/-- The local labels `1:` and `9:`. -/
inductive Label where
  | one
  | nine
  deriving DecidableEq, Repr

/-- The instructions of the handler. -/
inductive Instr where
  | cpuid (result temp : Reg)
  | li (rd : Reg) (value : Nat)
  | sll (rd : Reg) (shift : Nat)
  | srl (rd : Reg) (shift : Nat)
  | rotr (rd : Reg) (shift : Nat)
  | andi (rd : Reg) (mask : Nat)
  | addu (rd rs : Reg)
  | load (rd : Reg) (offset : Nat) (base : Reg)
  | mfc0 (rd : Reg) (source : Cp0)
  | mtc0 (rs : Reg) (target : Cp0)
  | beqz (rs : Reg) (target : Label)
  | label (name : Label)
  | tlbwr
  | eret
  | jalr (rs : Reg)
  deriving DecidableEq, Repr

/-- The processor during the handler: its number, its registers, the entries the handler has
written into the TLB, and the memory. -/
structure Cpu where
  number : Nat
  k0 : Nat
  k1 : Nat
  badVAddr : Nat
  entryLo0 : Nat
  entryLo1 : Nat
  tlb : List (Nat × Nat)
  kernel : Kernel

namespace Cpu

def reg (cpu : Cpu) : Reg → Nat
  | .k0 => cpu.k0
  | .k1 => cpu.k1

def setReg (cpu : Cpu) : Reg → Nat → Cpu
  | .k0, value => { cpu with k0 := value }
  | .k1, value => { cpu with k1 := value }

def cp0 (cpu : Cpu) : Cp0 → Nat
  | .badVAddr => cpu.badVAddr
  | .entryLo0 => cpu.entryLo0
  | .entryLo1 => cpu.entryLo1

def setCp0 (cpu : Cpu) : Cp0 → Nat → Cpu
  | .badVAddr, value => { cpu with badVAddr := value }
  | .entryLo0, value => { cpu with entryLo0 := value }
  | .entryLo1, value => { cpu with entryLo1 := value }

/-- Rotate a register to the right. -/
def rotateRight (abi : Abi) (value shift : Nat) : Nat :=
  value >>> shift ||| (value <<< (abi.bits - shift)) % abi.modulus

/-- The instructions that neither branch nor leave the handler. -/
def step (abi : Abi) (cpu : Cpu) : Instr → Cpu
  | .cpuid result _ => cpu.setReg result cpu.number
  | .li rd value => cpu.setReg rd (value % abi.modulus)
  | .sll rd shift => cpu.setReg rd (cpu.reg rd <<< shift % abi.modulus)
  | .srl rd shift => cpu.setReg rd (cpu.reg rd >>> shift)
  | .rotr rd shift => cpu.setReg rd (rotateRight abi (cpu.reg rd) shift)
  | .andi rd mask => cpu.setReg rd (cpu.reg rd &&& mask)
  | .addu rd rs => cpu.setReg rd ((cpu.reg rd + cpu.reg rs) % abi.modulus)
  | .load rd offset base =>
    cpu.setReg rd (cpu.kernel.mem ((cpu.reg base + offset) % abi.modulus) % abi.modulus)
  | .mfc0 rd source => cpu.setReg rd (cpu.cp0 source)
  | .mtc0 rs target => cpu.setCp0 target (cpu.reg rs)
  | .tlbwr => { cpu with tlb := (cpu.entryLo0, cpu.entryLo1) :: cpu.tlb }
  | _ => cpu

end Cpu

/-- How the handler is left. -/
inductive Outcome where
  | returned (cpu : Cpu)
  | jumped (target : Nat) (cpu : Cpu)
  | ranOff (cpu : Cpu)

/-- Run a list of instructions, skipping to a label first if one is given. -/
def exec (abi : Abi) : Option Label → List Instr → Cpu → Outcome
  | _, [], cpu => .ranOff cpu
  | some target, instr :: rest, cpu =>
    exec abi (if instr = .label target then none else some target) rest cpu
  | none, .beqz rs target :: rest, cpu =>
    exec abi (if cpu.reg rs = 0 then some target else none) rest cpu
  | none, .eret :: _, cpu => .returned cpu
  | none, .jalr rs :: _, cpu => .jumped (cpu.reg rs) cpu
  | none, instr :: rest, cpu => exec abi none rest (cpu.step abi instr)

/-! ### The handler -/

/-- `GENERIC_EXCEPT_ENTRY`. -/
def genericExceptEntry : Nat := 0xffffffff80000180

open Reg Cp0

/-- The instructions that fetch the page index of the processor. -/
def fetchIndex (abi : Abi) (pgdirSlotBase : Nat) : List Instr :=
  [.cpuid k0 k1, .sll k0 abi.wordShift, .li k1 pgdirSlotBase, .addu k1 k0, .load k1 0 k1,
    .beqz k1 .nine]

/-- The instructions that go down one directory level. -/
def walkLevel (abi : Abi) (shift : Nat) : List Instr :=
  [.mfc0 k0 badVAddr, .srl k0 shift, .andi k0 abi.ptxMask, .sll k0 abi.wordShift, .addu k1 k0,
    .load k1 0 k1, .beqz k1 .nine]

/-- The instructions that load the two entries of the page pair. -/
def loadPair (abi : Abi) : List Instr :=
  [.mfc0 k0 badVAddr, .srl k0 ptxShift, .andi k0 (abi.ptxMask - 1), .sll k0 abi.wordShift,
    .addu k1 k0, .load k0 0 k1, .load k1 abi.wordSize k1]

/-- The instructions that move the entries over the soft bits, by `__mips_isa_rev`. -/
def dropSoftBits (isaRev : Nat) : List Instr :=
  if isaRev = 1 then [.srl k0 pteSoftShift, .srl k1 pteSoftShift]
  else [.rotr k0 pteSoftShift, .rotr k1 pteSoftShift]

/-- The instructions that write the pair, or give up when the entry is not valid. -/
def writePair : List Instr :=
  [.mtc0 k0 entryLo0, .mtc0 k1 entryLo1, .mfc0 k1 badVAddr, .srl k1 ptxShift, .andi k1 1,
    .beqz k1 .one, .mfc0 k0 entryLo1, .label .one, .andi k0 (pteValid >>> pteSoftShift),
    .beqz k0 .nine, .tlbwr, .eret]

/-- The instructions at the label `9:`. -/
def giveUp : List Instr := [.label .nine, .li k0 genericExceptEntry, .jalr k0]

/-- The instructions that go down to the leaf table. -/
def walkDirectories : Abi → List Instr
  | .ilp32 => walkLevel .ilp32 pdxShift
  | .lp64 => walkLevel .lp64 pgxShift ++ walkLevel .lp64 puxShift ++ walkLevel .lp64 pmxShift

/-- `__tlb_entry`. -/
def tlbEntry (abi : Abi) (isaRev pgdirSlotBase : Nat) : List Instr :=
  fetchIndex abi pgdirSlotBase ++ (walkDirectories abi ++
      ((loadPair abi ++ (dropSoftBits isaRev ++ writePair)) ++ giveUp))

/-! ### The blocks -/

section Blocks

variable {abi : Abi} {rest : List Instr} {cpu : Cpu}

theorem exec_skip {target : Label} (block : List Instr) (elsewhere : Instr.label target ∉ block) :
    exec abi (some target) (block ++ rest) cpu = exec abi (some target) rest cpu := by
  induction block with
  | nil => rfl
  | cons instr block inductionHypothesis =>
    rw [mem_cons, not_or] at elsewhere
    rw [cons_append, exec, if_neg (Ne.symm elsewhere.1)]
    exact inductionHypothesis elsewhere.2

theorem exec_giveUp :
    exec abi (some .nine) giveUp cpu = .jumped (genericExceptEntry % abi.modulus)
        { cpu with k0 := genericExceptEntry % abi.modulus } :=
  rfl

theorem shift_word (index : Nat) : index <<< abi.wordShift = index * abi.wordSize := by
  cases abi <;> exact shiftLeft_eq _ _

/-- The address arithmetic of the handler is that of an array access. -/
theorem handler_slot (table index : Nat) :
    (table + index <<< abi.wordShift % abi.modulus) % abi.modulus =
      Kernel.slot abi table index := by
  rw [shift_word, add_mod_mod]
  rfl

theorem exec_fetchIndex (pgdirSlotBase : Nat) :
    exec abi none (fetchIndex abi pgdirSlotBase ++ rest) cpu = exec abi
        (if cpu.kernel.word abi pgdirSlotBase cpu.number = 0 then some .nine else none) rest
        { cpu with
          k0 := cpu.number <<< abi.wordShift % abi.modulus
          k1 := cpu.kernel.word abi pgdirSlotBase cpu.number } := by
  have address : ((pgdirSlotBase % abi.modulus + cpu.number <<< abi.wordShift % abi.modulus) %
      abi.modulus + 0) % abi.modulus = Kernel.slot abi pgdirSlotBase cpu.number := by
    rw [add_zero, mod_mod, mod_add_mod, handler_slot]
  rw [Kernel.word, ← address]
  rfl

theorem exec_walkLevel (shift : Nat) :
    exec abi none (walkLevel abi shift ++ rest) cpu = exec abi
        (if cpu.kernel.word abi cpu.k1 (levelIndex abi shift cpu.badVAddr) = 0 then some .nine
          else none) rest
        { cpu with
          k0 := levelIndex abi shift cpu.badVAddr <<< abi.wordShift % abi.modulus
          k1 := cpu.kernel.word abi cpu.k1 (levelIndex abi shift cpu.badVAddr) } := by
  have address : ((cpu.k1 + levelIndex abi shift cpu.badVAddr <<< abi.wordShift % abi.modulus) %
      abi.modulus + 0) % abi.modulus =
        Kernel.slot abi cpu.k1 (levelIndex abi shift cpu.badVAddr) := by
    rw [add_zero, mod_mod, handler_slot]
  rw [Kernel.word, ← address]
  rfl

/-- The index of the even page of a pair. -/
def pairIndex (abi : Abi) (va : Nat) : Nat := ptx abi va / 2 * 2

theorem pairIndex_eq (va : Nat) : va >>> ptxShift &&& (abi.ptxMask - 1) = pairIndex abi va := by
  have narrow : abi.ptxMask &&& (abi.ptxMask - 1) = abi.ptxMask - 1 := by cases abi <;> decide
  rw [← narrow, ← land_assoc]
  have below := ptx_lt abi va
  exact alignBelow_two_pow (pageShift - abi.wordShift) (ptx abi va) 1 below
    (by cases abi <;> decide)

theorem exec_loadPair :
    exec abi none (loadPair abi ++ rest) cpu = exec abi none rest
        { cpu with
          k0 := cpu.kernel.word abi cpu.k1 (pairIndex abi cpu.badVAddr)
          k1 := cpu.kernel.word abi cpu.k1 (pairIndex abi cpu.badVAddr + 1) } := by
  have even : ((cpu.k1 + pairIndex abi cpu.badVAddr <<< abi.wordShift % abi.modulus) %
      abi.modulus + 0) % abi.modulus = Kernel.slot abi cpu.k1 (pairIndex abi cpu.badVAddr) := by
    rw [add_zero, mod_mod, handler_slot]
  have odd : ((cpu.k1 + pairIndex abi cpu.badVAddr <<< abi.wordShift % abi.modulus) %
      abi.modulus + abi.wordSize) % abi.modulus =
        Kernel.slot abi cpu.k1 (pairIndex abi cpu.badVAddr + 1) := by
    rw [handler_slot, Kernel.slot, Kernel.slot, mod_add_mod, succ_mul, add_assoc]
  rw [Kernel.word, Kernel.word, ← even, ← odd, ← pairIndex_eq]
  rfl

/-- An entry moved over its soft bits, as the instruction set allows. -/
def softShifted (abi : Abi) (isaRev entry : Nat) : Nat :=
  if isaRev = 1 then entry >>> pteSoftShift else Cpu.rotateRight abi entry pteSoftShift

theorem exec_dropSoftBits (isaRev : Nat) :
    exec abi none (dropSoftBits isaRev ++ rest) cpu = exec abi none rest
        { cpu with
          k0 := softShifted abi isaRev cpu.k0
          k1 := softShifted abi isaRev cpu.k1 } := by
  unfold dropSoftBits softShifted
  split <;> rfl

/-- The last block writes the pair into the TLB when the entry of the faulting half is valid. -/
theorem exec_writePair :
    exec abi none (writePair ++ giveUp) cpu =
      if (if cpu.badVAddr >>> ptxShift &&& 1 = 0 then cpu.k0 else cpu.k1) &&&
          (pteValid >>> pteSoftShift) = 0 then
        .jumped (genericExceptEntry % abi.modulus)
          { cpu with
            k0 := genericExceptEntry % abi.modulus
            k1 := cpu.badVAddr >>> ptxShift &&& 1
            entryLo0 := cpu.k0
            entryLo1 := cpu.k1 }
      else
        .returned
          { cpu with
            k0 := (if cpu.badVAddr >>> ptxShift &&& 1 = 0 then cpu.k0 else cpu.k1) &&&
              (pteValid >>> pteSoftShift)
            k1 := cpu.badVAddr >>> ptxShift &&& 1
            entryLo0 := cpu.k0
            entryLo1 := cpu.k1
            tlb := (cpu.k0, cpu.k1) :: cpu.tlb } := by
  have tail : ∀ state : Cpu, exec abi none ([.andi k0 (pteValid >>> pteSoftShift), .beqz k0 .nine,
      .tlbwr, .eret] ++ giveUp) state =
      if state.k0 &&& (pteValid >>> pteSoftShift) = 0 then
        .jumped (genericExceptEntry % abi.modulus)
          { state with k0 := genericExceptEntry % abi.modulus }
      else
        .returned
          { state with
            k0 := state.k0 &&& (pteValid >>> pteSoftShift)
            tlb := (state.entryLo0, state.entryLo1) :: state.tlb } := by
    intro state
    show exec abi (if state.k0 &&& (pteValid >>> pteSoftShift) = 0 then some .nine else none)
      (.tlbwr :: .eret :: giveUp) _ = _
    split <;> rfl
  by_cases even : cpu.badVAddr >>> ptxShift &&& 1 = 0
  · rw [if_pos even]
    show exec abi (if cpu.badVAddr >>> ptxShift &&& 1 = 0 then some .one else none)
      (.mfc0 k0 entryLo1 :: .label .one :: _) _ = _
    rw [if_pos even]
    exact tail { cpu with
      k1 := cpu.badVAddr >>> ptxShift &&& 1, entryLo0 := cpu.k0, entryLo1 := cpu.k1 }
  · rw [if_neg even]
    show exec abi (if cpu.badVAddr >>> ptxShift &&& 1 = 0 then some .one else none)
      (.mfc0 k0 entryLo1 :: .label .one :: _) _ = _
    rw [if_neg even]
    exact tail { cpu with
      k0 := cpu.k1, k1 := cpu.badVAddr >>> ptxShift &&& 1, entryLo0 := cpu.k0,
      entryLo1 := cpu.k1 }

theorem walkDirectories_eq (abi : Abi) :
    walkDirectories abi = abi.dirShifts.flatMap (walkLevel abi) := by
  cases abi <;> rfl

/-- Going down the directories arrives at the leaf table, or gives up without a TLB write. -/
theorem exec_walkLevels {body : List Instr} (elsewhere : Instr.label .nine ∉ body)
    (shifts : List Nat) :
    (Radix.walk (child abi cpu.kernel) cpu.k1 (shifts.map fun shift =>
        ⟨levelIndex abi shift cpu.badVAddr, levelIndex_lt abi shift cpu.badVAddr⟩) = none ∧
      ∃ after, exec abi none (shifts.flatMap (walkLevel abi) ++ (body ++ giveUp)) cpu =
          .jumped (genericExceptEntry % abi.modulus) after ∧ after.tlb = cpu.tlb) ∨
    ∃ table junk, Radix.walk (child abi cpu.kernel) cpu.k1 (shifts.map fun shift =>
        ⟨levelIndex abi shift cpu.badVAddr, levelIndex_lt abi shift cpu.badVAddr⟩) = some table ∧
      exec abi none (shifts.flatMap (walkLevel abi) ++ (body ++ giveUp)) cpu =
        exec abi none (body ++ giveUp) { cpu with k0 := junk, k1 := table } := by
  induction shifts generalizing cpu with
  | nil => exact Or.inr ⟨cpu.k1, cpu.k0, rfl, rfl⟩
  | cons shift shifts inductionHypothesis =>
    rw [flatMap_cons, append_assoc, exec_walkLevel, map_cons, Radix.walk, child]
    by_cases absent : cpu.kernel.word abi cpu.k1 (levelIndex abi shift cpu.badVAddr) = 0
    · have noLabel : Instr.label .nine ∉ shifts.flatMap (walkLevel abi) := by
        simp [walkLevel]
      rw [if_pos absent, if_pos absent, exec_skip _ noLabel, exec_skip _ elsewhere, exec_giveUp]
      exact Or.inl ⟨rfl, _, rfl, rfl⟩
    · rw [if_neg absent, if_neg absent, Option.bind_some]
      exact @inductionHypothesis { cpu with
        k0 := levelIndex abi shift cpu.badVAddr <<< abi.wordShift % abi.modulus
        k1 := cpu.kernel.word abi cpu.k1 (levelIndex abi shift cpu.badVAddr) }

end Blocks

/-! ### The page pair -/

/-- The even page of the pair an address lies in. -/
def evenPage (va : Nat) : Nat := va / (2 * pageSize) * (2 * pageSize)

/-- Both pages of a pair have the leaf table of the address, at neighbouring indices. -/
theorem pair_indices (abi : Abi) (va : Nat) :
    (dirPath abi (evenPage va) = dirPath abi va ∧ ptx abi (evenPage va) = pairIndex abi va) ∧
      dirPath abi (evenPage va + pageSize) = dirPath abi va ∧
      ptx abi (evenPage va + pageSize) = pairIndex abi va + 1 := by
  have levels : ∀ shift ∈ abi.dirShifts,
      levelIndex abi shift (evenPage va) = levelIndex abi shift va ∧
        levelIndex abi shift (evenPage va + pageSize) = levelIndex abi shift va := by
    intro shift member
    rw [levelIndex_eq, levelIndex_eq, levelIndex_eq]
    unfold evenPage pageSize
    cases abi with
    | ilp32 =>
      rcases mem_singleton.mp member with rfl
      show _ / 2 ^ 22 % 1024 = va / 2 ^ 22 % 1024 ∧ _ / 2 ^ 22 % 1024 = va / 2 ^ 22 % 1024
      omega
    | lp64 =>
      simp only [Abi.dirShifts, mem_cons, not_mem_nil, or_false] at member
      rcases member with rfl | rfl | rfl
      · show _ / 2 ^ 39 % 512 = va / 2 ^ 39 % 512 ∧ _ / 2 ^ 39 % 512 = va / 2 ^ 39 % 512
        omega
      · show _ / 2 ^ 30 % 512 = va / 2 ^ 30 % 512 ∧ _ / 2 ^ 30 % 512 = va / 2 ^ 30 % 512
        omega
      · show _ / 2 ^ 21 % 512 = va / 2 ^ 21 % 512 ∧ _ / 2 ^ 21 % 512 = va / 2 ^ 21 % 512
        omega
  have low : ptx abi (evenPage va) = pairIndex abi va ∧
      ptx abi (evenPage va + pageSize) = pairIndex abi va + 1 := by
    unfold pairIndex ptx
    rw [levelIndex_eq, levelIndex_eq, levelIndex_eq]
    unfold evenPage pageSize
    cases abi with
    | ilp32 =>
      show _ / 2 ^ 12 % 1024 = va / 2 ^ 12 % 1024 / 2 * 2 ∧
        _ / 2 ^ 12 % 1024 = va / 2 ^ 12 % 1024 / 2 * 2 + 1
      omega
    | lp64 =>
      show _ / 2 ^ 12 % 512 = va / 2 ^ 12 % 512 / 2 * 2 ∧
        _ / 2 ^ 12 % 512 = va / 2 ^ 12 % 512 / 2 * 2 + 1
      omega
  exact ⟨⟨map_congr_left fun shift member => Fin.ext (levels shift member).1, low.1⟩,
    map_congr_left fun shift member => Fin.ext (levels shift member).2, low.2⟩

/-- The entry of the faulting page is the one of the pair the address bit selects. -/
theorem ptx_select (abi : Abi) (va : Nat) :
    ptx abi va = if va >>> ptxShift &&& 1 = 0 then pairIndex abi va else pairIndex abi va + 1 := by
  have parity : va >>> ptxShift &&& 1 = ptx abi va % 2 := by
    rw [and_one_is_mod, shiftRight_eq_div_pow, ptx, levelIndex_eq]
    exact (mod_mod_of_dvd _ (by cases abi <;> decide)).symm
  rw [parity, pairIndex]
  split <;> omega

/-! ### The fields of an entry -/

/-- The fields of a TLB entry. -/
structure LoFields where
  pfn : Nat
  c : Nat
  d : Nat
  v : Nat
  g : Nat
  deriving DecidableEq, Repr

/-- The fields of `EntryLo0` and `EntryLo1`. -/
def entryLoFields (entryLo : Nat) : LoFields :=
  ⟨entryLo / 2 ^ 6, entryLo / 2 ^ 3 % 8, entryLo / 2 ^ 2 % 2, entryLo / 2 % 2, entryLo % 2⟩

/-- The fields of a page-table entry, by the layout of `pgtable.h`. -/
def pteFields (pte : Nat) : LoFields :=
  ⟨pte / 2 ^ 12, pte / 2 ^ 9 % 8, pte / 2 ^ 8 % 2, pte / 2 ^ 7 % 2, pte / 2 ^ 6 % 2⟩

/-- What the C code stores in a leaf table: nothing, or a page with its mode bits. -/
def Stored (pte : Nat) : Prop :=
  pte = 0 ∨ ∃ paddr flags, paddr % pageSize = 0 ∧ pte = paddr ||| pgtablePerm flags

variable {abi : Abi} {isaRev pte : Nat}

theorem softShifted_of_zero (soft : pte % 2 ^ 6 = 0) :
    softShifted abi isaRev pte = pte / 2 ^ 6 := by
  unfold softShifted Cpu.rotateRight
  rw [shiftRight_eq_div_pow, show pteSoftShift = 6 from rfl]
  have lost : pte <<< (abi.bits - 6) % abi.modulus = 0 := by
    rw [shiftLeft_eq, Abi.modulus,
      show 2 ^ abi.bits = 2 ^ 6 * 2 ^ (abi.bits - 6) by cases abi <;> rfl,
      mul_mod_mul_right, soft, zero_mul]
  rw [lost, or_zero, ite_self]

theorem soft_of_stored (stored : Stored pte) : pte % 2 ^ 6 = 0 := by
  rcases stored with rfl | ⟨paddr, flags, aligned, rfl⟩
  · rfl
  · have low : paddr % 2 ^ 6 = 0 := by
      unfold pageSize at aligned
      omega
    rw [or_mod_two_pow, low, zero_or]
    unfold pgtablePerm machPgtablePerm
    split <;> decide

/-- Moved over the soft bits, a stored entry has its fields where the TLB expects them. -/
theorem fields_of_stored (stored : Stored pte) :
    entryLoFields (softShifted abi isaRev pte) = pteFields pte := by
  rw [softShifted_of_zero (soft_of_stored stored)]
  simp only [entryLoFields, pteFields, Nat.div_div_eq_div_mul, ← pow_add]
  rfl

/-- The validity test of the handler is that of the page-table entry. -/
theorem valid_softShifted (abi : Abi) (isaRev pte : Nat) :
    softShifted abi isaRev pte &&& (pteValid >>> pteSoftShift) = 0 ↔ pte &&& pteValid = 0 := by
  have bit : (softShifted abi isaRev pte).testBit 1 = pte.testBit 7 := by
    unfold softShifted Cpu.rotateRight
    have high : ((pte <<< (abi.bits - 6)) % 2 ^ abi.bits).testBit 1 = false := by
      rw [testBit_mod_two_pow, testBit_shiftLeft]
      cases abi <;> simp [Abi.bits]
    split
    · rw [testBit_shiftRight]
      rfl
    · rw [testBit_or, testBit_shiftRight]
      show (pte.testBit 7 || ((pte <<< (abi.bits - 6)) % 2 ^ abi.bits).testBit 1) = _
      rw [high, Bool.or_false]
  have low : softShifted abi isaRev pte &&& 2 ^ 1 =
      ((softShifted abi isaRev pte).testBit 1).toNat * 2 ^ 1 := and_two_pow _ 1
  have top : pte &&& 2 ^ 7 = (pte.testBit 7).toNat * 2 ^ 7 := and_two_pow _ 7
  show softShifted abi isaRev pte &&& 2 ^ 1 = 0 ↔ pte &&& 2 ^ 7 = 0
  rw [low, top, bit]
  omega

/-! ### Agreement with the C code -/

/-- The condition under which the C code sees a valid translation for an address. -/
def Translates (abi : Abi) (pgindex : Nat) (desc : PageDesc) (kernel : Kernel) (va : Nat) : Prop :=
  (getpagedesc abi pgindex va false desc kernel).1 = 0 ∧
    kernel.word abi (getpagedesc abi pgindex va false desc kernel).2.1.ptev (ptx abi va) &&&
      pteValid ≠ 0

/-- What the handler has done when it returns with the page pair in the TLB. -/
structure Refilled (abi : Abi) (isaRev pgindex : Nat) (desc : PageDesc) (before after : Cpu) :
    Prop where
  written : after.tlb = (after.entryLo0, after.entryLo1) :: before.tlb
  even : ∃ pte, lookup abi pgindex desc before.kernel (evenPage before.badVAddr) = some pte ∧
    after.entryLo0 = softShifted abi isaRev pte ∧
    (Stored pte → entryLoFields after.entryLo0 = pteFields pte)
  odd : ∃ pte,
    lookup abi pgindex desc before.kernel (evenPage before.badVAddr + pageSize) = some pte ∧
    after.entryLo1 = softShifted abi isaRev pte ∧
    (Stored pte → entryLoFields after.entryLo1 = pteFields pte)

/-- The blocks after the directories, from the leaf table on. -/
theorem exec_leaf {abi : Abi} {isaRev : Nat} {cpu : Cpu} :
    let even := softShifted abi isaRev (cpu.kernel.word abi cpu.k1 (pairIndex abi cpu.badVAddr))
    let odd := softShifted abi isaRev (cpu.kernel.word abi cpu.k1 (pairIndex abi cpu.badVAddr + 1))
    (cpu.kernel.word abi cpu.k1 (ptx abi cpu.badVAddr) &&& pteValid = 0 →
      ∃ after, exec abi none ((loadPair abi ++ (dropSoftBits isaRev ++ writePair)) ++ giveUp) cpu =
          .jumped (genericExceptEntry % abi.modulus) after ∧ after.tlb = cpu.tlb) ∧
    (cpu.kernel.word abi cpu.k1 (ptx abi cpu.badVAddr) &&& pteValid ≠ 0 →
      ∃ after, exec abi none ((loadPair abi ++ (dropSoftBits isaRev ++ writePair)) ++ giveUp) cpu =
          .returned after ∧ after.entryLo0 = even ∧ after.entryLo1 = odd ∧
        after.tlb = (even, odd) :: cpu.tlb) := by
  intro even odd
  have selected : (if cpu.badVAddr >>> ptxShift &&& 1 = 0 then even else odd) =
      softShifted abi isaRev (cpu.kernel.word abi cpu.k1 (ptx abi cpu.badVAddr)) := by
    rw [ptx_select]
    split <;> rfl
  rw [append_assoc, exec_loadPair, append_assoc, exec_dropSoftBits, exec_writePair]
  have test := valid_softShifted abi isaRev (cpu.kernel.word abi cpu.k1 (ptx abi cpu.badVAddr))
  rw [← selected] at test
  constructor
  · intro invalid
    rw [if_pos (test.mpr invalid)]
    exact ⟨_, rfl, rfl⟩
  · intro valid
    rw [if_neg (mt test.mp valid)]
    exact ⟨_, rfl, rfl, rfl, rfl⟩

/-- The refill handler and `__getpagedesc` agree: the handler writes the page pair of the
faulting address into the TLB exactly when the C code finds a leaf table for the address in
which its entry is valid, and otherwise goes to the generic exception entry. -/
theorem tlbEntry_agrees (abi : Abi) (isaRev pgdirSlotBase : Nat) (desc : PageDesc) (cpu : Cpu)
    (indexed : cpu.kernel.word abi pgdirSlotBase cpu.number ≠ 0) :
    (Translates abi (cpu.kernel.word abi pgdirSlotBase cpu.number) desc cpu.kernel cpu.badVAddr →
      ∃ after, exec abi none (tlbEntry abi isaRev pgdirSlotBase) cpu = .returned after ∧
        Refilled abi isaRev (cpu.kernel.word abi pgdirSlotBase cpu.number) desc cpu after) ∧
    (¬ Translates abi (cpu.kernel.word abi pgdirSlotBase cpu.number) desc cpu.kernel
        cpu.badVAddr →
      ∃ after, exec abi none (tlbEntry abi isaRev pgdirSlotBase) cpu =
          .jumped (genericExceptEntry % abi.modulus) after ∧ after.tlb = cpu.tlb) := by
  have noLabel : Instr.label .nine ∉ loadPair abi ++ (dropSoftBits isaRev ++ writePair) := by
    unfold dropSoftBits
    split <;> simp [loadPair, writePair]
  rw [tlbEntry, exec_fetchIndex, if_neg indexed, walkDirectories_eq]
  generalize cpu.kernel.word abi pgdirSlotBase cpu.number = pgindex
  have walked := @exec_walkLevels abi { cpu with
    k0 := cpu.number <<< abi.wordShift % abi.modulus, k1 := pgindex } _ noLabel abi.dirShifts
  rcases getpagedesc_find abi pgindex cpu.badVAddr desc cpu.kernel with
    ⟨missing, found, call⟩ | ⟨found, there, index, call⟩
  · have none : ¬ Translates abi pgindex desc cpu.kernel cpu.badVAddr := by
      rw [Translates, call]
      exact fun both => absurd both.1 (show ¬ -enoent = 0 by decide)
    refine ⟨fun translates => absurd translates none, fun _ => ?_⟩
    rcases walked with ⟨-, gaveUp⟩ | ⟨table, junk, arrives, -⟩
    · exact gaveUp
    · cases missing.symm.trans arrives
  · rcases walked with ⟨nowhere, -⟩ | ⟨table, junk, arrives, continues⟩
    · cases there.symm.trans nowhere
    have same : found.ptev = table := Option.some.inj (there.symm.trans arrives)
    obtain ⟨invalid, valid⟩ := @exec_leaf _ _ { cpu with k0 := junk, k1 := table }
    rw [continues, Translates, call, same]
    obtain ⟨⟨evenPath, evenIndex⟩, oddPath, oddIndex⟩ := pair_indices abi cpu.badVAddr
    constructor
    · intro translates
      obtain ⟨after, run, low, high, written⟩ := valid translates.2
      refine ⟨after, run, by rw [written, low, high], ?_, ?_⟩
      · refine ⟨cpu.kernel.word abi table (pairIndex abi cpu.badVAddr), ?_, low, fun stored => ?_⟩
        · rw [lookup_eq, leaf, evenPath, evenIndex, ← leaf, there, same]
          rfl
        · rw [low]
          exact fields_of_stored stored
      · refine ⟨cpu.kernel.word abi table (pairIndex abi cpu.badVAddr + 1), ?_, high,
          fun stored => ?_⟩
        · rw [lookup_eq, leaf, oddPath, oddIndex, ← leaf, there, same]
          rfl
        · rw [high]
          exact fields_of_stored stored
    · intro absent
      rw [not_and, not_not] at absent
      exact invalid (absent rfl)

/-- Processor 1 faulting on page 0x7000, which the page index in its slot maps. -/
def faultingCpu : Cpu :=
  { number := 1
    k0 := 0
    k1 := 0
    badVAddr := 0x7abc
    entryLo0 := 0
    entryLo1 := 0
    tlb := []
    kernel :=
      (mapPages .ilp32 (pa2kva .ilp32 0x1000) 0x7000 0x9000 0x1000 0 oneDirectory).2.setWord .ilp32
        0x80000400 1 (pa2kva .ilp32 0x1000) }

theorem tlbEntry_agrees_mappedPage :
    ∃ after, exec .ilp32 none (tlbEntry .ilp32 2 0x80000400) faultingCpu = .returned after ∧
      Refilled .ilp32 2 (faultingCpu.kernel.word .ilp32 0x80000400 1) oneDirectory.freshDesc
        faultingCpu after :=
  (tlbEntry_agrees .ilp32 2 0x80000400 oneDirectory.freshDesc faultingCpu (by decide +kernel)).1
    ⟨by decide +kernel, by decide +kernel⟩

end AIMv6
