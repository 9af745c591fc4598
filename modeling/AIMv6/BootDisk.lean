/-
This file models what the boot loaders share: a disk of sectors with 32-bit numbers, the
partition that holds the kernel, the fields of an ELF32 file, and the `readdisk` loop that the
MIPS and the ARM firmware offer to their loaders.

The two loops differ in how a sector comes into the local buffer `sector_buf` and not in how it
is taken out of it. The loop is therefore one definition over the fetch, and its specification
says what arrives in the destination when the fetch delivers given sectors: the bytes from the
offset on, sector after sector, whatever part of the first and of the last sector they take.
-/

import AIMv6.ByteMemory

namespace AIMv6

open ByteMemory Nat

/-! ### Disks, partitions and ELF32 files -/

/-- `SECTOR_SIZE`. -/
def sectorSize : Nat := 512

/-- The bytes of a partition by position. Sector numbers have 32 bits. -/
def partitionBytes (disk : Nat → UInt8) (lba : Nat) : Nat → UInt8 := fun position =>
  disk (sectorSize * ((lba + position / sectorSize) % 2 ^ 32) + position % sectorSize)

/-- `mbr->part_entry[1].first_sector_lba`, behind 446 bytes of code and one entry of 16. -/
def firstSectorLba (mbr : Nat → UInt8) : Nat := wordAt mbr 470

/-- `e_phoff`. -/
def elfPhoff (elf : Nat → UInt8) : Nat := wordAt elf 28

/-- `e_phentsize`. -/
def elfPhentsize (elf : Nat → UInt8) : Nat := halfAt elf 42

/-- `e_phnum`. -/
def elfPhnum (elf : Nat → UInt8) : Nat := halfAt elf 44

/-- `sizeof(struct elf32hdr)`. -/
def elfHeaderSize : Nat := 52

/-- `sizeof(struct elf32_phdr)`. -/
def programHeaderSize : Nat := 32

/-- `PT_LOAD`. -/
def ptLoad : Nat := 1

/-- The fields of `struct elf32_phdr` that place a segment. -/
structure ProgramHeader where
  pType : Nat
  pOffset : Nat
  pVaddr : Nat
  pPaddr : Nat
  pFilesz : Nat
  pAlign : Nat
deriving DecidableEq

/-- The program header in some bytes. -/
def programHeader (bytes : Nat → UInt8) : ProgramHeader where
  pType := wordAt bytes 0
  pOffset := wordAt bytes 4
  pVaddr := wordAt bytes 8
  pPaddr := wordAt bytes 12
  pFilesz := wordAt bytes 16
  pAlign := wordAt bytes 28

/-- The segment is to be loaded. -/
def ProgramHeader.Loaded (header : ProgramHeader) : Prop := header.pType = ptLoad

instance (header : ProgramHeader) : Decidable header.Loaded := inferInstanceAs (Decidable (_ = _))

theorem programHeader_congr {bytes others : Nat → UInt8}
    (same : ∀ offset < programHeaderSize, bytes offset = others offset) :
    programHeader bytes = programHeader others := by
  have word : ∀ position, position + 4 ≤ programHeaderSize →
      wordAt bytes position = wordAt others position :=
    fun position fits => wordAt_congr fun offset bound => same _ (by omega)
  unfold programHeader
  rw [word 0 (by decide), word 4 (by decide), word 8 (by decide), word 12 (by decide),
    word 16 (by decide), word 28 (by decide)]

theorem elfHeader_congr {elf others : Nat → UInt8}
    (same : ∀ offset < elfHeaderSize, elf offset = others offset) :
    elfPhoff elf = elfPhoff others ∧ elfPhentsize elf = elfPhentsize others ∧
      elfPhnum elf = elfPhnum others := by
  unfold elfHeaderSize at same
  exact ⟨wordAt_congr fun offset bound => same _ (by omega),
    halfAt_congr fun offset bound => same _ (by omega),
    halfAt_congr fun offset bound => same _ (by omega)⟩

theorem elfPhnum_lt (elf : Nat → UInt8) : elfPhnum elf < 2 ^ 16 :=
  halfAt_lt elf 44

/-! ### The `readdisk` loop -/

/-- The loop of `readdisk`. Each round takes a byte at least, so that the length bounds the number
of rounds. -/
def readdiskLoop (fetch : Nat → ByteMemory → ByteMemory) (sectorBuf : Address) :
    Nat → Nat → Nat → Address → Nat → ByteMemory → Option ByteMemory
  | 0, _, _, _, len, mem => if 0 < len then none else some mem
  | rounds + 1, sector, offset, buf, len, mem =>
    if 0 < len then
      let l := min len (sectorSize - offset)
      let mem := (fetch sector mem).move buf (sectorBuf + BitVec.ofNat 32 offset) l
      readdiskLoop fetch sectorBuf rounds ((sector + 1) % 2 ^ 32) 0
        (buf + BitVec.ofNat 32 l) (len - l) mem
    else some mem

/-- `readdisk(sector, offset, buf, len)`. -/
def readdisk (fetch : Nat → ByteMemory → ByteMemory) (sectorBuf : Address) (sector offset : Nat)
    (buf : Address) (len : Nat) (mem : ByteMemory) : Option ByteMemory :=
  readdiskLoop fetch sectorBuf len ((sector + offset / sectorSize) % 2 ^ 32)
    (offset % sectorSize) buf len mem

/-- A fetch brings given sectors to the sector buffer and writes nothing but scratch memory. -/
structure Delivers (fetch : Nat → ByteMemory → ByteMemory) (sectorBuf : Address)
    (scratch : Set Address) (sectors : Nat → Nat → UInt8) : Prop where
  stored : ∀ sector mem, ∀ offset < sectorSize,
    fetch sector mem (sectorBuf + BitVec.ofNat 32 offset) = sectors sector offset
  kept : ∀ sector mem, Set.EqOn (fetch sector mem) mem scratchᶜ
  held : range sectorBuf sectorSize ⊆ scratch

/-- The bytes from an offset in a sector on, sector after sector. -/
def sectorBytes (sectors : Nat → Nat → UInt8) (sector offset : Nat) : Nat → UInt8 := fun index =>
  sectors ((sector + (offset + index) / sectorSize) % 2 ^ 32) ((offset + index) % sectorSize)

/-- One round copies a part of one sector. -/
theorem Delivers.round {fetch : Nat → ByteMemory → ByteMemory} {sectorBuf buf : Address}
    {scratch : Set Address} {sectors : Nat → Nat → UInt8} {sector offset len : Nat}
    {mem : ByteMemory} (delivers : Delivers fetch sectorBuf scratch sectors)
    (number : sector < 2 ^ 32) (fits : offset + len ≤ sectorSize)
    (apart : Disjoint (range buf len) scratch) :
    Set.EqOn ((fetch sector mem).move buf (sectorBuf + BitVec.ofNat 32 offset) len)
      (mem.copy buf len (sectorBytes sectors sector offset)) scratchᶜ := by
  have small : offset + len ≤ 2 ^ 32 := fits.trans (by decide)
  have part : range (sectorBuf + BitVec.ofNat 32 offset) len ⊆ scratch := by
    intro address inside
    refine delivers.held ?_
    have place := (mem_range_behind small).mp inside
    exact lt_of_lt_of_le place.2 fits
  have bytes : ∀ index < len,
      (fetch sector mem).bytesAt (sectorBuf + BitVec.ofNat 32 offset) index =
      sectorBytes sectors sector offset index := by
    intro index bound
    have inside : offset + index < sectorSize := by omega
    unfold bytesAt sectorBytes
    rw [BitVec.add_assoc, BitVec.ofNat_add_ofNat, delivers.stored sector mem _ inside,
      div_eq_of_lt inside, mod_eq_of_lt inside, add_zero, mod_eq_of_lt number]
  rw [move_eq (by omega) (apart.mono_right part), copy_congr bytes]
  exact copy_eqOn (delivers.kept sector mem)

theorem readdiskLoop_spec {fetch : Nat → ByteMemory → ByteMemory} {sectorBuf buf : Address}
    {scratch : Set Address} {sectors : Nat → Nat → UInt8} {sector offset len : Nat}
    {mem : ByteMemory} (delivers : Delivers fetch sectorBuf scratch sectors) (rounds : Nat)
    (number : sector < 2 ^ 32) (start : offset < sectorSize) (enough : len ≤ rounds)
    (size : len ≤ 2 ^ 32) (apart : Disjoint (range buf len) scratch) :
    ∃ after, readdiskLoop fetch sectorBuf rounds sector offset buf len mem = some after ∧
      Set.EqOn after (mem.copy buf len (sectorBytes sectors sector offset)) scratchᶜ := by
  induction rounds generalizing sector offset buf len mem with
  | zero =>
    obtain rfl : len = 0 := le_zero.mp enough
    refine ⟨mem, if_neg (lt_irrefl 0), ?_⟩
    rw [copy_zero]
    exact Set.eqOn_refl mem _
  | succ rounds inductionHypothesis =>
    rw [readdiskLoop]
    by_cases more : 0 < len
    · rw [if_pos more]
      obtain ⟨l, part⟩ : ∃ l, l = min len (sectorSize - offset) := ⟨_, rfl⟩
      have within : l ≤ len := by omega
      have first : Disjoint (range buf l) scratch := apart.mono_left (range_mono within)
      have rest : Disjoint (range (buf + BitVec.ofNat 32 l) (len - l)) scratch := by
        refine apart.mono_left fun address inside => ?_
        have place := (mem_range_behind (by omega)).mp inside
        exact lt_of_lt_of_eq place.2 (by omega)
      have next : (sector + 1) % 2 ^ 32 < 2 ^ 32 := mod_lt _ (by decide)
      have front : 0 < sectorSize := by decide
      obtain ⟨after, ends, same⟩ := inductionHypothesis next front (by omega) (by omega) rest
      refine ⟨after, part ▸ ends, same.trans ?_⟩
      have joined : ∀ index < len - l, sectorBytes sectors ((sector + 1) % 2 ^ 32) 0 index =
          sectorBytes sectors sector offset (l + index) := by
        intro index bound
        unfold sectorBytes sectorSize at *
        congr 1 <;> omega
      rw [copy_congr joined]
      have whole : copy mem buf len (sectorBytes sectors sector offset) =
          copy mem buf (l + (len - l)) (sectorBytes sectors sector offset) := by
        rw [Nat.add_sub_cancel' within]
      rw [whole, ← copy_copy (by omega)]
      exact copy_eqOn (delivers.round number (by omega) first)
    · obtain rfl : len = 0 := by omega
      refine ⟨mem, if_neg more, ?_⟩
      rw [copy_zero]
      exact Set.eqOn_refl mem _

/-- `readdisk` ends, and outside the scratch memory it copies the bytes to their destination and
does nothing else. -/
theorem readdisk_spec {fetch : Nat → ByteMemory → ByteMemory} {sectorBuf buf : Address}
    {scratch : Set Address} {sectors : Nat → Nat → UInt8} {sector offset len : Nat}
    {mem : ByteMemory} (delivers : Delivers fetch sectorBuf scratch sectors) (size : len ≤ 2 ^ 32)
    (apart : Disjoint (range buf len) scratch) :
    ∃ after, readdisk fetch sectorBuf sector offset buf len mem = some after ∧
      Set.EqOn after (mem.copy buf len (sectorBytes sectors sector offset)) scratchᶜ := by
  have bytes : sectorBytes sectors ((sector + offset / sectorSize) % 2 ^ 32) (offset % sectorSize) =
      sectorBytes sectors sector offset := by
    funext index
    unfold sectorBytes sectorSize
    congr 1 <;> omega
  rw [← bytes]
  exact readdiskLoop_spec delivers len (mod_lt _ (by decide)) (mod_lt _ (by decide)) le_rfl
    size apart

end AIMv6
