/-
This file models the boot chain of the MSIM machine: the disk driver that has the device write a
sector to a DMA buffer and copies it to the caller, the firmware's `readdisk` on top of it, and the
loader `boot`, which reads the ELF header and one program header after the other to its stack and
every loadable segment to its address.

The stack and the DMA buffer of firmware and loader are part of the memory the segments are loaded
to. The loop rereads the number and the size of the program headers from the stack in each round,
so that its invariant has to say that the ELF header is still there; it is, as long as no segment
is loaded over the memory the firmware and the loader work with.
-/

import AIMv6.BootDisk

namespace AIMv6

open Nat Option Set

namespace Msim

open ByteMemory

/-! ### The firmware and the loader -/

/-- Where the firmware and the loader keep what they work with: the buffer of `readdisk`, the DMA
buffer of the driver, and the two headers of `boot`, which do not overlap, and the boot record. -/
structure Layout where
  sectorBuf : Address
  dma : Address
  eh : Address
  ph : Address
  mbr : Address
  buffersApart : Disjoint (range sectorBuf sectorSize) (range dma sectorSize)
  headersApart : Disjoint (range eh elfHeaderSize) (range ph programHeaderSize)
  elfApart : Disjoint (range eh elfHeaderSize) (range sectorBuf sectorSize ∪ range dma sectorSize)
  programApart :
    Disjoint (range ph programHeaderSize) (range sectorBuf sectorSize ∪ range dma sectorSize)

namespace Layout

/-- The buffers of the firmware. -/
def buffers (layout : Layout) : Set Address :=
  range layout.sectorBuf sectorSize ∪ range layout.dma sectorSize

/-- The stack variables of firmware and loader and the DMA buffer. -/
def areas (layout : Layout) : Set Address :=
  layout.buffers ∪ range layout.eh elfHeaderSize ∪ range layout.ph programHeaderSize

end Layout

variable (disk : Nat → UInt8) (layout : Layout)

/-- The bytes of a disk by sector. -/
def diskSectors : Nat → Nat → UInt8 := fun sector offset => disk (sectorSize * sector + offset)

/-- `msim_dd_read_sector` with polling: the device fills the DMA buffer, which is then copied to the
buffer of the caller. -/
def msimDdReadSector (sect : Nat) (mem : ByteMemory) : ByteMemory :=
  (mem.copy layout.dma sectorSize (diskSectors disk sect)).move layout.sectorBuf
    layout.dma sectorSize

/-- `readdisk(sector, offset, buf, len)`. -/
def readdisk (sector offset : Nat) (buf : Address) (len : Nat) (mem : ByteMemory) :
    Option ByteMemory :=
  AIMv6.readdisk (msimDdReadSector disk layout) layout.sectorBuf sector offset buf len mem

/-- One round of the loop of `boot`: a program header is read, and its segment if it is to be
loaded. -/
def bootRound (lba pos : Nat) (mem : ByteMemory) : Option ByteMemory := do
  let mem ← readdisk disk layout lba pos layout.ph programHeaderSize mem
  let ph := programHeader (mem.bytesAt layout.ph)
  if ph.Loaded then readdisk disk layout lba ph.pOffset (BitVec.ofNat 32 ph.pVaddr) ph.pFilesz mem
  else some mem

/-- The loop of `boot`, whose counter has 16 bits. -/
def bootLoop (lba : Nat) : Nat → Nat → Nat → ByteMemory → Option ByteMemory
  | 0, _, _, _ => none
  | rounds + 1, i, pos, mem =>
    if i < elfPhnum (mem.bytesAt layout.eh) then do
      let mem ← bootRound disk layout lba pos mem
      bootLoop lba rounds ((i + 1) % 2 ^ 16)
        ((pos + elfPhentsize (mem.bytesAt layout.eh)) % 2 ^ 32) mem
    else some mem

/-- `boot(readdisk, mbr_addr)` up to its jump to the kernel. -/
def boot (mem : ByteMemory) : Option ByteMemory := do
  let lba := firstSectorLba (mem.bytesAt layout.mbr)
  let mem ← readdisk disk layout lba 0 layout.eh elfHeaderSize mem
  bootLoop disk layout lba (2 ^ 16) 0 (elfPhoff (mem.bytesAt layout.eh)) mem

/-! ### One read -/

theorem msimDdReadSector_delivers :
    Delivers (msimDdReadSector disk layout) layout.sectorBuf layout.buffers (diskSectors disk) where
  stored sector mem offset bound := by
    have small : offset < 2 ^ 32 := bound.trans (by decide)
    rw [msimDdReadSector, move_eq (by decide) layout.buffersApart, copy_inside bound small]
    exact copy_inside bound small
  kept sector mem address outside := by
    rw [msimDdReadSector, move_eq (by decide) layout.buffersApart,
      copy_outside fun inside => outside (Or.inl inside),
      copy_outside fun inside => outside (Or.inr inside)]
  held := subset_union_left

variable {disk layout}

theorem readdisk_spec {lba position len : Nat} {buf : Address} {mem : ByteMemory}
    (size : len < 2 ^ 32) (apart : Disjoint (range buf len) layout.buffers) :
    ∃ after, readdisk disk layout lba position buf len mem = some after ∧
      Set.EqOn after (mem.copy buf len fun index => partitionBytes disk lba (position + index))
        layout.buffersᶜ :=
  AIMv6.readdisk_spec (msimDdReadSector_delivers disk layout) size.le apart

/-! ### The headers and segments of a file -/

/-- The position of a program header in a file, in the arithmetic of `Elf32_Off`. -/
def headerPosition (file : Nat → UInt8) (i : Nat) : Nat :=
  (elfPhoff file + i * elfPhentsize file) % 2 ^ 32

/-- A program header of a file. -/
def fileHeader (file : Nat → UInt8) (i : Nat) : ProgramHeader :=
  programHeader fun index => file (headerPosition file i + index)

/-- Where the loader puts a segment. -/
def destination (header : ProgramHeader) : Set Address :=
  range (BitVec.ofNat 32 header.pVaddr) header.pFilesz

/-- The memory with a segment in its place. -/
def withSegment (mem : ByteMemory) (file : Nat → UInt8) (header : ProgramHeader) : ByteMemory :=
  if header.Loaded then
    mem.copy (BitVec.ofNat 32 header.pVaddr) header.pFilesz fun index =>
      file (header.pOffset + index)
  else mem

variable {mem : ByteMemory} {file : Nat → UInt8} {header : ProgramHeader}

theorem withSegment_outside {address : Address}
    (outside : header.Loaded → address ∉ destination header) :
    withSegment mem file header address = mem address := by
  unfold withSegment
  split
  · rename_i loaded
    exact copy_outside (outside loaded)
  · rfl

theorem withSegment_inside {index : Nat} (loaded : header.Loaded) (bound : index < header.pFilesz)
    (small : index < 2 ^ 32) :
    withSegment mem file header (BitVec.ofNat 32 header.pVaddr + BitVec.ofNat 32 index) =
      file (header.pOffset + index) := by
  rw [withSegment, if_pos loaded]
  exact copy_inside bound small

/-- A round reads one header and puts its segment in place. -/
theorem bootRound_spec {lba position : Nat} {mem : ByteMemory} {header : ProgramHeader}
    (read : header = programHeader fun index => partitionBytes disk lba (position + index))
    (apart : header.Loaded → Disjoint (destination header) layout.buffers) :
    ∃ after, bootRound disk layout lba position mem = some after ∧
      Set.EqOn after (withSegment mem (partitionBytes disk lba) header)
        (layout.buffers ∪ range layout.ph programHeaderSize)ᶜ := by
  obtain ⟨held, readHeader, same⟩ :=
    @readdisk_spec _ _ _ _ _ layout.ph
    mem (by decide) layout.programApart
  have parsed : programHeader (held.bytesAt layout.ph) = header := by
    rw [read]
    refine programHeader_congr fun index bound => ?_
    have small : index < 2 ^ 32 := bound.trans (by decide)
    have outside := disjoint_left.mp layout.programApart (mem_range bound small)
    exact (same outside).trans (copy_inside bound small)
  have kept : Set.EqOn held mem (layout.buffers ∪ range layout.ph programHeaderSize)ᶜ := by
    intro address outside
    rw [same fun inside => outside (Or.inl inside)]
    exact copy_outside fun inside => outside (Or.inr inside)
  simp only [bootRound, readHeader, bind_eq_bind, bind_some, parsed]
  unfold withSegment
  by_cases loaded : header.Loaded
  · rw [if_pos loaded, if_pos loaded]
    have size : header.pFilesz < 2 ^ 32 := by
      rw [read]
      exact wordAt_lt _ _
    obtain ⟨after, readSegment, sameSegment⟩ := @readdisk_spec _ _ _ header.pOffset
      header.pFilesz (BitVec.ofNat 32 header.pVaddr) _ size (apart loaded)
    refine ⟨after, readSegment, Set.EqOn.trans ?_ (copy_eqOn kept)⟩
    exact sameSegment.mono (compl_subset_compl.mpr subset_union_left)
  · rw [if_neg loaded, if_neg loaded]
    exact ⟨held, rfl, kept⟩

/-! ### The loop -/

/-- The first program headers of a file have been dealt with. -/
structure LoadedUpTo (file : Nat → UInt8) (layout : Layout) (before mem : ByteMemory)
    (count : Nat) : Prop where
  header : ∀ index < elfHeaderSize, mem.bytesAt layout.eh index = file index
  loaded : ∀ i < count, (fileHeader file i).Loaded → ∀ index < (fileHeader file i).pFilesz,
    mem (BitVec.ofNat 32 (fileHeader file i).pVaddr + BitVec.ofNat 32 index) =
      file ((fileHeader file i).pOffset + index)
  kept : ∀ address ∉ layout.areas,
    (∀ i < count, (fileHeader file i).Loaded → address ∉ destination (fileHeader file i)) →
      mem address = before address

/-- The segments to load do not overlap each other or the memory of firmware and loader. -/
structure Separate (file : Nat → UInt8) (own : Set Address) : Prop where
  pairwise : ∀ i < elfPhnum file, ∀ j < elfPhnum file, i ≠ j → (fileHeader file i).Loaded →
    (fileHeader file j).Loaded →
      Disjoint (destination (fileHeader file i)) (destination (fileHeader file j))
  apart : ∀ i < elfPhnum file, (fileHeader file i).Loaded →
    Disjoint (destination (fileHeader file i)) own

theorem fileHeader_pFilesz_lt (file : Nat → UInt8) (i : Nat) :
    (fileHeader file i).pFilesz < 2 ^ 32 :=
  wordAt_lt _ _

section Loading

variable {lba count : Nat} {before mem : ByteMemory} {own : Set Address}

theorem LoadedUpTo.round (holds : LoadedUpTo (partitionBytes disk lba) layout before mem count)
    (separate : Separate (partitionBytes disk lba) own) (within : layout.areas ⊆ own)
    (more : count < elfPhnum (partitionBytes disk lba)) :
    ∃ after, bootRound disk layout lba (headerPosition (partitionBytes disk lba) count) mem =
      some after ∧ LoadedUpTo (partitionBytes disk lba) layout before after (count + 1) := by
  generalize fileIs : partitionBytes disk lba = file at *
  obtain ⟨header, headerIs⟩ : ∃ header, header = fileHeader file count := ⟨_, rfl⟩
  have apart : header.Loaded → Disjoint (destination header) layout.areas := fun loaded =>
    (headerIs ▸ separate.apart count more (headerIs ▸ loaded)).mono_right within
  have buffersWithin : layout.buffers ⊆ layout.areas :=
    subset_union_left.trans subset_union_left
  have roundWithin : layout.buffers ∪ range layout.ph programHeaderSize ⊆ layout.areas :=
    union_subset buffersWithin subset_union_right
  have elfWithin : range layout.eh elfHeaderSize ⊆ layout.areas :=
    subset_union_right.trans subset_union_left
  obtain ⟨after, done, same⟩ :=
    bootRound_spec
    (by rw [headerIs, fileIs]; rfl) fun loaded => (apart loaded).mono_right buffersWithin
  rw [fileIs] at same
  refine ⟨after, done, ⟨fun index bound => ?_, fun i bound loaded index inside => ?_,
    fun address outside others => ?_⟩⟩
  · have inElf : layout.eh + BitVec.ofNat 32 index ∈ range layout.eh elfHeaderSize :=
      mem_range bound (bound.trans (by decide))
    have outside : layout.eh + BitVec.ofNat 32 index ∉ layout.buffers ∪
        range layout.ph programHeaderSize :=
      not_or.mpr ⟨disjoint_left.mp layout.elfApart inElf,
        disjoint_left.mp layout.headersApart inElf⟩
    refine Eq.trans ?_ (holds.header index bound)
    refine (same outside).trans (withSegment_outside fun loaded inside => ?_)
    exact disjoint_left.mp (apart loaded) inside (elfWithin inElf)
  · have small := inside.trans (fileHeader_pFilesz_lt file i)
    have here : BitVec.ofNat 32 (fileHeader file i).pVaddr + BitVec.ofNat 32 index ∈
        destination (fileHeader file i) := mem_range inside small
    have valid : i < elfPhnum file := by omega
    have outside := disjoint_left.mp (separate.apart i valid loaded) here
    rw [same fun among => outside (within (roundWithin among))]
    rcases Nat.lt_succ_iff_lt_or_eq.mp bound with earlier | rfl
    · refine Eq.trans (withSegment_outside fun current => ?_)
        (holds.loaded i earlier loaded index inside)
      rw [headerIs] at current ⊢
      exact disjoint_left.mp
        (separate.pairwise i valid count more (Nat.ne_of_lt earlier) loaded current) here
    · rw [headerIs]
      exact withSegment_inside loaded inside small
  · rw [same fun among => outside (roundWithin among)]
    refine (withSegment_outside fun loaded => ?_).trans
      (holds.kept address outside fun i bound => others i (lt_succ_of_lt bound))
    rw [headerIs] at loaded ⊢
    exact others count (lt_succ_self count) loaded

theorem headerPosition_succ (file : Nat → UInt8) (i : Nat) :
    (headerPosition file i + elfPhentsize file) % 2 ^ 32 = headerPosition file (i + 1) := by
  unfold headerPosition
  rw [mod_add_mod, succ_mul, add_assoc]

theorem bootLoop_spec (rounds : Nat)
    (holds : LoadedUpTo (partitionBytes disk lba) layout before mem count)
    (separate : Separate (partitionBytes disk lba) own) (within : layout.areas ⊆ own)
    (valid : count ≤ elfPhnum (partitionBytes disk lba))
    (enough : elfPhnum (partitionBytes disk lba) < count + rounds) :
    ∃ after, bootLoop disk layout lba rounds count
        (headerPosition (partitionBytes disk lba) count) mem = some after ∧
      LoadedUpTo (partitionBytes disk lba) layout before after
        (elfPhnum (partitionBytes disk lba)) := by
  induction rounds generalizing count mem with
  | zero => omega
  | succ rounds inductionHypothesis =>
    obtain ⟨-, -, number⟩ := elfHeader_congr holds.header
    rw [bootLoop, number]
    rcases lt_or_eq_of_le valid with more | ended
    · obtain ⟨after, done, next⟩ := holds.round separate within more
      obtain ⟨-, entrySize, -⟩ := elfHeader_congr next.header
      have counter : (count + 1) % 2 ^ 16 = count + 1 :=
        mod_eq_of_lt (lt_of_le_of_lt more (elfPhnum_lt _))
      simp only [if_pos more, done, bind_eq_bind, bind_some, entrySize, counter,
        headerPosition_succ]
      exact inductionHypothesis next more (by omega)
    · rw [if_neg (by omega)]
      exact ⟨mem, rfl, ended ▸ holds⟩

/-- The loader reads the ELF header and then every segment. -/
theorem boot_spec (lbaIs : lba = firstSectorLba (mem.bytesAt layout.mbr))
    (separate : Separate (partitionBytes disk lba) own) (within : layout.areas ⊆ own) :
    ∃ after, boot disk layout mem = some after ∧
      LoadedUpTo (partitionBytes disk lba) layout mem after
        (elfPhnum (partitionBytes disk lba)) := by
  obtain ⟨held, readHeader, same⟩ := @readdisk_spec disk layout lba 0 elfHeaderSize layout.eh mem
    (by decide) layout.elfApart
  have start : LoadedUpTo (partitionBytes disk lba) layout mem held 0 := by
    refine ⟨fun index bound => ?_, fun i none => absurd none (not_lt_zero i),
      fun address outside _ => ?_⟩
    · have small : index < 2 ^ 32 := bound.trans (by decide)
      refine (same (disjoint_left.mp layout.elfApart (mem_range bound small))).trans ?_
      rw [copy_inside bound small, zero_add]
    · rw [same fun inside => outside (Or.inl (Or.inl inside))]
      exact copy_outside fun inside => outside (Or.inl (Or.inr inside))
  obtain ⟨offset, -, -⟩ := elfHeader_congr start.header
  have first : elfPhoff (held.bytesAt layout.eh) = headerPosition (partitionBytes disk lba) 0 := by
    rw [offset, headerPosition, zero_mul, add_zero]
    exact (mod_eq_of_lt (wordAt_lt _ _)).symm
  have number : elfPhnum (partitionBytes disk lba) < 0 + 2 ^ 16 := by
    rw [zero_add]
    exact elfPhnum_lt _
  obtain ⟨after, done, loaded⟩ :=
    bootLoop_spec (2 ^ 16) start separate within (zero_le _) number
  refine ⟨after, ?_, loaded⟩
  rw [boot, ← lbaIs]
  simp only [readHeader, bind_eq_bind, bind_some, first]
  exact done

end Loading

/-! ### The boot chain loads the kernel exactly -/

/-- The reads of the firmware are exact, and the loader built on them puts every loadable segment of
the kernel in its place and writes nothing else but the memory firmware and loader work with. -/
theorem boot_loads_exactly (disk : Nat → UInt8) (layout : Layout) (mem : ByteMemory) :
    (∀ sector offset len : Nat, ∀ buf : Address, len < 2 ^ 32 →
      (∀ index < len, sector + (offset + index) / sectorSize < 2 ^ 32) →
      Disjoint (range buf len) layout.buffers →
      ∃ after, readdisk disk layout sector offset buf len mem = some after ∧
        (∀ index < len, after (buf + BitVec.ofNat 32 index) =
          disk (sector * sectorSize + offset + index)) ∧
        ∀ address ∉ range buf len, address ∉ layout.buffers → after address = mem address) ∧
    ∀ (own : Set Address) (file : Nat → UInt8), layout.areas ⊆ own →
      file = partitionBytes disk (firstSectorLba (mem.bytesAt layout.mbr)) → Separate file own →
      ∃ after, boot disk layout mem = some after ∧
        (∀ i < elfPhnum file, (fileHeader file i).Loaded → ∀ index < (fileHeader file i).pFilesz,
          after (BitVec.ofNat 32 (fileHeader file i).pVaddr + BitVec.ofNat 32 index) =
            file ((fileHeader file i).pOffset + index)) ∧
        ∀ address ∉ layout.areas, (∀ i < elfPhnum file, (fileHeader file i).Loaded →
            address ∉ destination (fileHeader file i)) → after address = mem address := by
  refine ⟨fun sector offset len buf size numbers apart => ?_,
    fun own file within fileIs separate => ?_⟩
  · obtain ⟨after, done, same⟩ := @readdisk_spec _ _ _ _ _ _ _ size apart
    refine ⟨after, done, fun index bound => ?_, fun address outside away => ?_⟩
    · have small := bound.trans size
      rw [same (disjoint_left.mp apart (mem_range bound small)), copy_inside bound small]
      have position : sectorSize * (sector + (offset + index) / sectorSize) +
          (offset + index) % sectorSize = sector * sectorSize + offset + index := by
        unfold sectorSize
        omega
      rw [partitionBytes, mod_eq_of_lt (numbers index bound), position]
    · exact (same away).trans (copy_outside outside)
  · subst fileIs
    obtain ⟨after, done, loaded⟩ := boot_spec rfl separate within
    exact ⟨after, done, loaded.loaded, loaded.kept⟩

/-- A layout with the buffers and headers one above the other. -/
def smallLayout : Layout where
  sectorBuf := 0x1000
  dma := 0x1200
  eh := 0x1400
  ph := 0x1500
  mbr := 0x2000
  buffersApart := range_disjoint (by decide) (by decide)
  headersApart := range_disjoint (by decide) (by decide)
  elfApart := disjoint_union_right.mpr ⟨(range_disjoint (by decide) (by decide)).symm,
    (range_disjoint (by decide) (by decide)).symm⟩
  programApart := disjoint_union_right.mpr ⟨(range_disjoint (by decide) (by decide)).symm,
    (range_disjoint (by decide) (by decide)).symm⟩

/-- A disk with a file in sector 1 that has two segments: two bytes for address `0x100000`, and
four for `0x100100` that lie in two sectors. -/
def smallDisk : Nat → UInt8
  | 540 => 52
  | 554 => 32
  | 556 => 2
  | 564 => 1
  | 568 => 116
  | 574 => 0x10
  | 580 => 2
  | 596 => 1
  | 600 => 0xfe
  | 601 => 1
  | 605 => 1
  | 606 => 0x10
  | 612 => 4
  | 628 => 0xab
  | 629 => 0xcd
  | 1023 => 2
  | 1024 => 3
  | _ => 0

/-- A memory with the boot record that places the partition at sector 1. -/
def smallMemory : ByteMemory := fun address => if address = 0x21d6 then 1 else 0

theorem smallDisk_headers :
    elfPhnum (partitionBytes smallDisk 1) = 2 ∧
      fileHeader (partitionBytes smallDisk 1) 0 = ⟨1, 116, 0x100000, 0, 2, 0⟩ ∧
      fileHeader (partitionBytes smallDisk 1) 1 = ⟨1, 510, 0x100100, 0, 4, 0⟩ := by
  decide +kernel

theorem smallDisk_separate : Separate (partitionBytes smallDisk 1) smallLayout.areas := by
  obtain ⟨number, first, second⟩ := smallDisk_headers
  have apart : Disjoint (destination ⟨1, 116, 0x100000, 0, 2, 0⟩)
      (destination ⟨1, 510, 0x100100, 0, 4, 0⟩) := range_disjoint (by decide) (by decide)
  refine ⟨fun i inside j also different _ _ => ?_, fun i inside _ => ?_⟩
  · obtain ⟨rfl, rfl⟩ | ⟨rfl, rfl⟩ : i = 0 ∧ j = 1 ∨ i = 1 ∧ j = 0 := by omega
    · rw [first, second]
      exact apart
    · rw [first, second]
      exact apart.symm
  · obtain rfl | rfl : i = 0 ∨ i = 1 := by omega
    all_goals
      refine disjoint_union_right.mpr ⟨disjoint_union_right.mpr
        ⟨disjoint_union_right.mpr ⟨?_, ?_⟩, ?_⟩, ?_⟩
      all_goals exact (range_disjoint (by decide) (by decide)).symm

theorem boot_loads_exactly_small :
    ∃ after, boot smallDisk smallLayout smallMemory = some after ∧ after 0x100000 = 0xab ∧
      after 0x100001 = 0xcd ∧ after 0x100101 = 2 ∧ after 0x100102 = 3 := by
  have lba : firstSectorLba (smallMemory.bytesAt smallLayout.mbr) = 1 := by decide
  obtain ⟨number, first, second⟩ := smallDisk_headers
  obtain ⟨after, done, loaded, -⟩ := (boot_loads_exactly smallDisk smallLayout smallMemory).2
    smallLayout.areas (partitionBytes smallDisk 1) (Set.Subset.refl _) (by rw [lba])
      smallDisk_separate
  have segment := loaded 0 (by rw [number]; decide)
  have other := loaded 1 (by rw [number]; decide)
  rw [first] at segment
  rw [second] at other
  exact ⟨after, done, segment rfl 0 (by decide), segment rfl 1 (by decide),
    other rfl 1 (by decide), other rfl 2 (by decide)⟩

end Msim

end AIMv6
