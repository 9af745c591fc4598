/-
This file models the i386 boot loader: `readsect`, which programs the disk controller with a 28-bit
sector number, `readseg`, which moves its destination down to a sector boundary of the file and
reads whole sectors up to the end of the segment, and `bootmain`, which reads the first page of the
kernel to `ELF_BUFFER` and then every loadable segment to its physical address.

The pointers of `readseg` wrap at the end of the address space, so that its rounds may not end. A
segment whose place in memory and in the file is the same within a sector is read by one copy of
whole sectors, and bytes below and above the segment are written as well. Later loads can therefore
reach over earlier segments, and loads over the program headers in the buffer. When all segments
are intact in the end is said by the headers: of the later loads over a byte of a segment the last
one has to bring that byte.
-/

import AIMv6.BootDisk

namespace AIMv6

open Nat Option

namespace I386Boot

open ByteMemory

/-! ### Sectors and segments -/

/-- The sector number a drive takes from the four registers that `readsect` writes: three bytes, and
four bits of the device register beside `ATA_DEVICE_OBS` and `ATA_LBA`. -/
def ataSector (sector : Nat) : Nat :=
  sector % 256 + 256 * (sector / 256 % 256) + 65536 * (sector / 65536 % 256) +
    16777216 * ((sector / 16777216 % 256 ||| 0xe0) % 16)

/-- `readsect(dst, sector)`. -/
def readsect (disk : Nat → UInt8) (dst : Address) (sector : Nat) (mem : ByteMemory) : ByteMemory :=
  mem.copy dst sectorSize fun index => disk (sectorSize * ataSector sector + index)

/-- The loop of `readseg`, which may go on for ever; `none` when the rounds run out. -/
def readsegLoop (disk : Nat → UInt8) : Nat → Address → Address → Nat → ByteMemory →
    Option ByteMemory
  | 0, _, _, _, _ => none
  | rounds + 1, pa, epa, sector, mem =>
    if pa.toNat < epa.toNat then
      readsegLoop disk rounds (pa + BitVec.ofNat 32 sectorSize) epa ((sector + 1) % 2 ^ 32)
        (readsect disk pa sector mem)
    else some mem

/-- `readseg(pa, count, offset)`. -/
def readseg (disk : Nat → UInt8) (rounds : Nat) (pa : Address) (count offset : Nat)
    (mem : ByteMemory) : Option ByteMemory :=
  readsegLoop disk rounds (pa - BitVec.ofNat 32 (offset % sectorSize)) (pa + BitVec.ofNat 32 count)
    (offset / sectorSize) mem

/-- The number of sectors from a pointer up to another, or none if the pointer passes the end of the
address space before it reaches the other. -/
def sectorsUpTo (pa epa : Address) : Option Nat :=
  let sectors := (epa.toNat - pa.toNat + (sectorSize - 1)) / sectorSize
  if pa.toNat + sectorSize * sectors < 2 ^ 32 then some sectors else none

variable {sector rounds : Nat} {pa epa : Address}

theorem ataSector_eq (small : sector < 2 ^ 28) : ataSector sector = sector := by
  have high : ∀ top < 16, (top ||| 0xe0) % 16 = top := by decide
  have top : sector / 16777216 % 256 = sector / 16777216 := by omega
  unfold ataSector
  rw [top, high _ (by omega)]
  omega

theorem sectorsUpTo_of_le (reached : epa.toNat ≤ pa.toNat) : sectorsUpTo pa epa = some 0 := by
  unfold sectorsUpTo sectorSize
  rw [Nat.sub_eq_zero_of_le reached]
  exact if_pos (by omega)

/-- One round less is needed from the next sector on. -/
theorem sectorsUpTo_step (more : pa.toNat < epa.toNat) :
    sectorsUpTo pa epa = (sectorsUpTo (pa + BitVec.ofNat 32 sectorSize) epa).map (· + 1) := by
  unfold sectorsUpTo sectorSize
  rw [BitVec.toNat_add, BitVec.toNat_ofNat]
  dsimp only
  split
  · rename_i fits
    rw [if_pos (by omega), map_some]
    exact congrArg some (by omega)
  · rename_i wraps
    rw [if_neg (by omega), map_none]

theorem sectorsUpTo_le {sectors : Nat}
    (ends : sectorsUpTo pa epa = some sectors) : sectors ≤ 2 ^ 23 := by
  unfold sectorsUpTo sectorSize at ends
  dsimp only at ends
  split at ends
  · rw [← Option.some.inj ends]
    omega
  · cases ends

/-- The rounds of a segment copy its sectors. -/
theorem readsegLoop_eq (disk : Nat → UInt8) (rounds : Nat) (pa epa : Address) (sector : Nat)
    (mem : ByteMemory) (small : ∀ sectors ∈ sectorsUpTo pa epa, sector + sectors < 2 ^ 28) :
    readsegLoop disk rounds pa epa sector mem = (sectorsUpTo pa epa).bind fun sectors =>
        if sectors < rounds then
          some (mem.copy pa (sectorSize * sectors) fun index => disk (sectorSize * sector + index))
        else none := by
  induction rounds generalizing pa sector mem with
  | zero =>
    cases sectorsUpTo pa epa <;> rfl
  | succ rounds inductionHypothesis =>
    rw [readsegLoop]
    by_cases more : pa.toNat < epa.toNat
    · rw [if_pos more, sectorsUpTo_step more]
      rw [sectorsUpTo_step more] at small
      cases rest : sectorsUpTo (pa + BitVec.ofNat 32 sectorSize) epa with
      | none =>
        rw [inductionHypothesis _ _ _ (by rw [rest]; intro _ impossible; cases impossible), rest]
        rfl
      | some sectors =>
        have number : sector + (sectors + 1) < 2 ^ 28 := small _ (by rw [rest]; rfl)
        have next : (sector + 1) % 2 ^ 32 = sector + 1 := mod_eq_of_lt (by omega)
        have limit : sectors + 1 ≤ 2 ^ 23 :=
          sectorsUpTo_le ((sectorsUpTo_step more).trans (congrArg (Option.map (· + 1)) rest))
        have smallRest : ∀ others ∈ sectorsUpTo (pa + BitVec.ofNat 32 sectorSize) epa,
            sector + 1 + others < 2 ^ 28 := by
          rw [rest]
          intro others same
          rw [← Option.some.inj same]
          omega
        rw [next, inductionHypothesis _ _ _ smallRest, rest, map_some, bind_some,
          bind_some, if_congr succ_lt_succ_iff rfl rfl, readsect,
          ataSector_eq (by omega : sector < 2 ^ 28)]
        have bytes : (fun index => disk (sectorSize * (sector + 1) + index)) =
            fun index => disk (sectorSize * sector + (sectorSize + index)) := by
          funext index
          rw [mul_succ, add_assoc]
        have whole : sectorSize * (sectors + 1) = sectorSize + sectorSize * sectors := by
          rw [mul_succ, add_comm]
        have fits : sectorSize + sectorSize * sectors ≤ 2 ^ 32 := by
          unfold sectorSize
          omega
        rw [bytes, whole, copy_copy fits]
    · rw [if_neg more, sectorsUpTo_of_le (by omega), bind_some, if_pos (succ_pos _),
        mul_zero, copy_zero]

variable {count offset : Nat} {disk : Nat → UInt8} {mem after : ByteMemory}

/-! ### The loader -/

/-- `ELF_BUFFER`. -/
def elfBuffer : Address := 0x10000

/-- `PGSIZE`, the number of bytes read for the headers. -/
def pgSize : Nat := 4096

/-- The address of `start`, where the boot record lies. -/
def mbrAddress : Address := 0x7c00

/-- The loop of `bootmain`. -/
def bootLoop (disk : Nat → UInt8) (limit partOffset : Nat) :
    Nat → Address → Address → ByteMemory → Option ByteMemory
  | 0, _, _, _ => none
  | rounds + 1, ph, eph, mem =>
    if ph.toNat < eph.toNat then do
      let header := programHeader (mem.bytesAt ph)
      let mem ← if header.Loaded then
          readseg disk limit (BitVec.ofNat 32 header.pPaddr) header.pFilesz
            ((partOffset + header.pOffset) % 2 ^ 32) mem
        else some mem
      bootLoop disk limit partOffset rounds (ph + BitVec.ofNat 32 programHeaderSize) eph mem
    else some mem

/-- `part_offset`. -/
def partOffset (mem : ByteMemory) : Nat :=
  firstSectorLba (mem.bytesAt mbrAddress) * sectorSize % 2 ^ 32

/-- `bootmain` up to its jump to the kernel, with a limit to the rounds of each `readseg`. -/
def bootmain (disk : Nat → UInt8) (limit : Nat) (mem : ByteMemory) : Option ByteMemory := do
  let part := partOffset mem
  let mem ← readseg disk limit elfBuffer pgSize part mem
  let elf := mem.bytesAt elfBuffer
  let ph := elfBuffer + BitVec.ofNat 32 (elfPhoff elf)
  let eph := ph + BitVec.ofNat 32 (programHeaderSize * elfPhnum elf)
  bootLoop disk limit part (2 ^ 16) ph eph mem

/-! ### The sectors the partition table names -/

/-- The calls of `readsect` that the loop of `readseg` makes, as places and sector numbers. -/
def readsegLoopCalls : Nat → Address → Address → Nat → List (Address × Nat)
  | 0, _, _, _ => []
  | rounds + 1, pa, epa, sector =>
    if pa.toNat < epa.toNat then
      (pa, sector) :: readsegLoopCalls rounds (pa + BitVec.ofNat 32 sectorSize) epa
        ((sector + 1) % 2 ^ 32)
    else []

/-- The calls of `readsect` that `readseg(pa, count, offset)` makes. -/
def readsegCalls (rounds : Nat) (pa : Address) (count offset : Nat) : List (Address × Nat) :=
  readsegLoopCalls rounds (pa - BitVec.ofNat 32 (offset % sectorSize))
    (pa + BitVec.ofNat 32 count) (offset / sectorSize)

theorem readsegLoop_calls (reads : readsegLoop disk rounds pa epa sector mem = some after) :
    after = (readsegLoopCalls rounds pa epa sector).foldl
      (fun mem call => readsect disk call.1 call.2 mem) mem := by
  induction rounds generalizing pa sector mem with
  | zero => cases reads
  | succ rounds inductionHypothesis =>
    rw [readsegLoop] at reads
    rw [readsegLoopCalls]
    by_cases more : pa.toNat < epa.toNat
    · rw [if_pos more] at reads
      rw [if_pos more, List.foldl_cons]
      exact inductionHypothesis reads
    · rw [if_neg more] at reads
      rw [if_neg more]
      exact (Option.some.inj reads).symm

/-- What `readseg` does to the memory is what these calls do. -/
theorem readseg_calls (reads : readseg disk rounds pa count offset mem = some after) :
    after = (readsegCalls rounds pa count offset).foldl
      (fun mem call => readsect disk call.1 call.2 mem) mem :=
  readsegLoop_calls reads

theorem readsegLoopCalls_sector {round : Nat} {call : Address × Nat} (fits : sector < 2 ^ 32)
    (made : (readsegLoopCalls rounds pa epa sector)[round]? = some call) :
    call.2 = (sector + round) % 2 ^ 32 := by
  induction rounds generalizing pa sector round with
  | zero => cases made
  | succ rounds inductionHypothesis =>
    rw [readsegLoopCalls] at made
    split at made
    · rcases round with _ | round
      · obtain rfl := Option.some.inj made
        exact (mod_eq_of_lt fits).symm
      · rw [List.getElem?_cons_succ] at made
        rw [inductionHypothesis (mod_lt _ (by decide)) made, mod_add_mod, add_assoc, add_comm 1]
    · cases made

/-- The sector that a call of `readsect` names is the one the partition table says, exactly when the
first byte that `readseg` is called for lies in the first 4 GiB of the disk. `start` is where the
read begins in the partition, and `position` a byte of the sector the call reads. -/
theorem sectors_named_iff {mem : ByteMemory} {rounds count start round position : Nat}
    {pa : Address} {call : Address × Nat}
    (made : (readsegCalls rounds pa count ((partOffset mem + start) % 2 ^ 32))[round]? = some call)
    (here : position / sectorSize = start / sectorSize + round)
    (small : firstSectorLba (mem.bytesAt mbrAddress) + position / sectorSize < 2 ^ 28) :
    ataSector call.2 = firstSectorLba (mem.bytesAt mbrAddress) + position / sectorSize ↔
      firstSectorLba (mem.bytesAt mbrAddress) * sectorSize + start < 2 ^ 32 := by
  have first : (partOffset mem + start) % 2 ^ 32 / sectorSize < 2 ^ 23 :=
    Nat.div_lt_of_lt_mul (Nat.mod_lt _ (by decide))
  have number := readsegLoopCalls_sector (lt_trans first (by decide)) made
  rw [here] at small ⊢
  unfold partOffset at first number
  generalize firstSectorLba (mem.bytesAt mbrAddress) = lba at *
  generalize call.2 = sector at number ⊢
  rw [mod_add_mod] at first number
  unfold sectorSize at *
  by_cases fits : lba * 512 + start < 2 ^ 32
  · rw [ataSector_eq (by omega)]
    omega
  · rw [ataSector_eq (by omega)]
    omega

/-- A memory with the boot record that places the kernel at sector 1. -/
def bootedMemory : ByteMemory := fun address => if address = 0x7dd6 then 1 else 0

theorem sectors_named_header :
    ∃ call, (readsegCalls 9 elfBuffer pgSize (partOffset bootedMemory % 2 ^ 32))[3]? =
      some call ∧ ataSector call.2 = 4 := by
  have made : (readsegCalls 9 elfBuffer pgSize
      ((partOffset bootedMemory + 0) % 2 ^ 32))[3]? = some (0x10600, 4) := by decide +kernel
  exact ⟨_, made, (sectors_named_iff made (show 1536 / sectorSize = _ by decide)
    (by decide +kernel)).mpr (by decide +kernel)⟩

/-- The memory at the start of the loader when the second partition begins 4 GiB into the disk. -/
def farMemory : ByteMemory := fun address => if address = 0x7dd8 then 0x80 else 0

/-- The headers of a kernel 4 GiB into the disk are read from the first sector of the disk. -/
theorem far_partition_misread :
    firstSectorLba (farMemory.bytesAt mbrAddress) = 2 ^ 23 ∧
      (readsegCalls 9 elfBuffer pgSize (partOffset farMemory))[0]? = some (elfBuffer, 0) ∧
      ataSector 0 ≠ 2 ^ 23 := by
  decide +kernel

/-! ### The segments of a kernel -/

/-- The kernel on the second partition of a disk. -/
def kernelFile (disk : Nat → UInt8) (mem : ByteMemory) : Nat → UInt8 := fun position =>
  disk (firstSectorLba (mem.bytesAt mbrAddress) * sectorSize + position)

/-- A program header of a kernel. -/
def kernelHeader (file : Nat → UInt8) (i : Nat) : ProgramHeader :=
  programHeader fun index => file (elfPhoff file + programHeaderSize * i + index)

/-- The physical addresses of a segment. -/
def segmentRange (header : ProgramHeader) : Set Address :=
  range (BitVec.ofNat 32 header.pPaddr) header.pFilesz

/-- A kernel that a linker makes: its headers lie in the first page, and its segments do not overlap
and are congruent to their file offsets. -/
structure LinkedKernel (file : Nat → UInt8) : Prop where
  headers : elfPhoff file + programHeaderSize * elfPhnum file ≤ pgSize
  disjoint : ∀ i < elfPhnum file, ∀ j < elfPhnum file, i ≠ j → (kernelHeader file i).Loaded →
    (kernelHeader file j).Loaded →
      Disjoint (segmentRange (kernelHeader file i)) (segmentRange (kernelHeader file j))
  congruent : ∀ i < elfPhnum file, (kernelHeader file i).Loaded →
    sectorSize ∣ (kernelHeader file i).pAlign ∧
      (kernelHeader file i).pOffset % (kernelHeader file i).pAlign =
        (kernelHeader file i).pPaddr % (kernelHeader file i).pAlign

/-- Each segment of a kernel is in its place. -/
def SegmentsIntact (file : Nat → UInt8) (mem : ByteMemory) : Prop :=
  ∀ i < elfPhnum file, (kernelHeader file i).Loaded → ∀ index < (kernelHeader file i).pFilesz,
    mem (BitVec.ofNat 32 (kernelHeader file i).pPaddr + BitVec.ofNat 32 index) =
      file ((kernelHeader file i).pOffset + index)

theorem LinkedKernel.placed {file : Nat → UInt8} {i : Nat} (linked : LinkedKernel file)
    (valid : i < elfPhnum file) (loaded : (kernelHeader file i).Loaded) :
    (kernelHeader file i).pOffset % sectorSize = (kernelHeader file i).pPaddr % sectorSize := by
  obtain ⟨divides, same⟩ := linked.congruent i valid loaded
  rw [← mod_mod_of_dvd _ divides, same, mod_mod_of_dvd _ divides]

/-! ### Loads -/

/-- The address at which the load of a segment starts, a sector boundary. -/
def loadStart (header : ProgramHeader) : Nat := header.pPaddr - header.pOffset % sectorSize

/-- The number of sectors that are read for a segment. -/
def loadSectors (header : ProgramHeader) : Nat :=
  (header.pOffset % sectorSize + header.pFilesz + (sectorSize - 1)) / sectorSize

/-- The load of a segment writes to an address. -/
def LoadCovers (header : ProgramHeader) (address : Nat) : Prop :=
  loadStart header ≤ address ∧ address < loadStart header + sectorSize * loadSectors header

instance (header : ProgramHeader) (address : Nat) : Decidable (LoadCovers header address) :=
  inferInstanceAs (Decidable (_ ∧ _))

/-- The position in the file of the byte that the load of a segment brings to an address. -/
def loadPosition (header : ProgramHeader) (address : Nat) : Nat :=
  header.pOffset + address - header.pPaddr

/-- The last sector of a segment ends below the top of the address space, so that the rounds of
`readseg` end. -/
def BelowTop (header : ProgramHeader) : Prop :=
  header.pPaddr + header.pFilesz ≤ 2 ^ 32 - sectorSize

/-- The rounds that `readseg` has are enough for a segment. -/
def Ends (limit : Nat) (header : ProgramHeader) : Prop :=
  BelowTop header ∧ loadSectors header < limit

instance (header : ProgramHeader) : Decidable (BelowTop header) :=
  inferInstanceAs (Decidable (_ ≤ _))

/-- The memory after a segment has been loaded. -/
def load (file : Nat → UInt8) (header : ProgramHeader) (mem : ByteMemory) : ByteMemory :=
  mem.copy (BitVec.ofNat 32 (loadStart header)) (sectorSize * loadSectors header) fun index =>
    file (sectorSize * (header.pOffset / sectorSize) + index)

/-- The memory after the turn of a program header. -/
def loadSegment (file : Nat → UInt8) (mem : ByteMemory) (i : Nat) : ByteMemory :=
  if (kernelHeader file i).Loaded then load file (kernelHeader file i) mem else mem

theorem load_apply {file : Nat → UInt8} {header : ProgramHeader} {address : Nat}
    (placed : header.pOffset % sectorSize = header.pPaddr % sectorSize) (below : BelowTop header)
    (inside : address < 2 ^ 32) :
    load file header mem (BitVec.ofNat 32 address) =
      if LoadCovers header address then file (loadPosition header address)
      else mem (BitVec.ofNat 32 address) := by
  have distance : (BitVec.ofNat 32 address - BitVec.ofNat 32 (loadStart header)).toNat =
      if loadStart header ≤ address then address - loadStart header
      else 2 ^ 32 + address - loadStart header := by
    rw [BitVec.toNat_sub, BitVec.toNat_ofNat, BitVec.toNat_ofNat]
    unfold BelowTop at below
    unfold loadStart
    split <;> omega
  unfold BelowTop loadStart at *
  by_cases covered : LoadCovers header address
  · have place := covered
    unfold LoadCovers loadStart at place
    rw [if_pos place.1] at distance
    rw [if_pos covered, load, copy, loadStart, distance, if_pos (by omega)]
    refine congrArg file ?_
    unfold loadPosition sectorSize at *
    omega
  · rw [if_neg covered, load, copy, loadStart, distance]
    refine if_neg fun short => covered ?_
    unfold LoadCovers loadStart
    unfold loadSectors sectorSize at *
    split at short <;> omega

/-- `readseg` loads a segment that is congruent to its file offset, if the sectors stay below the
top of the address space. -/
theorem readseg_iff {header : ProgramHeader} {limit : Nat}
    (partition : firstSectorLba (mem.bytesAt mbrAddress) * sectorSize < 2 ^ 32)
    (reached : firstSectorLba (mem.bytesAt mbrAddress) * sectorSize + header.pOffset < 2 ^ 32)
    (placed : header.pOffset % sectorSize = header.pPaddr % sectorSize)
    (fits : header.pPaddr + header.pFilesz < 2 ^ 32) (held : ByteMemory) :
    readseg disk limit (BitVec.ofNat 32 header.pPaddr) header.pFilesz
        ((partOffset mem + header.pOffset) % 2 ^ 32) held = some after ↔
      Ends limit header ∧ load (kernelFile disk mem) header held = after := by
  unfold load kernelFile partOffset
  rw [mod_eq_of_lt partition, mod_eq_of_lt reached]
  generalize firstSectorLba (mem.bytesAt mbrAddress) = lba at *
  have offset : (lba * sectorSize + header.pOffset) % sectorSize = header.pOffset % sectorSize := by
    unfold sectorSize
    omega
  have start : BitVec.ofNat 32 header.pPaddr - BitVec.ofNat 32 (header.pOffset % sectorSize) =
      BitVec.ofNat 32 (loadStart header) := by
    apply BitVec.eq_of_toNat_eq
    rw [BitVec.toNat_sub, BitVec.toNat_ofNat, BitVec.toNat_ofNat, BitVec.toNat_ofNat]
    unfold loadStart sectorSize at *
    omega
  have sectors : sectorsUpTo (BitVec.ofNat 32 (loadStart header))
      (BitVec.ofNat 32 header.pPaddr + BitVec.ofNat 32 header.pFilesz) =
        if BelowTop header then some (loadSectors header) else none := by
    unfold sectorsUpTo BelowTop
    rw [BitVec.toNat_add, BitVec.toNat_ofNat, BitVec.toNat_ofNat, BitVec.toNat_ofNat]
    unfold loadStart loadSectors sectorSize at *
    refine if_congr (by omega) (congrArg some (by omega)) rfl
  have small : ∀ count ∈ sectorsUpTo (BitVec.ofNat 32 (loadStart header))
      (BitVec.ofNat 32 header.pPaddr + BitVec.ofNat 32 header.pFilesz),
      (lba * sectorSize + header.pOffset) / sectorSize + count < 2 ^ 28 := by
    intro count ends
    have limit := sectorsUpTo_le ends
    unfold sectorSize at *
    omega
  rw [readseg, offset, start, readsegLoop_eq disk limit _ _ _ held small, sectors]
  have bytes : (fun index => disk (sectorSize * ((lba * sectorSize + header.pOffset) / sectorSize) +
      index)) = fun index => disk (lba * sectorSize +
        (sectorSize * (header.pOffset / sectorSize) + index)) := by
    funext index
    congr 1
    unfold sectorSize
    omega
  rw [bytes]
  unfold Ends
  by_cases below : BelowTop header
  · rw [if_pos below, bind_some, and_iff_right below]
    by_cases short : loadSectors header < limit
    · rw [if_pos short, and_iff_right short, Option.some.injEq]
    · rw [if_neg short]
      exact iff_of_false nofun fun both => short both.1
  · rw [if_neg below]
    exact iff_of_false nofun fun both => below both.1.1

/-! ### The loader on a kernel -/

theorem bootLoop_more {limit part : Nat} {ph eph : Address} (more : ph.toNat < eph.toNat) :
    bootLoop disk limit part (rounds + 1) ph eph mem =
      (if (programHeader (mem.bytesAt ph)).Loaded then
        readseg disk limit (BitVec.ofNat 32 (programHeader (mem.bytesAt ph)).pPaddr)
          (programHeader (mem.bytesAt ph)).pFilesz
          ((part + (programHeader (mem.bytesAt ph)).pOffset) % 2 ^ 32) mem
      else some mem).bind
        (bootLoop disk limit part rounds (ph + BitVec.ofNat 32 programHeaderSize) eph) := by
  rw [bootLoop, if_pos more]
  dsimp only
  split <;> rfl

/-- The place of a program header in the buffer. -/
def bufferAddress (file : Nat → UInt8) (i : Nat) : Nat :=
  elfBuffer.toNat + (elfPhoff file + programHeaderSize * i)

/-- A kernel in the reach of 32-bit disk positions and addresses, where no load changes a program
header in the buffer that has not had its turn. -/
structure ClearKernel (disk : Nat → UInt8) (mem : ByteMemory) (file : Nat → UInt8) : Prop where
  isFile : file = kernelFile disk mem
  linked : LinkedKernel file
  partition : firstSectorLba (mem.bytesAt mbrAddress) * sectorSize < 2 ^ 32
  reached : ∀ i < elfPhnum file, (kernelHeader file i).Loaded →
    firstSectorLba (mem.bytesAt mbrAddress) * sectorSize + (kernelHeader file i).pOffset < 2 ^ 32
  fits : ∀ i < elfPhnum file, (kernelHeader file i).Loaded →
    (kernelHeader file i).pPaddr + (kernelHeader file i).pFilesz < 2 ^ 32
  kept : ∀ i < elfPhnum file, (kernelHeader file i).Loaded → ∀ j < elfPhnum file, i < j →
    ∀ index < programHeaderSize, LoadCovers (kernelHeader file i) (bufferAddress file j + index) →
      file (loadPosition (kernelHeader file i) (bufferAddress file j + index)) =
        file (elfPhoff file + programHeaderSize * j + index)

namespace ClearKernel

variable {file : Nat → UInt8} {held final : ByteMemory} {limit i : Nat}

theorem bufferAddress_le (clear : ClearKernel disk mem file) (valid : i ≤ elfPhnum file) :
    bufferAddress file i ≤ 65536 + 4096 := by
  have headers := clear.linked.headers
  unfold bufferAddress pgSize programHeaderSize at *
  rw [show elfBuffer.toNat = 65536 from rfl]
  omega

theorem loadSegment_apply (clear : ClearKernel disk mem file) (valid : i < elfPhnum file)
    (below : (kernelHeader file i).Loaded → BelowTop (kernelHeader file i)) {address : Nat}
    (inside : address < 2 ^ 32) :
    loadSegment file held i (BitVec.ofNat 32 address) =
      if (kernelHeader file i).Loaded ∧ LoadCovers (kernelHeader file i) address then
        file (loadPosition (kernelHeader file i) address)
      else held (BitVec.ofNat 32 address) := by
  unfold loadSegment
  by_cases loaded : (kernelHeader file i).Loaded
  · rw [if_pos loaded, load_apply (clear.linked.placed valid loaded) (below loaded) inside]
    exact if_congr (and_iff_right loaded).symm rfl rfl
  · rw [if_neg loaded, if_neg fun both => loaded both.1]

/-- The turn of a program header. -/
theorem turn_iff (clear : ClearKernel disk mem file) (valid : i < elfPhnum file) :
    (if (kernelHeader file i).Loaded then
        readseg disk limit (BitVec.ofNat 32 (kernelHeader file i).pPaddr)
          (kernelHeader file i).pFilesz
          ((partOffset mem + (kernelHeader file i).pOffset) % 2 ^ 32) held
      else some held) = some after ↔
      ((kernelHeader file i).Loaded → Ends limit (kernelHeader file i)) ∧
        loadSegment file held i = after := by
  unfold loadSegment
  by_cases loaded : (kernelHeader file i).Loaded
  · rw [if_pos loaded, if_pos loaded, forall_prop_of_true loaded,
      readseg_iff clear.partition (clear.reached i valid loaded)
        (clear.linked.placed valid loaded) (clear.fits i valid loaded), ← clear.isFile]
  · rw [if_neg loaded, if_neg loaded, Option.some.injEq]
    exact (and_iff_right fun other => absurd other loaded).symm

/-- The program headers from the given one on are in the buffer. -/
def HasTable (file : Nat → UInt8) (first : Nat) (held : ByteMemory) : Prop :=
  ∀ j < elfPhnum file, first ≤ j → ∀ index < programHeaderSize,
    held (BitVec.ofNat 32 (bufferAddress file j + index)) =
      file (elfPhoff file + programHeaderSize * j + index)

theorem hasTable_next (clear : ClearKernel disk mem file) (valid : i < elfPhnum file)
    (below : (kernelHeader file i).Loaded → BelowTop (kernelHeader file i))
    (table : HasTable file i held) : HasTable file (i + 1) (loadSegment file held i) := by
  intro j other behind index bound
  have place := clear.bufferAddress_le (le_of_lt other)
  have inside : bufferAddress file j + index < 2 ^ 32 := by
    unfold programHeaderSize at bound
    omega
  rw [clear.loadSegment_apply valid below inside]
  split
  · rename_i covers
    exact clear.kept i valid covers.1 j other behind index bound covers.2
  · exact table j other (by omega) index bound

/-- The loop loads the segments of the headers that have not had their turn. -/
theorem bootLoop_iff (clear : ClearKernel disk mem file) {first count rounds : Nat} {eph : Address}
    (ending : eph.toNat = bufferAddress file (elfPhnum file))
    (remaining : first + count = elfPhnum file) (enough : count < rounds)
    (table : HasTable file first held) :
    bootLoop disk limit (partOffset mem) rounds (BitVec.ofNat 32 (bufferAddress file first)) eph
        held = some final ↔
      (∀ i < elfPhnum file, first ≤ i → (kernelHeader file i).Loaded →
        Ends limit (kernelHeader file i)) ∧
      (List.range' first count).foldl (loadSegment file) held = final := by
  induction count generalizing first held rounds with
  | zero =>
    obtain rfl : first = elfPhnum file := by omega
    obtain ⟨rounds, rfl⟩ : ∃ fewer, rounds = fewer + 1 := ⟨rounds - 1, by omega⟩
    have place := BitVec.toNat_ofNat (bufferAddress file (elfPhnum file)) 32
    rw [bootLoop, if_neg (by omega), Option.some.injEq]
    exact (and_iff_right fun i valid late => absurd valid (by omega)).symm
  | succ count inductionHypothesis =>
    obtain ⟨rounds, rfl⟩ : ∃ fewer, rounds = fewer + 1 := ⟨rounds - 1, by omega⟩
    have valid : first < elfPhnum file := by omega
    have header : programHeader (held.bytesAt (BitVec.ofNat 32 (bufferAddress file first))) =
        kernelHeader file first := programHeader_congr fun index bound => by
      rw [bytesAt, BitVec.ofNat_add_ofNat, table first valid (Nat.le_refl _) index bound]
    have next : BitVec.ofNat 32 (bufferAddress file first) + BitVec.ofNat 32 programHeaderSize =
        BitVec.ofNat 32 (bufferAddress file (first + 1)) := by
      rw [BitVec.ofNat_add_ofNat]
      unfold bufferAddress
      rw [mul_succ, add_assoc, add_assoc]
    have more : (BitVec.ofNat 32 (bufferAddress file first)).toNat < eph.toNat := by
      rw [ending, BitVec.toNat_ofNat]
      refine lt_of_le_of_lt (mod_le _ _) ?_
      unfold bufferAddress programHeaderSize
      omega
    have rest := fun below => inductionHypothesis (show first + 1 + count = _ by omega)
      (show count < rounds by omega) (clear.hasTable_next valid below table)
    rw [bootLoop_more more, header, next, bind_eq_some_iff]
    constructor
    · rintro ⟨after, turned, looped⟩
      obtain ⟨ends, rfl⟩ := (clear.turn_iff valid).mp turned
      obtain ⟨others, total⟩ := (rest fun loaded => (ends loaded).1).mp looped
      refine ⟨fun i inside late loaded => ?_, total⟩
      rcases eq_or_lt_of_le late with rfl | behind
      · exact ends loaded
      · exact others i inside behind loaded
    · rintro ⟨all, rfl⟩
      have ends := all first valid (le_refl first)
      refine ⟨_, (clear.turn_iff valid).mpr ⟨ends, rfl⟩, ?_⟩
      exact (rest fun loaded => (ends loaded).1).mpr
        ⟨fun i inside late => all i inside (by omega), rfl⟩

theorem readseg_page (clear : ClearKernel disk mem file) :
    readseg disk limit elfBuffer pgSize (partOffset mem) mem =
      if 8 < limit then some (mem.copy elfBuffer pgSize file) else none := by
  have sectors : sectorsUpTo elfBuffer (elfBuffer + BitVec.ofNat 32 pgSize) = some 8 := by decide
  have start : elfBuffer - BitVec.ofNat 32 (partOffset mem % sectorSize) = elfBuffer := by
    have aligned : partOffset mem % sectorSize = 0 := by
      unfold partOffset sectorSize
      omega
    rw [aligned]
    exact BitVec.sub_zero _
  have small : ∀ count ∈ sectorsUpTo elfBuffer (elfBuffer + BitVec.ofNat 32 pgSize),
      partOffset mem / sectorSize + count < 2 ^ 28 := by
    rw [sectors]
    rintro count ⟨⟩
    unfold partOffset sectorSize
    omega
  have bytes : (fun index => disk (sectorSize * (partOffset mem / sectorSize) + index)) = file := by
    rw [clear.isFile, partOffset, mod_eq_of_lt clear.partition, Nat.mul_div_cancel _ (by decide),
      mul_comm]
    rfl
  rw [readseg, start, readsegLoop_eq disk limit _ _ _ mem small, sectors, bind_some, bytes]
  rfl

/-- `bootmain` reads the first page and loads the segments in the order of their headers. -/
theorem bootmain_iff (clear : ClearKernel disk mem file) :
    bootmain disk limit mem = some final ↔
      8 < limit ∧ (∀ i < elfPhnum file, (kernelHeader file i).Loaded →
        Ends limit (kernelHeader file i)) ∧
      (List.range (elfPhnum file)).foldl (loadSegment file) (mem.copy elfBuffer pgSize file) =
        final := by
  unfold bootmain
  dsimp only
  rw [clear.readseg_page, bind_eq_bind]
  by_cases short : 8 < limit
  · have page : ∀ index < pgSize,
        (mem.copy elfBuffer pgSize file).bytesAt elfBuffer index = file index :=
      fun index bound => copy_inside bound (bound.trans (by decide))
    obtain ⟨offset, -, number⟩ := elfHeader_congr fun index bound =>
      page index (lt_of_lt_of_le bound (by decide))
    have ph : elfBuffer + BitVec.ofNat 32 (elfPhoff file) =
        BitVec.ofNat 32 (bufferAddress file 0) := by
      rw [bufferAddress, Nat.mul_zero, Nat.add_zero, ← BitVec.ofNat_add_ofNat]
      rfl
    have eph : (BitVec.ofNat 32 (bufferAddress file 0) +
        BitVec.ofNat 32 (programHeaderSize * elfPhnum file)).toNat =
          bufferAddress file (elfPhnum file) := by
      have last := clear.bufferAddress_le (le_refl (elfPhnum file))
      rw [BitVec.ofNat_add_ofNat, BitVec.toNat_ofNat]
      unfold bufferAddress at *
      omega
    have table : HasTable file 0 (mem.copy elfBuffer pgSize file) := by
      intro j valid _ index bound
      have headers := clear.linked.headers
      have inside : elfPhoff file + programHeaderSize * j + index < pgSize := by
        unfold programHeaderSize at *
        omega
      rw [bufferAddress, Nat.add_assoc, ← BitVec.ofNat_add_ofNat]
      exact page _ inside
    rw [if_pos short, bind_some, offset, number, ph, and_iff_right short,
      clear.bootLoop_iff eph (Nat.zero_add _) (elfPhnum_lt file) table, List.range_eq_range']
    exact and_congr_left fun _ => forall₂_congr fun _ _ => forall_prop_of_true (zero_le _)
  · rw [if_neg short, bind_none]
    exact iff_of_false nofun fun all => short all.1

/-- What the last load over an address has brought there. -/
theorem loaded_last (clear : ClearKernel disk mem file)
    (below : ∀ i < elfPhnum file, (kernelHeader file i).Loaded → BelowTop (kernelHeader file i))
    {count address : Nat} (some : count ≤ elfPhnum file) (inside : address < 2 ^ 32)
    (here : i < count) (loaded : (kernelHeader file i).Loaded)
    (covers : LoadCovers (kernelHeader file i) address)
    (last : ∀ j < count, i < j → (kernelHeader file j).Loaded →
      ¬ LoadCovers (kernelHeader file j) address) :
    (List.range count).foldl (loadSegment file) held (BitVec.ofNat 32 address) =
      file (loadPosition (kernelHeader file i) address) := by
  induction count with
  | zero => exact absurd here (not_lt_zero i)
  | succ count inductionHypothesis =>
    rw [List.range_succ, List.foldl_append, List.foldl_cons, List.foldl_nil,
      clear.loadSegment_apply (by omega) (below count (by omega)) inside]
    rcases Nat.lt_succ_iff_lt_or_eq.mp here with earlier | rfl
    · rw [if_neg fun both => last count (by omega) earlier both.1 both.2]
      exact inductionHypothesis (by omega) earlier fun j bound => last j (by omega)
    · exact if_pos ⟨loaded, covers⟩

end ClearKernel

/-- By the headers: of the later loads over a byte of a segment the last one brings that byte. -/
def LaterLoadsAgree (file : Nat → UInt8) : Prop :=
  ∀ i < elfPhnum file, (kernelHeader file i).Loaded → ∀ index < (kernelHeader file i).pFilesz,
    ∀ j < elfPhnum file, i < j → (kernelHeader file j).Loaded →
      LoadCovers (kernelHeader file j) ((kernelHeader file i).pPaddr + index) →
      (∀ k < elfPhnum file, j < k → (kernelHeader file k).Loaded →
        ¬ LoadCovers (kernelHeader file k) ((kernelHeader file i).pPaddr + index)) →
      file (loadPosition (kernelHeader file j) ((kernelHeader file i).pPaddr + index)) =
        file ((kernelHeader file i).pOffset + index)

theorem exists_last {p : Nat → Prop} {bound first : Nat} (small : first < bound) (holds : p first) :
    ∃ last < bound, p last ∧ ∀ other < bound, last < other → ¬ p other := by
  induction bound with
  | zero => exact absurd small (not_lt_zero first)
  | succ bound inductionHypothesis =>
    by_cases here : p bound
    · exact ⟨bound, lt_succ_self bound, here, fun other below above => absurd above (by omega)⟩
    · have different : first ≠ bound := fun same => here (same ▸ holds)
      obtain ⟨last, below, found, none⟩ := inductionHypothesis (by omega)
      refine ⟨last, by omega, found, fun other otherBelow above => ?_⟩
      rcases Nat.lt_succ_iff_lt_or_eq.mp otherBelow with less | rfl
      · exact none other less above
      · exact here

/-- The loader ends with every segment intact exactly if the sectors of every segment stay below the
top of the address space and the later loads bring the same bytes where they reach over a segment.
The kernel has to be in reach of the loader, and its headers must not be overwritten before their
turn. -/
theorem segments_intact_iff (disk : Nat → UInt8) (mem : ByteMemory)
    (clear : ClearKernel disk mem (kernelFile disk mem)) :
    (∃ limit final, bootmain disk limit mem = some final ∧
        SegmentsIntact (kernelFile disk mem) final) ↔
      (∀ i < elfPhnum (kernelFile disk mem), (kernelHeader (kernelFile disk mem) i).Loaded →
        BelowTop (kernelHeader (kernelFile disk mem) i)) ∧
      LaterLoadsAgree (kernelFile disk mem) := by
  generalize kernelFile disk mem = file at *
  constructor
  · rintro ⟨limit, final, booted, intact⟩
    obtain ⟨-, ends, rfl⟩ := clear.bootmain_iff.mp booted
    have below := fun i valid loaded => (ends i valid loaded).1
    refine ⟨below, fun i valid loaded index bound j later _ otherLoaded covers last => ?_⟩
    have fits := clear.fits i valid loaded
    have byte := intact i valid loaded index bound
    rw [BitVec.ofNat_add_ofNat, clear.loaded_last below (Nat.le_refl _) (by omega) later
      otherLoaded covers last] at byte
    exact byte
  · rintro ⟨below, agree⟩
    refine ⟨2 ^ 24, _, clear.bootmain_iff.mpr ⟨by decide, fun i valid loaded => ?_, rfl⟩,
      fun i valid loaded index bound => ?_⟩
    · have top := below i valid loaded
      refine ⟨top, ?_⟩
      unfold BelowTop at top
      unfold loadSectors sectorSize at *
      omega
    · have placed := clear.linked.placed valid loaded
      have fits := clear.fits i valid loaded
      have covers : LoadCovers (kernelHeader file i) ((kernelHeader file i).pPaddr + index) := by
        unfold LoadCovers loadStart loadSectors sectorSize at *
        omega
      obtain ⟨j, otherValid, ⟨otherLoaded, otherCovers⟩, last⟩ := exists_last
        (p := fun j => (kernelHeader file j).Loaded ∧
          LoadCovers (kernelHeader file j) ((kernelHeader file i).pPaddr + index)) valid
        ⟨loaded, covers⟩
      have alone : ∀ k < elfPhnum file, j < k → (kernelHeader file k).Loaded →
          ¬ LoadCovers (kernelHeader file k) ((kernelHeader file i).pPaddr + index) :=
        fun k valid late also covered => last k valid late ⟨also, covered⟩
      rw [BitVec.ofNat_add_ofNat, clear.loaded_last below (Nat.le_refl _) (by omega) otherValid
        otherLoaded otherCovers alone]
      rcases lt_trichotomy i j with later | rfl | earlier
      · exact agree i valid loaded index bound j otherValid later otherLoaded otherCovers alone
      · refine congrArg file ?_
        unfold loadPosition
        omega
      · exact absurd ⟨loaded, covers⟩ (last i valid earlier)

/-- A disk with a kernel in sector 1 that has two segments in one sector of memory, the first at
0x1000 of the file and the second at 256 times the given number. -/
def twoSegmentDisk (place : UInt8) : Nat → UInt8
  | 540 => 52
  | 554 => 32
  | 556 => 2
  | 564 => 1
  | 569 => 0x10
  | 578 => 0x10
  | 581 => 1
  | 593 => 2
  | 596 => 1
  | 601 => place
  | 609 => 1
  | 610 => 0x10
  | 612 => 0x10
  | 625 => 2
  | 4608 => 0xaa
  | _ => 0

/-- The kernel on this disk. -/
abbrev twoSegmentKernel (place : UInt8) : Nat → UInt8 :=
  kernelFile (twoSegmentDisk place) bootedMemory

theorem twoSegments_headers : ∀ place ∈ [0x11, 0x13], elfPhnum (twoSegmentKernel place) = 2 ∧
      bufferAddress (twoSegmentKernel place) 1 = 0x10054 ∧
      kernelHeader (twoSegmentKernel place) 0 = ⟨1, 0x1000, 0, 0x100000, 0x100, 0x200⟩ ∧
      kernelHeader (twoSegmentKernel place) 1 =
        ⟨1, 256 * place.toNat, 0, 0x100100, 0x10, 0x200⟩ := by
  decide +kernel

theorem twoSegments_clear {place : UInt8} (known : place ∈ [0x11, 0x13]) :
    ClearKernel (twoSegmentDisk place) bootedMemory (twoSegmentKernel place) := by
  obtain ⟨number, buffer, first, second⟩ := twoSegments_headers place known
  have apart : Disjoint (range (BitVec.ofNat 32 0x100000) 0x100)
      (range (BitVec.ofNat 32 0x100100) 0x10) := range_disjoint (by decide) (by decide)
  rcases List.mem_pair.mp known with rfl | rfl
  all_goals
    refine ⟨rfl, ⟨by decide +kernel, ?_, by decide +kernel⟩, by decide +kernel, by decide +kernel,
      by decide +kernel, ?_⟩
    · rw [number]
      intro i inside j also different _ _
      obtain ⟨rfl, rfl⟩ | ⟨rfl, rfl⟩ : i = 0 ∧ j = 1 ∨ i = 1 ∧ j = 0 := by omega
      · rw [first, second]
        exact apart
      · rw [first, second]
        exact apart.symm
    · rw [number]
      rintro i inside _ j also later index bound ⟨low, -⟩
      obtain ⟨rfl, rfl⟩ : i = 0 ∧ j = 1 := by omega
      unfold programHeaderSize at bound
      rw [first, buffer] at low
      exact absurd (show 0x100000 ≤ 0x10054 + index from low) (by omega)

/-- The second segment follows the first in the file as well: reading its sector brings the first
segment once more. -/
theorem segments_intact_adjacent :
    ∃ limit final, bootmain (twoSegmentDisk 0x11) limit bootedMemory = some final ∧
      SegmentsIntact (twoSegmentKernel 0x11) final := by
  obtain ⟨number, -, first, second⟩ := twoSegments_headers 0x11 (by decide)
  refine (segments_intact_iff _ _ (twoSegments_clear (by decide))).mpr ⟨by decide +kernel, ?_⟩
  unfold LaterLoadsAgree
  rw [number]
  intro i valid _ index bound j later after _ _ _
  obtain ⟨rfl, rfl⟩ : i = 0 ∧ j = 1 := by omega
  rw [first, second]
  refine congrArg _ ?_
  show 0x1100 + (0x100000 + index) - 0x100100 = 0x1000 + index
  omega

/-- A disk on which the second segment does not follow the first. -/
def sharedSectorDisk : Nat → UInt8 := twoSegmentDisk 0x13

/-- The second segment starts in the middle of a sector, and reading this sector from its start
destroys the first segment. -/
theorem shared_sector_destroyed :
    LinkedKernel (kernelFile sharedSectorDisk bootedMemory) ∧
      ¬ ∃ limit final, bootmain sharedSectorDisk limit bootedMemory = some final ∧
        SegmentsIntact (kernelFile sharedSectorDisk bootedMemory) final := by
  have clear := twoSegments_clear (show 0x13 ∈ [0x11, 0x13] by decide)
  obtain ⟨number, -, first, second⟩ := twoSegments_headers 0x13 (by decide)
  refine ⟨clear.linked, ?_⟩
  rintro ⟨limit, final, booted, intact⟩
  obtain ⟨-, ends, rfl⟩ := clear.bootmain_iff.mp booted
  have byte := intact 0 (by rw [sharedSectorDisk, number]; decide)
  rw [sharedSectorDisk, first] at byte
  have left := fun held => @ClearKernel.loaded_last _ _ _ held 1 clear
    (fun i valid loaded => (ends i valid loaded).1) _ 0x100000 (le_refl _) (by decide)
    (by rw [number]; decide) (by rw [second]; rfl) (by rw [second]; decide)
    fun j valid late => by rw [number] at valid; omega
  have clash := (left _).symm.trans (byte rfl 0 (by decide))
  rw [second] at clash
  revert clash
  decide +kernel

end I386Boot

end AIMv6
