/-
This file models `mips_add_memory_pages` of the Loongson 3A port, which reads
the eight windows of the address switch and gives the RAM behind them to the page
allocator. The size of a window is rebuilt from the zero bits of its mask as
`1 << count_zero_bits(mask)`, a shift of an `int`.

C says what that shift is as long as the result is an `int`, that is for counts
below 31; what the compiled code does for the others is left open here, with the
MIPS instruction as one possibility. No `int` is the size of such a window, so
each of them adds too little, and eight of them cannot add so much too little
that the sum comes round again: the total is right exactly when every window
above the low 512 megabytes is of at most one gigabyte. In a 32-bit build the
mask is also cut to 32 bits before its zero bits are counted.
-/

import AIMv6.HammingWeight
import AIMv6.PageTable
import AIMv6.PageAllocator

namespace AIMv6

open List BitVec

namespace Loongson

/-! ### The code -/

/-- `LOONGSON3A_CORE_WINS`. -/
def coreWins : Nat := 8

/-- `LOONGSON3A_CPU_WIN_BASE`. -/
def cpuWinBase : Nat := 0x3ff00000

/-- `LOONGSON3A_CPU_WINx_BASEADDR`. -/
def cpuWinBaseaddr (window : Nat) : Nat := cpuWinBase + window * 8

/-- `LOONGSON3A_CPU_WINx_MASKADDR`. -/
def cpuWinMaskaddr (window : Nat) : Nat := cpuWinBaseaddr window + 0x40

/-- What the compiled code makes of `1 << count` on `int`: the power of two where C defines the
shift, and any `int` elsewhere. -/
structure IntShift where
  one : Nat → BitVec 32
  defined : ∀ count < 31, one count = BitVec.ofNat 32 (2 ^ count)

/-- The instruction `sllv`, which shifts by the low five bits of the count. -/
def sllv : IntShift where
  one count := 1 <<< (count % 32)
  defined := by decide

/-- A window of the address switch. -/
structure Window where
  base : BitVec 64
  mask : BitVec 64
  deriving DecidableEq, Repr

/-- The registers of a window; the third one is only printed. -/
def readWindow (read64 : Nat → BitVec 64) (window : Nat) : Window :=
  ⟨read64 (cpuWinBaseaddr window), read64 (cpuWinMaskaddr window)⟩

/-- What has been found of the RAM. -/
structure Ram where
  rambase : BitVec 64
  ramsize : BitVec 64
  deriving DecidableEq, Repr

/-- `min2`. -/
def min2 (first second : BitVec 64) : BitVec 64 := if first < second then first else second

/-- The body of the loop. -/
def detectStep (abi : Abi) (shift : IntShift) (ram : Ram) (window : Window) : Ram :=
  if window.base &&& 0xfffffffff0000000 = 0x10000000 then ram
  else if window.base &&& 0xfffffffff0000000 = 0x00000000 then ram
  else ⟨min2 ram.rambase window.base,
    ram.ramsize + (shift.one (countZeroBits abi window.mask)).signExtend 64⟩

/-- The windows the loop reads. -/
def windows (read64 : Nat → BitVec 64) : List Window :=
  (List.range coreWins).map (readWindow read64)

/-- The loop, from `rambase = (uint64_t)-1` and `ramsize = 0`. -/
def detect (abi : Abi) (shift : IntShift) (read64 : Nat → BitVec 64) : Ram :=
  (windows read64).foldl (detectStep abi shift) ⟨-1, 0⟩

/-- `reserved_space`: the physical memory up to the end of the kernel's last page. -/
def reservedSpace (abi : Abi) (kernEnd : Nat) : BitVec 64 :=
  BitVec.ofNat 64 (kva2pa abi (alignAbove abi.bits kernEnd pageSize))

/-- `mips_add_memory_pages`, where `node` is the answer of `kmalloc` in `free_pages`. -/
def mipsAddMemoryPages (abi : Abi) (shift : IntShift) (read64 : Nat → BitVec 64) (kernEnd : Nat)
    (node : Option Nat) (allocator : PageAllocator) : Option PageAllocator :=
  let ram := detect abi shift read64
  let pages : Pages :=
    { paddr := (ram.rambase + reservedSpace abi kernEnd).toNat
      size := (ram.ramsize - reservedSpace abi kernEnd).toNat
      flags := 0 }
  (allocator.free pages node).map Prod.fst

/-! ### High RAM -/

/-- The window's base is in neither of the two ranges of 256 megabytes that are skipped. -/
def Window.IsHighRam (window : Window) : Prop :=
  ¬ window.base.toNat < 0x10000000 ∧
    ¬ (0x10000000 ≤ window.base.toNat ∧ window.base.toNat < 0x20000000)

instance (window : Window) : Decidable window.IsHighRam := inferInstanceAs (Decidable (_ ∧ _))

/-- The number of zero bits of the window's mask. -/
def Window.zeroBits (window : Window) : Nat := 64 - setBits window.mask

/-- The size of the window. -/
def Window.size (window : Window) : Nat := 2 ^ window.zeroBits

/-- What the loop adds for the window. -/
def Window.added (abi : Abi) (shift : IntShift) (window : Window) : Int :=
  (shift.one (countZeroBits abi window.mask)).toInt

/-- The windows of high RAM. -/
def highRam (windows : List Window) : List Window := windows.filter (·.IsHighRam)

theorem toNat_and_high (base : BitVec 64) :
    (base &&& 0xfffffffff0000000).toNat = base.toNat / 2 ^ 28 * 2 ^ 28 :=
  (toNat_and _ _).trans (alignBelow_two_pow 64 base.toNat 28 base.isLt (by decide))

theorem and_high_eq_iff (base : BitVec 64) (bound : Nat) (fits : bound < 2 ^ 36) :
    base &&& 0xfffffffff0000000 = BitVec.ofNat 64 (bound * 2 ^ 28) ↔
      bound * 2 ^ 28 ≤ base.toNat ∧ base.toNat < (bound + 1) * 2 ^ 28 := by
  rw [← toNat_inj, toNat_and_high, toNat_ofNat, Nat.mod_eq_of_lt (by omega)]
  omega

/-- What the loop does with a window of high RAM. -/
def addWindow (abi : Abi) (shift : IntShift) (ram : Ram) (window : Window) : Ram :=
  ⟨min2 ram.rambase window.base, ram.ramsize + BitVec.ofInt 64 (window.added abi shift)⟩

variable (abi : Abi) (shift : IntShift)

/-- The two masks of the loop skip what is not high RAM. -/
theorem detectStep_eq (ram : Ram) (window : Window) :
    detectStep abi shift ram window =
      if window.IsHighRam then addWindow abi shift ram window else ram := by
  have device : window.base &&& 0xfffffffff0000000 = 0x10000000 ↔
      0x10000000 ≤ window.base.toNat ∧ window.base.toNat < 0x20000000 :=
    and_high_eq_iff window.base 1 (by decide)
  have low : window.base &&& 0xfffffffff0000000 = 0x00000000 ↔ window.base.toNat < 0x10000000 :=
    (and_high_eq_iff window.base 0 (by decide)).trans (and_iff_right (Nat.zero_le _))
  rw [detectStep]
  by_cases inDevices : 0x10000000 ≤ window.base.toNat ∧ window.base.toNat < 0x20000000
  · rw [if_pos (device.mpr inDevices), if_neg fun high => high.2 inDevices]
  · rw [if_neg fun same => inDevices (device.mp same)]
    by_cases inLow : window.base.toNat < 0x10000000
    · rw [if_pos (low.mpr inLow), if_neg fun high => high.1 inLow]
    · rw [if_neg fun same => inLow (low.mp same), if_pos ⟨inLow, inDevices⟩]
      rfl

/-! ### What the loop computes -/

theorem foldl_detectStep (found : List Window) (ram : Ram) :
    found.foldl (detectStep abi shift) ram = (highRam found).foldl (addWindow abi shift) ram := by
  rw [highRam, foldl_filter]
  simp only [decide_eq_true_eq, ← detectStep_eq]

theorem foldl_addWindow_ramsize (high : List Window) (ram : Ram) :
    (high.foldl (addWindow abi shift) ram).ramsize =
      ram.ramsize + BitVec.ofInt 64 (high.map (·.added abi shift)).sum := by
  induction high generalizing ram with
  | nil => simp
  | cons window rest total =>
    rw [foldl_cons, total, map_cons, sum_cons, ofInt_add, ← BitVec.add_assoc]
    rfl

theorem min2_toNat (first second : BitVec 64) :
    (min2 first second).toNat = min first.toNat second.toNat := by
  rw [min2]
  split
  case isTrue less => exact (min_eq_left (le_of_lt less)).symm
  case isFalse order => exact (min_eq_right (not_lt.mp order)).symm

/-- The base found is the least of those seen and the one at the start. -/
theorem foldl_addWindow_rambase (high : List Window) (ram : Ram) :
    IsLeast {base | base = ram.rambase.toNat ∨ ∃ window ∈ high, base = window.base.toNat}
      (high.foldl (addWindow abi shift) ram).rambase.toNat := by
  induction high generalizing ram with
  | nil =>
    refine ⟨Or.inl rfl, fun base member => ?_⟩
    rcases member with rfl | ⟨window, member, -⟩
    · exact le_rfl
    · exact absurd member not_mem_nil
  | cons window rest least =>
    obtain ⟨found, bound⟩ := least (addWindow abi shift ram window)
    have start : (addWindow abi shift ram window).rambase.toNat =
      min ram.rambase.toNat window.base.toNat := min2_toNat _ _
    have below := bound (Or.inl start.symm)
    rw [foldl_cons]
    refine ⟨?_, fun base member => ?_⟩
    · rcases found with first | ⟨other, member, same⟩
      · rcases min_choice ram.rambase.toNat window.base.toNat with old | new
        · exact Or.inl (first.trans (start.trans old))
        · exact Or.inr ⟨window, mem_cons_self, first.trans (start.trans new)⟩
      · exact Or.inr ⟨other, mem_cons_of_mem _ member, same⟩
    · rcases member with rfl | ⟨other, member, rfl⟩
      · exact below.trans (min_le_left _ _)
      · rcases mem_cons.mp member with rfl | later
        · exact below.trans (min_le_right _ _)
        · exact bound (Or.inr ⟨other, later, rfl⟩)

/-! ### The error of a window -/

theorem setBits_le {bits : Nat} (word : BitVec bits) : setBits word ≤ bits :=
  (Finset.card_filter_le _ _).trans (Finset.card_range bits).le

theorem countZeroBits_le (window : Window) : countZeroBits abi window.mask ≤ window.zeroBits := by
  have high := setBits_le (highHalf window.mask)
  have whole := setBits_halves window.mask
  rw [countZeroBits_eq, Window.zeroBits]
  cases abi <;> simp only <;> omega

/-- The window is small enough for an `int`, and the build sees all zero bits of its mask. -/
def Window.Small (abi : Abi) (window : Window) : Prop :=
  window.zeroBits ≤ 30 ∧ countZeroBits abi window.mask = window.zeroBits

/-- No window adds more than its size, and those that add their size are the small ones. -/
theorem added_le_size (window : Window) :
    window.added abi shift ≤ window.size ∧
      (window.added abi shift = window.size ↔ window.Small abi) := by
  have fewer := countZeroBits_le abi window
  have smaller : 2 ^ countZeroBits abi window.mask ≤ window.size :=
    Nat.pow_le_pow_right (by decide) fewer
  rw [Window.Small, Window.added]
  rcases lt_or_ge (countZeroBits abi window.mask) 31 with inside | outside
  · have power : (shift.one (countZeroBits abi window.mask)).toInt =
        (2 ^ countZeroBits abi window.mask : Nat) := by
      have bound : 2 ^ countZeroBits abi window.mask ≤ 2 ^ 30 :=
        Nat.pow_le_pow_right (by decide) (by omega)
      have value : (shift.one (countZeroBits abi window.mask)).toNat =
          2 ^ countZeroBits abi window.mask := by
        rw [shift.defined _ inside, toNat_ofNat, Nat.mod_eq_of_lt (by omega)]
      rw [toInt_eq_toNat_of_lt (by omega), value]
    rw [power, Window.size, Int.natCast_inj, Nat.pow_right_inj (by decide)]
    exact ⟨Int.ofNat_le.mpr smaller, fun same => ⟨by omega, same⟩, fun right => right.2⟩
  · -- No `int` is as large as the window.
    have limit : (shift.one (countZeroBits abi window.mask)).toInt < 2 ^ 31 := toInt_lt
    have large : 2 ^ 31 ≤ window.size := (Nat.pow_le_pow_right (by decide) outside).trans smaller
    exact ⟨by omega, by constructor <;> intro <;> omega⟩

/-! ### The total -/

section Total

variable (abi : Abi) (shift : IntShift)

/-- A list of windows adds at most its size, and its size only if all windows are small. -/
theorem added_sum_le (high : List Window) :
    (high.map (·.added abi shift)).sum ≤ ((high.map Window.size).sum : Nat) ∧
      ((high.map (·.added abi shift)).sum = ((high.map Window.size).sum : Nat) ↔
        ∀ window ∈ high, window.Small abi) := by
  induction high with
  | nil => simp
  | cons window rest total =>
    obtain ⟨less, same⟩ := added_le_size abi shift window
    obtain ⟨restLess, restSame⟩ := total
    simp only [map_cons, sum_cons, forall_mem_cons, ← same, ← restSame]
    omega

theorem neg_le_added_sum (high : List Window) :
    -(2 ^ 31 * high.length : Int) ≤ (high.map (·.added abi shift)).sum := by
  induction high with
  | nil => simp
  | cons window rest total =>
    have least : -2 ^ 31 ≤ window.added abi shift := le_toInt _
    simp only [map_cons, sum_cons, length_cons]
    omega

/-- The total of at most eight windows is right exactly when each of them is small: what the
others miss is less than 2 ^ 64 altogether. -/
theorem ofInt_added_sum_iff {high : List Window} (few : high.length ≤ 8)
    (total : (high.map Window.size).sum < 2 ^ 63) :
    (BitVec.ofInt 64 (high.map (·.added abi shift)).sum).toNat = (high.map Window.size).sum ↔
      ∀ window ∈ high, window.Small abi := by
  obtain ⟨less, same⟩ := added_sum_le abi shift high
  have least := neg_le_added_sum abi shift high
  rw [← same, toNat_ofInt]
  omega

variable (read64 : Nat → BitVec 64)

theorem length_highRam_windows : (highRam (windows read64)).length ≤ 8 := by
  refine (length_filter_le _ _).trans ?_
  rw [windows, length_map, length_range]
  rfl

theorem detect_rambase (some : highRam (windows read64) ≠ []) :
    IsLeast {base | ∃ window ∈ highRam (windows read64), base = window.base.toNat}
      (detect abi shift read64).rambase.toNat := by
  rw [detect, foldl_detectStep]
  obtain ⟨found, bound⟩ := foldl_addWindow_rambase abi shift (highRam (windows read64)) ⟨-1, 0⟩
  refine ⟨?_, fun base member => bound (Or.inr member)⟩
  rcases found with start | found
  · -- Nothing is above the start, so a window has it as its base.
    obtain ⟨window, member⟩ := exists_mem_of_ne_nil _ some
    have below := bound (Or.inr ⟨window, member, rfl⟩)
    have top : (-1 : BitVec 64).toNat = 2 ^ 64 - 1 := by decide
    simp only [top] at start
    exact ⟨window, member, by omega⟩
  · exact found

theorem detect_ramsize :
    (detect abi shift read64).ramsize =
      BitVec.ofInt 64 ((highRam (windows read64)).map (·.added abi shift)).sum := by
  rw [detect, foldl_detectStep, foldl_addWindow_ramsize]
  exact BitVec.zero_add _

/-- For windows of less than 2 ^ 63 bytes in all, the size and the base found are right exactly when
no window of high RAM is larger than a gigabyte and the build sees all zero bits of its mask. -/
theorem ram_detection_iff (read64 : Nat → BitVec 64)
    (total : ((highRam (windows read64)).map Window.size).sum < 2 ^ 63) :
    ((detect abi shift read64).ramsize.toNat = ((highRam (windows read64)).map Window.size).sum ∧
      (highRam (windows read64) ≠ [] →
        IsLeast {base | ∃ window ∈ highRam (windows read64), base = window.base.toNat}
          (detect abi shift read64).rambase.toNat)) ↔
    ∀ window ∈ highRam (windows read64), window.zeroBits ≤ 30 ∧
      countZeroBits abi window.mask = window.zeroBits := by
  rw [and_iff_left (detect_rambase abi shift read64), detect_ramsize]
  exact ofInt_added_sum_iff abi shift (length_highRam_windows read64) total

/-- With small windows that end within the address space, the page allocator gets the RAM from the
base and the space reserved for the kernel on. -/
theorem mipsAddMemoryPages_eq (kernEnd : Nat) (node : Option Nat) (allocator : PageAllocator)
    {total : Nat} (sum : ((highRam (windows read64)).map Window.size).sum = total)
    (below : total < 2 ^ 63) (small : ∀ window ∈ highRam (windows read64), window.Small abi)
    (fits : (detect abi shift read64).rambase.toNat + total ≤ 2 ^ 64)
    (room : (reservedSpace abi kernEnd).toNat < total) :
    mipsAddMemoryPages abi shift read64 kernEnd node allocator =
      (allocator.free ⟨(detect abi shift read64).rambase.toNat + (reservedSpace abi kernEnd).toNat,
        total - (reservedSpace abi kernEnd).toNat, 0, 0⟩ node).map Prod.fst := by
  have size : (detect abi shift read64).ramsize.toNat = total := by
    rw [detect_ramsize, ← sum]
    exact (ofInt_added_sum_iff abi shift (length_highRam_windows read64) (sum ▸ below)).mpr small
  rw [mipsAddMemoryPages, toNat_add, Nat.mod_eq_of_lt (by omega),
    toNat_sub_of_le (by rw [le_def, size]; exact room.le), size]

end Total

/-- The registers of the address switch with the given bases and masks. -/
def registers (config : List Window) (address : Nat) : BitVec 64 :=
  let index := (address - cpuWinBase) / 8
  if index < coreWins then ((config[index]?).map Window.base).getD 0
  else ((config[index - coreWins]?).map Window.mask).getD 0

/-- The configuration that is quoted in the source. -/
def defaultConfig : List Window :=
  [⟨0x000000001fc00000, 0xfffffffffff00000⟩, ⟨0x0000000010000000, 0xfffffffff0000000⟩,
    ⟨0x0000000000000000, 0xfffffffff0100000⟩, ⟨0x0000000000100000, 0xfffffffff0100000⟩,
    ⟨0x0000000080000000, 0xffffffff80100000⟩, ⟨0x0000000080100000, 0xffffffff80100000⟩,
    ⟨0x0000000100000000, 0xffffffff80100000⟩, ⟨0x0000000100100000, 0xffffffff80100000⟩]

/-- In the quoted configuration four gigabytes are found at 0x80000000. -/
theorem ram_detection_default :
    (detect .lp64 sllv (registers defaultConfig)).ramsize.toNat =
      ((highRam (windows (registers defaultConfig))).map Window.size).sum ∧
    detect .lp64 sllv (registers defaultConfig) = ⟨0x80000000, 0x100000000⟩ := by
  have small : ∀ window ∈ highRam (windows (registers defaultConfig)), window.zeroBits ≤ 30 ∧
      countZeroBits .lp64 window.mask = window.zeroBits := by
    decide +kernel
  exact ⟨((ram_detection_iff .lp64 sllv (registers defaultConfig) (by decide +kernel)).mpr small).1,
    by decide +kernel⟩

/-- A window of four gigabytes is found as one byte, one of two gigabytes as a negative number. -/
theorem ram_detection_large :
    ((highRam (windows (registers [⟨0x100000000, 0xffffffff00000000⟩]))).map Window.size).sum =
      2 ^ 32 ∧
    (detect .lp64 sllv (registers [⟨0x100000000, 0xffffffff00000000⟩])).ramsize = 1 ∧
    ((highRam (windows (registers [⟨0x80000000, 0xffffffff80000000⟩]))).map Window.size).sum =
      2 ^ 31 ∧
    (detect .lp64 sllv (registers [⟨0x80000000, 0xffffffff80000000⟩])).ramsize =
      0xffffffff80000000 := by
  decide +kernel

end Loongson

end AIMv6
