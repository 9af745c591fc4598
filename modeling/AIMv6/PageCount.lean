/-
This file counts how often a page is on a list of regions. Regions of whole pages may be fused and
put in another order without changing the count, whether they overlap or not, and the counts of all
pages add up to the total size of the regions. Linking a block into a free list therefore adds the
pages of the block to the list whatever the list looks like: the neighbours of the block are merged
with it only when they touch it.
-/

import AIMv6.PageAllocator

namespace AIMv6

open List Nat Finset

/-! ### Pages on a list of regions -/

/-- The region consists of whole pages. -/
def Region.Whole (region : Region) : Prop := region.base % pageSize = 0 ∧ region.size % pageSize = 0

/-- The page lies in the region. -/
def Region.HoldsPage (region : Region) (page : Nat) : Prop :=
  region.base ≤ pageSize * page ∧ pageSize * (page + 1) ≤ region.limit

instance (region : Region) (page : Nat) : Decidable (region.HoldsPage page) :=
  inferInstanceAs (Decidable (_ ∧ _))

/-- How often a page is on a list of regions. -/
def listed (regions : List Region) (page : Nat) : Nat :=
  regions.countP fun region => region.HoldsPage page

theorem listed_nil (page : Nat) : listed [] page = 0 := rfl

theorem listed_cons (region : Region) (rest : List Region) (page : Nat) :
    listed (region :: rest) page = listed rest page + if region.HoldsPage page then 1 else 0 := by
  unfold listed
  rw [countP_cons]
  congr 1
  exact if_congr decide_eq_true_iff rfl rfl

theorem listed_append (first second : List Region) (page : Nat) :
    listed (first ++ second) page = listed first page + listed second page :=
  countP_append

theorem listed_pos_iff (regions : List Region) (page : Nat) :
    0 < listed regions page ↔ ∃ region ∈ regions, region.HoldsPage page := by
  unfold listed
  rw [countP_pos_iff]
  simp only [decide_eq_true_eq]

/-- A page of two regions of whole pages that touch is a page of one of them. -/
theorem holdsPage_fuse {base first second : Nat} (low : (⟨base, first⟩ : Region).Whole)
    (page : Nat) : (if (⟨base, first + second⟩ : Region).HoldsPage page then 1 else 0) =
      (if (⟨base, first⟩ : Region).HoldsPage page then 1 else 0) +
        if (⟨base + first, second⟩ : Region).HoldsPage page then 1 else 0 := by
  have either : (⟨base, first + second⟩ : Region).HoldsPage page ↔
      (⟨base, first⟩ : Region).HoldsPage page ∨
        (⟨base + first, second⟩ : Region).HoldsPage page := by
    unfold Region.HoldsPage Region.limit
    unfold Region.Whole pageSize at *
    dsimp only at *
    omega
  have notBoth : (⟨base, first⟩ : Region).HoldsPage page →
      ¬ (⟨base + first, second⟩ : Region).HoldsPage page := by
    unfold Region.HoldsPage Region.limit pageSize
    dsimp only
    omega
  rw [if_congr either rfl rfl]
  by_cases inFirst : (⟨base, first⟩ : Region).HoldsPage page
  · rw [if_pos (Or.inl inFirst), if_pos inFirst, if_neg (notBoth inFirst)]
  · rw [if_neg inFirst, zero_add, if_congr (or_iff_right inFirst) rfl rfl]

variable {bound : Nat}

theorem sum_holdsPage {region : Region} (whole : region.Whole)
    (fits : region.limit ≤ pageSize * bound) :
    pageSize * ∑ page ∈ Finset.range bound,
      (if region.HoldsPage page then 1 else 0) = region.size := by
  have pages : (Finset.range bound).filter (fun page => region.HoldsPage page) =
      Finset.Ico (region.base / pageSize) (region.base / pageSize + region.size / pageSize) := by
    ext page
    rw [Finset.mem_filter, Finset.mem_range, mem_Ico]
    unfold Region.HoldsPage
    unfold Region.Whole Region.limit pageSize at *
    omega
  rw [← card_filter, pages, card_Ico, Nat.add_sub_cancel_left]
  exact Nat.mul_div_cancel' (dvd_of_mod_eq_zero whole.2)

theorem sum_listed {regions : List Region} (whole : ∀ region ∈ regions, region.Whole)
    (fits : ∀ region ∈ regions, region.limit ≤ pageSize * bound) :
    pageSize * ∑ page ∈ Finset.range bound, listed regions page = totalSize regions := by
  induction regions with
  | nil =>
    have none : ∑ page ∈ Finset.range bound, listed [] page = 0 := sum_eq_zero fun _ _ => rfl
    rw [none, totalSize_nil, mul_zero]
  | cons region rest inductionHypothesis =>
    simp only [listed_cons]
    rw [sum_add_distrib, mul_add, totalSize_cons,
      inductionHypothesis (fun other member => whole other (mem_cons_of_mem _ member))
        (fun other member => fits other (mem_cons_of_mem _ member)),
      sum_holdsPage (whole region mem_cons_self) (fits region mem_cons_self), add_comm]

/-- Lists that agree on every page have the same total size. -/
theorem totalSize_of_listed {first second : List Region}
    (wholeFirst : ∀ region ∈ first, region.Whole)
    (wholeSecond : ∀ region ∈ second, region.Whole)
    (same : ∀ page, listed first page = listed second page) :
    totalSize first = totalSize second := by
  obtain ⟨bound, fits⟩ : ∃ bound, ∀ region ∈ first ++ second, region.limit ≤ pageSize * bound := by
    refine ⟨((first ++ second).map Region.limit).sum, fun region member => ?_⟩
    have one := single_le_sum (fun _ _ => zero_le _) _ (mem_map_of_mem (f := Region.limit) member)
    exact one.trans (Nat.le_mul_of_pos_left _ (by decide))
  rw [← sum_listed wholeFirst fun region member => fits region (mem_append_left _ member),
    ← sum_listed wholeSecond fun region member => fits region (mem_append_right _ member)]
  simp only [same]

/-! ### Linking a block adds its pages -/

namespace PageAllocator

/-- The block is made of whole pages and starts in the address space. -/
def WholeBlock (block : PageBlock) : Prop := block.region.Whole ∧ block.paddr < addrModulus

/-- A list with the pages of one more block. -/
structure Added (this : PageBlock) (blocks result : List PageBlock) : Prop where
  whole : ∀ block ∈ result, WholeBlock block
  counts : ∀ page, listed (regions result) page =
    listed (regions blocks) page + if this.region.HoldsPage page then 1 else 0
  total : totalSize (regions result) = totalSize (regions blocks) + this.size

variable {low high this : PageBlock} {after blocks : List PageBlock}

theorem holdsPage_merged (whole : low.region.Whole) (touch : low.paddr + low.size = high.paddr)
    (page : Nat) :
    (if (⟨low.paddr, low.size + high.size⟩ : Region).HoldsPage page then 1 else 0) =
      (if low.region.HoldsPage page then 1 else 0) + if high.region.HoldsPage page then
        1 else 0 := by
  rw [holdsPage_fuse whole page, touch]
  rfl

theorem whole_merged (lowWhole : low.region.Whole)
    (highWhole : high.region.Whole) : (⟨low.paddr, low.size + high.size⟩ : Region).Whole := by
  have sizes : (low.size + high.size) % pageSize = 0 := by
    rw [add_mod, show low.size % pageSize = 0 from lowWhole.2,
      show high.size % pageSize = 0 from highWhole.2]
    rfl
  exact ⟨lowWhole.1, sizes⟩

theorem mergeUp_added (whole : WholeBlock this) (others : ∀ block ∈ after, WholeBlock block)
    (above : ∀ next ∈ after.head?, this.paddr ≤ next.paddr)
    (small : this.size + totalSize (regions after) < addrModulus) :
    Added this after (mergeUp this after).1 := by
  have unmerged : Added this after (this :: after) := by
    refine ⟨fun block member => ?_, fun page => listed_cons _ _ page, add_comm _ _⟩
    rcases mem_cons.mp member with rfl | later
    · exact whole
    · exact others block later
  cases after with
  | nil => exact unmerged
  | cons next rest =>
    rw [mergeUp]
    rw [regions_cons, totalSize_cons] at small
    have nextSize : next.region.size = next.size := rfl
    have order : this.paddr ≤ next.paddr := above next rfl
    obtain ⟨nextWhole, nextInside⟩ := others next mem_cons_self
    by_cases touch : (this.paddr + this.size) % addrModulus = next.paddr
    · have exactly : this.paddr + this.size = next.paddr := by
        unfold addrModulus at *
        omega
      have fused : (this.size + next.size) % addrModulus = this.size + next.size :=
        mod_eq_of_lt (by omega)
      rw [if_pos touch, fused]
      refine ⟨fun block member => ?_, fun page => ?_, ?_⟩
      · rcases mem_cons.mp member with rfl | later
        · exact ⟨whole_merged whole.1 nextWhole, whole.2⟩
        · exact others block (mem_cons_of_mem _ later)
      · dsimp only
        rw [regions_cons, listed_cons, regions_cons, listed_cons, PageBlock.region,
          holdsPage_merged whole.1 exactly page]
        omega
      · dsimp only
        rw [regions_cons, totalSize_cons, regions_cons, totalSize_cons, PageBlock.region]
        dsimp only
        omega
    · rw [if_neg touch]
      exact unmerged

theorem Added.behind {lowest result : List PageBlock} (added : Added this blocks result)
    (others : ∀ block ∈ lowest, WholeBlock block) :
    Added this (lowest ++ blocks) (lowest ++ result) := by
  refine ⟨fun block member => ?_, fun page => ?_, ?_⟩
  · rcases mem_append.mp member with low | high
    · exact others block low
    · exact added.whole block high
  · rw [regions_append, listed_append, regions_append, listed_append, added.counts page, add_assoc]
  · rw [regions_append, totalSize_append, regions_append, totalSize_append, added.total, add_assoc]

theorem splice_added {before : List PageBlock} (whole : WholeBlock this)
    (others : ∀ block ∈ before ++ after, WholeBlock block)
    (below : ∀ prev ∈ before, prev.paddr < this.paddr)
    (above : ∀ next ∈ after.head?, this.paddr ≤ next.paddr)
    (small : this.size + totalSize (regions (before ++ after)) < addrModulus) :
    Added this (before ++ after) (splice this before after).1 := by
  have othersAfter : ∀ block ∈ after, WholeBlock block :=
    fun block member => others block (mem_append_right _ member)
  rcases eq_nil_or_concat before with rfl | ⟨lowest, prev, concat⟩
  · exact mergeUp_added whole othersAfter above small
  · rw [concat_eq_append] at concat
    subst concat
    rw [regions_append, totalSize_append, regions_append, totalSize_append,
      regions_cons, regions_nil, totalSize_cons, totalSize_nil] at small
    have prevSize : prev.region.size = prev.size := rfl
    obtain ⟨prevWhole, prevInside⟩ := others prev (by simp)
    have order := below prev (by simp)
    have last : (lowest ++ [prev]).getLast? = some prev := List.getLast?_concat
    rw [splice, last]
    dsimp only
    by_cases touch : (prev.paddr + prev.size) % addrModulus = this.paddr
    · have exactly : prev.paddr + prev.size = this.paddr := by
        unfold addrModulus at *
        omega
      have fused : (prev.size + this.size) % addrModulus = prev.size + this.size :=
        mod_eq_of_lt (by omega)
      rw [if_pos touch, fused, dropLast_concat]
      have joined : Added { prev with size := prev.size + this.size } after
          (mergeUp { prev with size := prev.size + this.size } after).1 := by
        refine mergeUp_added ⟨whole_merged prevWhole whole.1, prevInside⟩ othersAfter
          (fun next first => order.le.trans (above next first)) ?_
        show prev.size + this.size + _ < addrModulus
        omega
      obtain ⟨joinedWhole, counts, total⟩ := joined.behind fun block member =>
        others block (mem_append_left _ (mem_append_left _ member))
      refine ⟨joinedWhole, fun page => ?_, ?_⟩
      · have pages : (if (PageBlock.region { prev with size := prev.size + this.size }).HoldsPage
            page then 1 else 0) = _ := holdsPage_merged prevWhole exactly page
        rw [counts page, pages]
        simp only [regions_append, listed_append, regions_cons, regions_nil,
          listed_cons, listed_nil]
        omega
      · rw [total]
        simp only [regions_append, totalSize_append, regions_cons, regions_nil,
          totalSize_cons, totalSize_nil]
        omega
    · rw [if_neg touch]
      exact (mergeUp_added whole othersAfter above (by omega)).behind fun block member =>
        others block (mem_append_left _ member)

/-- Linking a block of whole pages into any list of such blocks adds its pages. -/
theorem link_added (whole : WholeBlock this) (others : ∀ block ∈ blocks, WholeBlock block)
    (small : this.size + totalSize (regions blocks) < addrModulus) :
    Added this blocks (link this blocks).1 := by
  have split : (blocks.takeWhile fun block => block.paddr < this.paddr) ++
      (blocks.dropWhile fun block => block.paddr < this.paddr) = blocks :=
    takeWhile_append_dropWhile
  have below : ∀ prev ∈ blocks.takeWhile fun block => block.paddr < this.paddr,
      prev.paddr < this.paddr := fun prev member =>
    of_decide_eq_true (all_eq_true.mp all_takeWhile prev member)
  have above : ∀ next ∈ (blocks.dropWhile fun block => block.paddr < this.paddr).head?,
      this.paddr ≤ next.paddr := by
    intro next first
    have stopped := List.head?_dropWhile_not (fun block : PageBlock =>
      block.paddr < this.paddr) blocks
    rw [Option.mem_def.mp first] at stopped
    exact not_lt.mp (of_decide_eq_false (by simpa using stopped))
  rw [link]
  rw [← split] at others small
  have added := splice_added whole others below above small
  rw [split] at added
  exact added

end PageAllocator

end AIMv6
