import OrangeKernel.Shared.Machine

set_option autoImplicit false

namespace OrangeKernel.Memory

open Machine

def pageSize : Nat := 4096

def maxReserves : Nat := 64

def fdtMaxMemRegions : Nat := 16

structure MemRegionInfo where
  base : Nat
  size : Nat
  firstIdx : Nat
  pageCount : Nat
deriving DecidableEq, Repr

structure ReserveRange where
  start : Nat
  stop : Nat
deriving DecidableEq, Repr

structure Layout where
  regions : List MemRegionInfo
  managedPageCount : Nat
  reserves : List ReserveRange
  regionsDirectMap : Bool
  directMapBase : Nat
  directMapFirstIdx : Nat
  directMapLastIdx : Nat
  frameArray : Nat

def rangesOverlap (aStart aEnd bStart bEnd : Nat) : Bool :=
  aStart < bEnd && bStart < aEnd

-- Saturates at the top of the address space.
def reserveEnd (start size : Nat) : Nat :=
  let stop := if wrap64 (start + size) < start then maxU64 else wrap64 (start + size)
  if stop > maxU64 - (pageSize - 1) then maxU64 else alignUp stop pageSize

-- An entry past the end of the table is dropped.
def memoryReserve (start size : Nat) (reserves : List ReserveRange) : List ReserveRange :=
  if size = 0 then reserves
  else if reserveEnd start size ≤ alignDown start pageSize then reserves
  else if reserves.length ≥ maxReserves then reserves
  else reserves ++ [{ start := alignDown start pageSize, stop := reserveEnd start size }]

def isReservedPa (layout : Layout) (pa : Nat) : Bool :=
  layout.reserves.any fun r => r.start ≤ pa && pa < r.stop

def MemRegionInfo.Contains (r : MemRegionInfo) (idx : Nat) : Prop :=
  r.firstIdx ≤ idx ∧ idx < r.firstIdx + r.pageCount

instance (r : MemRegionInfo) (idx : Nat) : Decidable (r.Contains idx) :=
  inferInstanceAs (Decidable (_ ∧ _))

def findRegionByIndex (layout : Layout) (idx : Nat) : Option Nat :=
  if layout.regionsDirectMap then
    if layout.directMapFirstIdx ≤ idx ∧ idx < layout.directMapLastIdx then some 0 else none
  else layout.regions.findIdx? fun r => r.firstIdx ≤ idx && idx < r.firstIdx + r.pageCount

def indexToPa (layout : Layout) (idx : Nat) : Option Nat :=
  if layout.regionsDirectMap then
    if idx < layout.directMapFirstIdx ∨ layout.directMapLastIdx ≤ idx then none
    else some (wrap64 (layout.directMapBase + (idx - layout.directMapFirstIdx) * pageSize))
  else do
    let rid ← findRegionByIndex layout idx
    let r ← layout.regions[rid]?
    some (wrap64 (r.base + (idx - r.firstIdx) * pageSize))

-- The first region that holds `pa` decides.
def paToIndexScan (pa : Nat) : List MemRegionInfo → Option Nat
  | [] => none
  | r :: rest =>
    if r.base ≤ pa ∧ pa < wrap64 (r.base + r.size) then
      if (pa - r.base) % pageSize ≠ 0 ∨ r.pageCount ≤ (pa - r.base) / pageSize then none
      else some (r.firstIdx + (pa - r.base) / pageSize)
    else paToIndexScan pa rest

def paToIndex (layout : Layout) (pa : Nat) : Option Nat :=
  if layout.regionsDirectMap then
    let stop := wrap64 (layout.directMapBase +
      (layout.directMapLastIdx - layout.directMapFirstIdx) * pageSize)
    if pa < layout.directMapBase ∨ stop ≤ pa ∨ pa &&& (pageSize - 1) ≠ 0 then none
    else some (layout.directMapFirstIdx + (pa - layout.directMapBase) / pageSize)
  else paToIndexScan pa layout.regions

-- The region number that `pa_to_index` stores through `rid_out` when it succeeds.
def paToRegion (layout : Layout) (pa : Nat) : Option Nat :=
  (paToIndex layout pa).bind fun _ =>
    if layout.regionsDirectMap then some 0
    else layout.regions.findIdx? fun r => r.base ≤ pa && pa < wrap64 (r.base + r.size)

def Layout.scanned (layout : Layout) : Layout := { layout with regionsDirectMap := false }

def MemRegionInfo.stop (r : MemRegionInfo) : Nat := r.base + r.size

structure MemRegionInfo.Ok (r : MemRegionInfo) : Prop where
  base_aligned : r.base % pageSize = 0
  size_eq : r.size = r.pageCount * pageSize
  nonempty : 0 < r.pageCount
  stop_lt : r.base + r.size < 2 ^ 64

def Consecutive : Nat → List MemRegionInfo → Prop
  | _, [] => True
  | first, r :: rest => r.firstIdx = first ∧ Consecutive (first + r.pageCount) rest

def totalPages (regions : List MemRegionInfo) : Nat :=
  (regions.map MemRegionInfo.pageCount).sum

def MemRegionInfo.Apart (r s : MemRegionInfo) : Prop :=
  r.stop ≤ s.base ∨ s.stop ≤ r.base

structure Layout.Ok (layout : Layout) : Prop where
  region : ∀ r ∈ layout.regions, r.Ok
  consecutive : Consecutive 0 layout.regions
  apart : layout.regions.Pairwise MemRegionInfo.Apart
  total : layout.managedPageCount = totalPages layout.regions
  small : layout.managedPageCount < 2 ^ 31
  direct : layout.regionsDirectMap = true → ∃ r, layout.regions = [r] ∧
    layout.directMapBase = r.base ∧ layout.directMapFirstIdx = r.firstIdx ∧
    layout.directMapLastIdx = r.firstIdx + r.pageCount

variable {regions : List MemRegionInfo} {r : MemRegionInfo} {first : Nat}

theorem consecutive_mem (consecutive : Consecutive first regions) (member : r ∈ regions) :
    first ≤ r.firstIdx ∧ r.firstIdx + r.pageCount ≤ first + totalPages regions := by
  induction regions generalizing first with
  | nil => simp at member
  | cons s rest ih =>
    obtain ⟨same, tail⟩ := consecutive
    simp only [totalPages, List.map_cons, List.sum_cons]
    obtain rfl | inRest := List.mem_cons.mp member
    · omega
    · have bounds := ih tail inRest
      unfold totalPages at bounds
      omega

variable {idx : Nat}

theorem consecutive_cover (consecutive : Consecutive first regions) (low : first ≤ idx)
    (high : idx < first + totalPages regions) :
    ∃ r ∈ regions, r.Contains idx := by
  induction regions generalizing first with
  | nil => simp [totalPages] at high; omega
  | cons s rest ih =>
    obtain ⟨same, tail⟩ := consecutive
    by_cases here : idx < first + s.pageCount
    · exact ⟨s, List.mem_cons_self, by unfold MemRegionInfo.Contains; omega⟩
    · simp only [totalPages, List.map_cons, List.sum_cons] at high
      obtain ⟨r, member, contains⟩ := ih tail (by omega) (by unfold totalPages; omega)
      exact ⟨r, List.mem_cons_of_mem _ member, contains⟩

theorem consecutive_unique (consecutive : Consecutive first regions) {s : MemRegionInfo} (left : r ∈ regions)
    (right : s ∈ regions) (inLeft : r.Contains idx) (inRight : s.Contains idx) : r = s := by
  induction regions generalizing first with
  | nil => simp at left
  | cons t rest ih =>
    obtain ⟨same, tail⟩ := consecutive
    unfold MemRegionInfo.Contains at inLeft inRight
    obtain rfl | inRest := List.mem_cons.mp left <;> obtain rfl | inRest' := List.mem_cons.mp right
    · rfl
    · have bounds := consecutive_mem tail inRest'
      omega
    · have bounds := consecutive_mem tail inRest
      omega
    · exact ih tail inRest inRest'

namespace Layout.Ok

variable {layout : Layout} (ok : layout.Ok)
include ok

theorem region_of_index (bound : idx < layout.managedPageCount) :
    ∃ r ∈ layout.regions, r.Contains idx :=
  consecutive_cover ok.consecutive (Nat.zero_le _) (by rw [Nat.zero_add, ← ok.total]; exact bound)

theorem region_unique {s : MemRegionInfo} (left : r ∈ layout.regions)
    (right : s ∈ layout.regions) (inLeft : r.Contains idx) (inRight : s.Contains idx) : r = s :=
  consecutive_unique ok.consecutive left right inLeft inRight

theorem region_end_le (member : r ∈ layout.regions) :
    r.firstIdx + r.pageCount ≤ layout.managedPageCount := by
  have bounds := consecutive_mem ok.consecutive member
  rw [ok.total]
  omega

theorem contains_lt (member : r ∈ layout.regions)
    (contains : r.Contains idx) : idx < layout.managedPageCount :=
  contains.2.trans_le (ok.region_end_le member)

theorem findRegionByIndex_eq (member : r ∈ layout.regions)
    (contains : r.Contains idx) :
    ∃ rid, findRegionByIndex layout idx = some rid ∧ layout.regions[rid]? = some r := by
  unfold findRegionByIndex
  by_cases direct : layout.regionsDirectMap = true
  · obtain ⟨s, single, -, first, last⟩ := ok.direct direct
    obtain rfl : r = s := by simpa [single] using member
    have inside : layout.directMapFirstIdx ≤ idx ∧ idx < layout.directMapLastIdx := by
      rw [first, last]
      exact contains
    exact ⟨0, by simp [direct, inside], by simp [single]⟩
  · cases found : layout.regions.findIdx? fun s => s.firstIdx ≤ idx && idx < s.firstIdx + s.pageCount with
    | none =>
      have missing := List.findIdx?_eq_none_iff.mp found r member
      have present : (r.firstIdx ≤ idx ∧ idx < r.firstIdx + r.pageCount) := contains
      simp [present] at missing
    | some rid =>
      refine ⟨rid, by simp [direct], ?_⟩
      obtain ⟨bound, holds, -⟩ := List.findIdx?_eq_some_iff_getElem.mp found
      have inside : layout.regions[rid].Contains idx := by simpa [MemRegionInfo.Contains] using holds
      have same := ok.region_unique (List.getElem_mem bound) member inside contains
      rw [List.getElem?_eq_getElem bound, same]

theorem findRegionByIndex_none (bound : layout.managedPageCount ≤ idx) :
    findRegionByIndex layout idx = none := by
  have outside : ∀ r ∈ layout.regions, r.firstIdx + r.pageCount ≤ idx :=
    fun r member => (ok.region_end_le member).trans bound
  unfold findRegionByIndex
  by_cases direct : layout.regionsDirectMap = true
  · obtain ⟨s, single, -, -, last⟩ := ok.direct direct
    have := outside s (by simp [single])
    simp [direct, last]
    omega
  · have nowhere : layout.regions.findIdx?
        (fun r => decide (r.firstIdx ≤ idx) && decide (idx < r.firstIdx + r.pageCount)) = none := by
      rw [List.findIdx?_eq_none_iff]
      intro r member
      have := outside r member
      simp
      omega
    simp [direct, nowhere]

end Layout.Ok

def MemRegionInfo.addr (r : MemRegionInfo) (idx : Nat) : Nat :=
  r.base + (idx - r.firstIdx) * pageSize

theorem MemRegionInfo.Ok.addr_lt (ok : r.Ok) (contains : r.Contains idx) :
    r.addr idx + pageSize ≤ r.stop := by
  have size := ok.size_eq
  have page : idx - r.firstIdx + 1 ≤ r.pageCount := by
    unfold Contains at contains
    omega
  have := Nat.mul_le_mul_right pageSize page
  unfold addr stop
  rw [Nat.add_mul] at this
  omega

theorem Layout.Ok.indexToPa_eq {layout : Layout} (ok : layout.Ok)
    (member : r ∈ layout.regions) (contains : r.Contains idx) :
    indexToPa layout idx = some (r.addr idx) := by
  have bound := (ok.region r member).addr_lt contains
  have stop := (ok.region r member).stop_lt
  have fits : wrap64 (r.base + (idx - r.firstIdx) * pageSize) = r.addr idx := by
    apply wrap64_of_lt
    unfold MemRegionInfo.addr MemRegionInfo.stop pageSize at *
    omega
  unfold indexToPa
  by_cases direct : layout.regionsDirectMap = true
  · obtain ⟨s, single, base, first, last⟩ := ok.direct direct
    obtain rfl : r = s := by simpa [single] using member
    have inside : ¬ (idx < r.firstIdx ∨ r.firstIdx + r.pageCount ≤ idx) := by
      unfold MemRegionInfo.Contains at contains
      omega
    simp only [direct, if_true, base, first, last, inside, if_false, fits]
  · obtain ⟨rid, found, get⟩ := ok.findRegionByIndex_eq member contains
    simp [direct, found, get, fits]

theorem MemRegionInfo.Ok.addr_aligned (ok : r.Ok) (idx : Nat) :
    r.addr idx % pageSize = 0 := by
  unfold addr
  rw [Nat.add_mul_mod_self_right]
  exact ok.base_aligned

theorem MemRegionInfo.addr_sub (r : MemRegionInfo) (idx : Nat) :
    r.addr idx - r.base = (idx - r.firstIdx) * pageSize := by
  unfold addr
  omega

variable {pa : Nat}

theorem MemRegionInfo.addr_of_page (low : r.base ≤ pa) (aligned : (pa - r.base) % pageSize = 0)
    (high : (pa - r.base) / pageSize < r.pageCount) :
    r.Contains (r.firstIdx + (pa - r.base) / pageSize) ∧
      r.addr (r.firstIdx + (pa - r.base) / pageSize) = pa := by
  constructor
  · exact ⟨Nat.le_add_right _ _, Nat.add_lt_add_left high _⟩
  · have exact_division := Nat.div_mul_cancel (Nat.dvd_of_mod_eq_zero aligned)
    unfold addr
    rw [Nat.add_sub_cancel_left, exact_division]
    omega

theorem paToIndexScan_eq (region : ∀ r ∈ regions, r.Ok)
    (apart : regions.Pairwise MemRegionInfo.Apart)
    (member : r ∈ regions) (contains : r.Contains idx) :
    paToIndexScan (r.addr idx) regions = some idx := by
  have bound := (region r member).addr_lt contains
  induction regions with
  | nil => simp at member
  | cons s rest ih =>
    have stop : wrap64 (s.base + s.size) = s.stop :=
      wrap64_of_lt (region s List.mem_cons_self).stop_lt
    simp only [paToIndexScan, stop]
    obtain ⟨here, later⟩ := List.pairwise_cons.mp apart
    obtain rfl | inRest := List.mem_cons.mp member
    · have inside : r.base ≤ r.addr idx ∧ r.addr idx < r.stop := by
        unfold MemRegionInfo.addr pageSize at *
        omega
      have page : (idx - r.firstIdx) * pageSize / pageSize = idx - r.firstIdx :=
        Nat.mul_div_cancel _ (by decide)
      have accepted : ¬ ((idx - r.firstIdx) * pageSize % pageSize ≠ 0 ∨ r.pageCount ≤ idx - r.firstIdx) := by
        rw [Nat.mul_mod_left]
        unfold MemRegionInfo.Contains at contains
        omega
      have back : r.firstIdx + (idx - r.firstIdx) = idx := by
        unfold MemRegionInfo.Contains at contains
        omega
      simp only [inside, and_self, if_true, r.addr_sub, page, accepted, if_false, back]
    · have other := here r inRest
      have outside : ¬ (s.base ≤ r.addr idx ∧ r.addr idx < s.stop) := by
        unfold MemRegionInfo.Apart MemRegionInfo.addr pageSize at *
        omega
      rw [if_neg outside]
      exact ih (fun t inTail => region t (List.mem_cons_of_mem _ inTail)) later inRest

theorem paToIndexScan_some (region : ∀ r ∈ regions, r.Ok) (found : paToIndexScan pa regions = some idx) :
    ∃ r ∈ regions, r.Contains idx ∧ r.addr idx = pa := by
  induction regions with
  | nil => simp [paToIndexScan] at found
  | cons s rest ih =>
    simp only [paToIndexScan] at found
    split at found
    next inside =>
      split at found
      · simp at found
      next accepted =>
        obtain ⟨aligned, high⟩ : (pa - s.base) % pageSize = 0 ∧ (pa - s.base) / pageSize < s.pageCount := by
          omega
        cases found
        have page := MemRegionInfo.addr_of_page inside.1 aligned high
        exact ⟨s, List.mem_cons_self, page⟩
    · obtain ⟨r, member, page⟩ := ih (fun t inTail => region t (List.mem_cons_of_mem _ inTail)) found
      exact ⟨r, List.mem_cons_of_mem _ member, page⟩

namespace Layout.Ok

variable {layout : Layout} (ok : layout.Ok)
include ok

theorem paToIndex_scan (pa : Nat) : paToIndex layout pa = paToIndexScan pa layout.regions := by
  unfold paToIndex
  by_cases direct : layout.regionsDirectMap = true
  · obtain ⟨r, single, base, first, last⟩ := ok.direct direct
    have region := ok.region r (by simp [single])
    have stop : wrap64 (r.base + r.size) = r.stop := wrap64_of_lt region.stop_lt
    have span : r.firstIdx + r.pageCount - r.firstIdx = r.pageCount := by omega
    have mask : pa &&& (pageSize - 1) = pa % pageSize := Nat.and_two_pow_sub_one_eq_mod pa 12
    simp only [direct, if_true, base, first, last, span, ← region.size_eq, stop, mask, single, paToIndexScan]
    by_cases inside : r.base ≤ pa ∧ pa < r.stop
    · have remainder : (pa - r.base) % pageSize = pa % pageSize := by
        have := region.base_aligned
        unfold pageSize at *
        omega
      have high : (pa - r.base) / pageSize < r.pageCount := by
        have size := region.size_eq
        rw [Nat.div_lt_iff_lt_mul (by decide), ← size]
        unfold MemRegionInfo.stop at inside
        omega
      rw [if_pos inside, remainder]
      by_cases aligned : pa % pageSize = 0
      · rw [if_neg (by omega), if_neg (by omega)]
      · rw [if_pos (by omega), if_pos (by omega)]
    · rw [if_neg inside, if_pos (by omega)]
  · simp [direct]

theorem paToIndex_eq (member : r ∈ layout.regions)
    (contains : r.Contains idx) : paToIndex layout (r.addr idx) = some idx := by
  rw [ok.paToIndex_scan]
  exact paToIndexScan_eq ok.region ok.apart member contains

theorem paToIndex_some (found : paToIndex layout pa = some idx) :
    ∃ r ∈ layout.regions, r.Contains idx ∧ r.addr idx = pa := by
  rw [ok.paToIndex_scan] at found
  exact paToIndexScan_some ok.region found

theorem indexToPa_iff : indexToPa layout idx = some pa ↔ paToIndex layout pa = some idx := by
  constructor
  · intro found
    by_cases bound : idx < layout.managedPageCount
    · obtain ⟨r, member, contains⟩ := ok.region_of_index bound
      rw [ok.indexToPa_eq member contains] at found
      cases found
      exact ok.paToIndex_eq member contains
    · have outside := ok.findRegionByIndex_none (Nat.le_of_not_lt bound)
      unfold indexToPa at found
      by_cases direct : layout.regionsDirectMap = true
      · obtain ⟨r, single, base, first, last⟩ := ok.direct direct
        have stop := ok.region_end_le (r := r) (by simp [single])
        rw [if_pos direct, if_pos (by omega)] at found
        simp at found
      · simp [direct, outside] at found
  · intro found
    obtain ⟨r, member, contains, rfl⟩ := ok.paToIndex_some found
    exact ok.indexToPa_eq member contains

theorem indexToPa_isSome (idx : Nat) : (indexToPa layout idx).isSome ↔ idx < layout.managedPageCount := by
  constructor
  · intro found
    obtain ⟨pa, translated⟩ := Option.isSome_iff_exists.mp found
    obtain ⟨r, member, contains, -⟩ := ok.paToIndex_some (ok.indexToPa_iff.mp translated)
    exact ok.contains_lt member contains
  · intro bound
    obtain ⟨r, member, contains⟩ := ok.region_of_index bound
    rw [ok.indexToPa_eq member contains]
    rfl

theorem paToIndex_isSome (pa : Nat) :
    (paToIndex layout pa).isSome ↔ pageSize ∣ pa ∧ ∃ r ∈ layout.regions, r.base ≤ pa ∧
    pa < r.base + r.size := by
  constructor
  · intro found
    obtain ⟨idx, translated⟩ := Option.isSome_iff_exists.mp found
    obtain ⟨r, member, contains, rfl⟩ := ok.paToIndex_some translated
    have region := ok.region r member
    have below := region.addr_lt contains
    refine ⟨Nat.dvd_of_mod_eq_zero (region.addr_aligned idx), r, member, Nat.le_add_right _ _, ?_⟩
    unfold MemRegionInfo.stop pageSize at below
    omega
  · rintro ⟨aligned, r, member, low, high⟩
    have region := ok.region r member
    have offset : (pa - r.base) % pageSize = 0 :=
      Nat.mod_eq_zero_of_dvd (Nat.dvd_sub aligned (Nat.dvd_of_mod_eq_zero region.base_aligned))
    have page : (pa - r.base) / pageSize < r.pageCount := by
      rw [Nat.div_lt_iff_lt_mul (by decide), ← region.size_eq]
      omega
    obtain ⟨contains, address⟩ := MemRegionInfo.addr_of_page low offset page
    rw [← address, ok.paToIndex_eq member contains]
    rfl

theorem scanned_ok : layout.scanned.Ok :=
  { ok with direct := fun direct => absurd direct Bool.false_ne_true }

theorem paToIndex_scanned (pa : Nat) : paToIndex layout pa = paToIndex layout.scanned pa := by
  rw [ok.paToIndex_scan, ok.scanned_ok.paToIndex_scan]
  rfl

theorem indexToPa_scanned (idx : Nat) : indexToPa layout idx = indexToPa layout.scanned idx := by
  ext pa
  rw [ok.indexToPa_iff, ok.scanned_ok.indexToPa_iff, ok.paToIndex_scanned]

theorem findRegionByIndex_scanned (idx : Nat) :
    findRegionByIndex layout idx = findRegionByIndex layout.scanned idx := by
  by_cases direct : layout.regionsDirectMap = true
  · obtain ⟨r, single, -, first, last⟩ := ok.direct direct
    simp only [findRegionByIndex, Layout.scanned, direct, single, first, last, List.findIdx?_singleton, if_true]
    simp
  · simp [findRegionByIndex, Layout.scanned, direct]

theorem paToRegion_scanned (pa : Nat) : paToRegion layout pa = paToRegion layout.scanned pa := by
  unfold paToRegion
  rw [← ok.paToIndex_scanned]
  cases found : paToIndex layout pa with
  | none => rfl
  | some idx =>
    by_cases direct : layout.regionsDirectMap = true
    · obtain ⟨r, single, -⟩ := ok.direct direct
      obtain ⟨-, s, member, inside⟩ := (ok.paToIndex_isSome pa).mp (by rw [found]; rfl)
      obtain rfl : s = r := by simpa [single] using member
      have stop := (ok.region s (by simp [single])).stop_lt
      simp [Layout.scanned, direct, single, wrap64_of_lt stop, inside]
    · simp [Layout.scanned, direct]

end Layout.Ok

end OrangeKernel.Memory
