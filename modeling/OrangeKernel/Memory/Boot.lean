import OrangeKernel.Memory.Startup

set_option autoImplicit false

namespace OrangeKernel.Memory

open Machine

theorem consecutive_snoc {first : Nat} {regions : List MemRegionInfo} {r : MemRegionInfo}
    (consecutive : Consecutive first regions) (next : r.firstIdx = first + totalPages regions) :
    Consecutive first (regions ++ [r]) := by
  induction regions generalizing first with
  | nil => exact ⟨by simpa [totalPages] using next, trivial⟩
  | cons s rest ih =>
    obtain ⟨same, tail⟩ := consecutive
    exact ⟨same, ih tail (by simpa [totalPages, Nat.add_assoc] using next)⟩

structure RegionTable.Ok (table : RegionTable) : Prop where
  region : ∀ r ∈ table.regions, r.Ok
  consecutive : Consecutive 0 table.regions
  apart : table.regions.Pairwise MemRegionInfo.Apart
  total : table.totalPages = Memory.totalPages table.regions
  small : table.totalPages < 2 ^ 31

theorem pageRange_spec {dt : FdtMemRegion} (low : dt.base.toNat ≤ maxU64 - (pageSize - 1)) :
    pageSize ∣ (pageRange dt).1 ∧ pageSize ∣ (pageRange dt).2 ∧ (pageRange dt).2 < 2 ^ 64 := by
  have room : dt.base.toNat + (pageSize - 1) < 2 ^ 64 := by
    unfold maxU64 pageSize at *
    omega
  have wrapped := wrap64_lt (dt.base.toNat + dt.size.toNat)
  have bound : (if wrap64 (dt.base.toNat + dt.size.toNat) < dt.base.toNat then maxU64
      else wrap64 (dt.base.toNat + dt.size.toNat)) < 2 ^ 64 := by
    unfold maxU64
    split <;> omega
  simp only [pageRange, alignUp_page room, alignDown_page bound]
  exact ⟨Nat.dvd_mul_left _ _, Nat.dvd_mul_left _ _, (Nat.div_mul_le_self _ _).trans_lt bound⟩

variable {table : RegionTable}

theorem appendRegion_ok {start stop : Nat} (ok : table.Ok) (startAligned : pageSize ∣ start)
    (stopAligned : pageSize ∣ stop) (bound : stop < 2 ^ 64) (nonempty : 0 < (stop - start) / pageSize)
    (few : (stop - start) / pageSize ≤ int32Max - table.totalPages)
    (disjoint : ∀ r ∈ table.regions, ¬ rangesOverlap start stop r.base (wrap64 (r.base + r.size))) :
    (appendRegion table start stop).Ok := by
  have small := ok.small
  have less : start < stop := by
    by_contra none
    simp [Nat.sub_eq_zero_of_le (Nat.not_lt.mp none)] at nonempty
  have regionOk : MemRegionInfo.Ok
      { base := start, size := stop - start, firstIdx := table.totalPages,
        pageCount := (stop - start) / pageSize } :=
    { base_aligned := Nat.mod_eq_zero_of_dvd startAligned
      size_eq := (Nat.div_mul_cancel (Nat.dvd_sub stopAligned startAligned)).symm
      nonempty := nonempty
      stop_lt := by dsimp only; omega }
  exact
    { region := by
        intro r member
        rcases List.mem_append.mp member with old | new
        · exact ok.region r old
        · exact List.mem_singleton.mp new ▸ regionOk
      consecutive := consecutive_snoc ok.consecutive (by rw [Nat.zero_add]; exact ok.total)
      apart := by
        refine List.pairwise_append.mpr ⟨ok.apart, List.pairwise_singleton _ _, fun r old s new => ?_⟩
        rw [List.mem_singleton.mp new]
        have separate := disjoint r old
        rw [wrap64_of_lt (ok.region r old).stop_lt] at separate
        simp only [rangesOverlap, Bool.and_eq_true, decide_eq_true_eq, not_and_or] at separate
        unfold MemRegionInfo.Apart MemRegionInfo.stop
        dsimp only
        omega
      total := by simp [appendRegion, Memory.totalPages, ok.total]
      small := by
        unfold int32Max at few
        dsimp only [appendRegion]
        omega }

theorem addRegion_ok {table' : RegionTable} {dt : FdtMemRegion} (ok : table.Ok)
    (added : addRegion table dt = some table') : table'.Ok := by
  unfold addRegion at added
  split at added
  · simp at added
  next low =>
  obtain ⟨startAligned, stopAligned, bound⟩ := pageRange_spec (Nat.not_lt.mp low)
  dsimp only at added
  split at added
  · exact Option.some.inj added ▸ ok
  split at added
  · exact Option.some.inj added ▸ ok
  next positive =>
  split at added
  · simp at added
  next few =>
  split at added
  · simp at added
  next disjoint =>
  cases added
  refine appendRegion_ok ok startAligned stopAligned bound (Nat.pos_of_ne_zero positive) (Nat.not_lt.mp few) ?_
  exact List.any_eq_false.mp (by simpa using disjoint)

theorem addRegions_ok {found : List FdtMemRegion} {table' : RegionTable} (ok : table.Ok)
    (added : addRegions found table = some table') : table'.Ok := by
  induction found generalizing table with
  | nil => exact Option.some.inj added ▸ ok
  | cons dt rest ih =>
    simp only [addRegions] at added
    split at added
    · obtain ⟨middle, one, more⟩ := Option.bind_eq_some_iff.mp added
      exact ih (addRegion_ok ok one) more
    · exact Option.some.inj added ▸ ok

def ReservesAligned (reserves : List ReserveRange) : Prop :=
  ∀ r ∈ reserves, pageSize ∣ r.start

def Spanned (reserves : List ReserveRange) (start stop : Nat) : Prop :=
  ∃ r ∈ reserves, r.start ≤ start ∧ stop ≤ r.stop

theorem memoryReserve_cases (start size : Nat) (reserves : List ReserveRange) :
    memoryReserve start size reserves = reserves ∨
      memoryReserve start size reserves =
        reserves ++ [{ start := alignDown start pageSize, stop := reserveEnd start size }] := by
  unfold memoryReserve
  split_ifs <;> simp

variable {reserves : List ReserveRange}

theorem memoryReserve_records {start size : Nat} (pos : 0 < size)
    (bound : start + size ≤ maxU64) (room : reserves.length < maxReserves) :
    Spanned (memoryReserve start size reserves) start (start + size) := by
  obtain ⟨r, added, covers⟩ := memoryReserve_covers pos bound room
  exact ⟨r, by simp [added], covers⟩

structure TableOk (count : Nat) (reserves : List ReserveRange) : Prop where
  few : reserves.length ≤ count
  zero : Spanned reserves 0 pageSize
  aligned : ReservesAligned reserves

theorem TableOk.mono {count count' : Nat} (ok : TableOk count reserves)
    (le : count ≤ count') : TableOk count' reserves :=
  ⟨ok.few.trans le, ok.zero, ok.aligned⟩

theorem Spanned.reserve {low high : Nat} (spanned : Spanned reserves low high)
    (start size : Nat) : Spanned (memoryReserve start size reserves) low high := by
  obtain ⟨r, member, covers⟩ := spanned
  rcases memoryReserve_cases start size reserves with same | added
  · rw [same]
    exact ⟨r, member, covers⟩
  · rw [added]
    exact ⟨r, List.mem_append_left _ member, covers⟩

theorem TableOk.reserve {count : Nat} (ok : TableOk count reserves) {start : Nat}
    (size : Nat) (bound : start < 2 ^ 64) : TableOk (count + 1) (memoryReserve start size reserves) where
  few := by
    have few := ok.few
    rcases memoryReserve_cases start size reserves with same | added
    · rw [same]
      omega
    · rw [added, List.length_append, List.length_singleton]
      omega
  zero := ok.zero.reserve start size
  aligned := by
    rcases memoryReserve_cases start size reserves with same | added
    · rw [same]
      exact ok.aligned
    · rw [added]
      intro r member
      rcases List.mem_append.mp member with old | new
      · exact ok.aligned r old
      · rw [List.mem_singleton.mp new, alignDown_page bound]
        exact Nat.dvd_mul_left _ _

theorem TableOk.reserveAll {count : Nat} (ok : TableOk count reserves)
    (found : List FdtMemRegion) : TableOk (count + found.length) (reserveAll found reserves) := by
  induction found generalizing count reserves with
  | nil => exact ok
  | cons dt rest ih =>
    have one := ok.reserve dt.size.toNat dt.base.toNat_lt
    exact (ih one).mono (by rw [List.length_cons]; omega)

theorem bootReserves_ok (boot : BootInputs) (memreserve reservedMemory : RegionList) :
    TableOk (maxReserves - 1) (bootReserves boot memreserve.1 reservedMemory.1) := by
  have zeroPage : TableOk 1 (memoryReserve 0 pageSize []) := by
    refine ⟨by decide, memoryReserve_records (by decide) (by decide) (by decide), ?_⟩
    unfold ReservesAligned
    decide
  have dtb : TableOk 2 (if boot.dtbSize.toNat ≠ 0
      then memoryReserve boot.dtbAddr.toNat boot.dtbSize.toNat (memoryReserve 0 pageSize [])
      else memoryReserve 0 pageSize []) := by
    split
    · exact zeroPage.reserve _ boot.dtbAddr.toNat_lt
    · exact zeroPage.mono (by decide)
  have window : userCodeBase boot.board < 2 ^ 64 := by cases boot.board <;> decide
  have user := (dtb.reserve (boot.physEnd - boot.physStart).toNat boot.physStart.toNat_lt).reserve
    userCodeSize window
  have few := memreserve.2
  have few' := reservedMemory.2
  unfold fdtMaxMemRegions at few few'
  unfold bootReserves
  refine TableOk.mono (((?_ : TableOk 5 _).reserveAll memreserve.1).reserveAll reservedMemory.1)
    (by unfold maxReserves; omega)
  split
  · exact user.reserve _ boot.initrdStart.toNat_lt
  · exact user.mono (by decide)

structure BootLayout (layout : Layout) : Prop where
  ok : layout.Ok
  aligned : ReservesAligned layout.reserves
  zero : Spanned layout.reserves 0 pageSize
  frames : Spanned layout.reserves layout.frameArray
    (layout.frameArray + layout.managedPageCount * frameMetaSize)

theorem layoutOf_ok {first : MemRegionInfo} (ok : table.Ok)
    (head : table.regions.head? = some first) (frameArray : Nat) (reserves : List ReserveRange) :
    (layoutOf table first frameArray reserves).Ok where
  region := ok.region
  consecutive := ok.consecutive
  apart := ok.apart
  total := ok.total
  small := ok.small
  direct := by
    intro direct
    have single : table.regions.length = 1 := by simpa [layoutOf] using direct
    obtain ⟨r, only⟩ := List.length_eq_one_iff.mp single
    obtain rfl : r = first := by simpa [only] using head
    exact ⟨r, only, by simp [layoutOf, single], by simp [layoutOf, single], by simp [layoutOf, single]⟩

theorem RegionTable.Ok.empty : RegionTable.Ok { regions := [], totalPages := 0 } :=
  ⟨by simp, trivial, List.Pairwise.nil, rfl, by decide⟩

theorem pageTranslation_bijective (found : List FdtMemRegion) (table : RegionTable) (first : MemRegionInfo)
    (frameArray : Nat) (reserves : List ReserveRange)
    (built : addRegions found { regions := [], totalPages := 0 } = some table)
    (head : table.regions.head? = some first) :
    let layout := layoutOf table first frameArray reserves
    (∀ idx, (indexToPa layout idx).isSome ↔ idx < layout.managedPageCount) ∧
      (∀ pa, (paToIndex layout pa).isSome ↔
        pageSize ∣ pa ∧ ∃ r ∈ table.regions, r.base ≤ pa ∧ pa < r.base + r.size) ∧
      (∀ idx pa, indexToPa layout idx = some pa ↔ paToIndex layout pa = some idx) ∧
      (layout.regionsDirectMap = true ↔ table.regions.length = 1) ∧
      ∀ x, findRegionByIndex layout x = findRegionByIndex layout.scanned x ∧
        indexToPa layout x = indexToPa layout.scanned x ∧ paToIndex layout x = paToIndex layout.scanned x ∧
        paToRegion layout x = paToRegion layout.scanned x := by
  intro layout
  have ok : layout.Ok := layoutOf_ok (addRegions_ok .empty built) head frameArray reserves
  exact ⟨ok.indexToPa_isSome, ok.paToIndex_isSome, fun _ _ => ok.indexToPa_iff, decide_eq_true_iff, fun x =>
    ⟨ok.findRegionByIndex_scanned x, ok.indexToPa_scanned x, ok.paToIndex_scanned x, ok.paToRegion_scanned x⟩⟩

theorem pageTranslation_bijective_two :
    let high : MemRegionInfo := { base := 0x8000, size := 0x2000, firstIdx := 0, pageCount := 2 }
    let low : MemRegionInfo := { base := 0x4000, size := 0x1000, firstIdx := 2, pageCount := 1 }
    let layout := layoutOf { regions := [high, low], totalPages := 3 } high 0 []
    paToIndex layout 0x4000 = some 2 := by
  intro high low layout
  have all :=
    pageTranslation_bijective [⟨0x8000, 0x2000⟩, ⟨0x4000, 0x1000⟩] ⟨[high, low], 3⟩ high 0 [] rfl rfl
  exact (all.2.2.1 2 0x4000).mp (by decide +kernel)

theorem memoryInit_spec {boot : BootInputs} {m : PageAllocator} (started : memoryInit boot = some m) :
    ∃ layout, BootLayout layout ∧
      m = { buddyBuildInitialState (buddySetupMetadata layout) with memoryReady := true } := by
  simp only [memoryInit, Option.bind_eq_bind, Option.bind_eq_some_iff] at started
  obtain ⟨dtRegions, -, table, added, first, head, memreserve, -, reservedMemory, -,
    ⟨frameArray, range, reserves⟩,
    placed, built⟩ := started
  have tableOk : table.Ok := addRegions_ok .empty added
  have firstOk := tableOk.region first (List.mem_of_mem_head? (by simp [head]))
  have reservesOk := bootReserves_ok boot memreserve reservedMemory
  have small := tableOk.small
  have bytes : wrap64 (table.totalPages * frameMetaSize) = table.totalPages * frameMetaSize :=
    wrap64_of_lt (by unfold frameMetaSize; omega)
  rw [bytes] at placed
  obtain ⟨pos, inside, noWrap, -, rfl⟩ := startupAlloc_spec placed
  have regionStop : first.base + first.size ≤ maxU64 := Nat.le_sub_one_of_lt firstOk.stop_lt
  have rangeStop : (startupAllocatorInit first.base first.size).stop = first.base + first.size := by
    simp only [startupAllocatorInit, wrap64_of_lt firstOk.stop_lt]
    exact if_neg (by omega)
  have fits : wrap64 (frameArray + table.totalPages * frameMetaSize) =
      frameArray + table.totalPages * frameMetaSize := by
    unfold wrap64 frameMetaSize at *
    omega
  rw [rangeStop, fits] at inside
  have room : (bootReserves boot memreserve.1 reservedMemory.1).length < maxReserves := by
    have few := reservesOk.few
    unfold maxReserves at *
    omega
  have bound : frameArray < 2 ^ 64 := by
    unfold maxU64 at regionStop
    omega
  exact ⟨_, { ok := layoutOf_ok tableOk head frameArray _
              aligned := (reservesOk.reserve _ bound).aligned
              zero := (reservesOk.reserve _ bound).zero
              frames := memoryReserve_records pos (inside.trans regionStop) room },
    (Option.some.inj built).symm⟩

end OrangeKernel.Memory
