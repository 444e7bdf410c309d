import OrangeKernel.Memory.Address
import OrangeKernel.Memory.Run

set_option autoImplicit false

namespace OrangeKernel.Memory

open Machine AlignedBlock

structure Span where
  start : Nat
  size : Nat

def Span.Holds (span : Span) (x : Nat) : Prop := span.start ≤ x ∧ x < span.start + span.size

def Span.Meets (span : Span) (pa : Nat) : Prop := ∃ x, span.Holds x ∧ pa ≤ x ∧ x < pa + pageSize

def Span.Fits (span : Span) : Prop := span.start < 2 ^ 64 ∧ span.size < 2 ^ 64

def regionSpan (dt : FdtMemRegion) : Span := ⟨dt.base.toNat, dt.size.toNat⟩

def BootInputs.spans (boot : BootInputs) (memreserve reservedMemory : List FdtMemRegion) : List Span :=
  [⟨0, pageSize⟩,
    ⟨boot.dtbAddr.toNat, boot.dtbSize.toNat⟩,
    ⟨boot.physStart.toNat, (boot.physEnd - boot.physStart).toNat⟩,
    ⟨userCodeBase boot.board, userCodeSize⟩,
    ⟨boot.initrdStart.toNat, boot.initrdEnd.toNat - boot.initrdStart.toNat⟩] ++
  memreserve.map regionSpan ++ reservedMemory.map regionSpan

def frameSpan (m : PageAllocator) : Span := ⟨m.layout.frameArray, m.layout.managedPageCount * frameMetaSize⟩

def entries : Option RegionList → List FdtMemRegion
  | none => []
  | some list => list.1

theorem entries_length (found : Option RegionList) : (entries found).length ≤ fdtMaxMemRegions := by
  cases found with
  | none => exact Nat.zero_le _
  | some list => exact list.2

def BootInputs.occupied (boot : BootInputs) (m : PageAllocator) : List Span :=
  boot.spans (entries boot.memreserveRegions) (entries boot.reservedMemoryRegions) ++ [frameSpan m]

def CompletePage (found : List FdtMemRegion) (pa : Nat) : Prop :=
  pageSize ∣ pa ∧ ∃ dt ∈ found, dt.base.toNat ≤ pa ∧ pa + pageSize ≤ dt.base.toNat + dt.size.toNat

def OnFreeList (m : PageAllocator) (pa : Nat) : Prop :=
  ∃ order ≤ maxOrder, ∃ xs, RawList m (m.freeLists order) xs ∧ ∃ head ∈ xs, ∃ idx,
    Inside order head idx ∧
    indexToPa m.layout idx = some pa

def Span.rounded (span : Span) : ReserveRange :=
  { start := alignDown span.start pageSize, stop := reserveEnd span.start span.size }

def recorded (spans : List Span) : List ReserveRange :=
  (spans.filter fun span => span.size ≠ 0).map Span.rounded

theorem recorded_length (spans : List Span) : (recorded spans).length ≤ spans.length := by
  simpa [recorded] using List.length_filter_le _ spans

theorem recorded_snoc (spans : List Span) (span : Span) :
    recorded (spans ++ [span]) = if span.size = 0 then recorded spans else recorded spans ++ [span.rounded] := by
  by_cases empty : span.size = 0 <;> simp [recorded, List.filter_append, empty]

variable {span : Span}

theorem reserveEnd_cases (fits : span.Fits) :
    2 ^ 64 - pageSize < span.start + span.size ∧ reserveEnd span.start span.size = maxU64 ∨
    span.start + span.size ≤ 2 ^ 64 - pageSize ∧
      reserveEnd span.start span.size = (span.start + span.size + (pageSize - 1)) / pageSize * pageSize := by
  obtain ⟨low, small⟩ := fits
  have page : pageSize = 4096 := rfl
  have top : maxU64 = 2 ^ 64 - 1 := rfl
  unfold reserveEnd
  dsimp only
  by_cases wraps : 2 ^ 64 ≤ span.start + span.size
  · have wrapped : wrap64 (span.start + span.size) < span.start := by
      unfold wrap64
      omega
    rw [if_pos wrapped, if_pos (by omega)]
    exact Or.inl ⟨by omega, rfl⟩
  · have noWrap : ¬ span.start + span.size < span.start := by omega
    simp only [wrap64_of_lt (Nat.lt_of_not_le wraps), if_neg noWrap]
    by_cases last : span.start + span.size > maxU64 - (pageSize - 1)
    · rw [if_pos last]
      exact Or.inl ⟨by omega, rfl⟩
    · rw [if_neg last, alignUp_page (by omega)]
      exact Or.inr ⟨by omega, rfl⟩

variable {spans : List Span}

theorem memoryReserve_recorded (fits : span.Fits) (room : spans.length < maxReserves) :
    memoryReserve span.start span.size (recorded spans) = recorded (spans ++ [span]) := by
  have few := recorded_length spans
  rw [recorded_snoc, memoryReserve]
  by_cases empty : span.size = 0
  · rw [if_pos empty, if_pos empty]
  · have page : pageSize = 4096 := rfl
    have top : maxU64 = 2 ^ 64 - 1 := rfl
    have down := alignDown_page fits.1
    have low := Nat.div_mul_le_self span.start pageSize
    have start := fits.1
    have nonempty : alignDown span.start pageSize < reserveEnd span.start span.size := by
      rw [down]
      rcases reserveEnd_cases fits with ⟨-, stop⟩ | ⟨-, stop⟩ <;> rw [stop, page] <;> omega
    rw [if_neg empty, if_neg empty, if_neg (by omega), if_neg (by omega)]
    rfl

def reserveSpans (spans : List Span) (reserves : List ReserveRange) : List ReserveRange :=
  spans.foldl (fun table span => memoryReserve span.start span.size table) reserves

theorem reserveSpans_recorded {before : List Span} (fit : ∀ span ∈ spans, span.Fits)
    (room : before.length + spans.length ≤ maxReserves) :
    reserveSpans spans (recorded before) = recorded (before ++ spans) := by
  induction spans generalizing before with
  | nil => simp [reserveSpans]
  | cons span rest ih =>
    rw [List.length_cons] at room
    have one : memoryReserve span.start span.size (recorded before) = recorded (before ++ [span]) :=
      memoryReserve_recorded (fit span List.mem_cons_self) (by omega)
    have more := @ih (before ++ [span]) (fun s member => fit s (List.mem_cons_of_mem _ member)) (by simp; omega)
    rw [List.append_assoc, List.singleton_append] at more
    rw [← more, ← one]
    rfl

theorem BootInputs.spans_fit (boot : BootInputs) {memreserve reservedMemory : List FdtMemRegion} :
    ∀ span ∈ boot.spans memreserve reservedMemory, span.Fits := by
  have window : (⟨userCodeBase boot.board, userCodeSize⟩ : Span).Fits := by
    cases boot.board <;> exact ⟨by decide, by decide⟩
  have region : ∀ dt, (regionSpan dt).Fits := fun dt => ⟨dt.base.toNat_lt, dt.size.toNat_lt⟩
  intro span member
  simp only [BootInputs.spans, List.mem_append, List.mem_cons, List.not_mem_nil, or_false, List.mem_map] at member
  rcases member with ((rfl | rfl | rfl | rfl | rfl) | ⟨dt, -, rfl⟩) | ⟨dt, -, rfl⟩
  · exact ⟨by decide, by decide⟩
  · exact ⟨boot.dtbAddr.toNat_lt, boot.dtbSize.toNat_lt.trans (by decide)⟩
  · exact ⟨boot.physStart.toNat_lt, UInt64.toNat_lt _⟩
  · exact window
  · exact ⟨boot.initrdStart.toNat_lt, (Nat.sub_le _ _).trans_lt boot.initrdEnd.toNat_lt⟩
  · exact region dt
  · exact region dt

theorem memoryReserve_zero (start : Nat) (reserves : List ReserveRange) : memoryReserve start 0 reserves = reserves :=
  if_pos rfl

theorem bootReserves_recorded (boot : BootInputs) (memreserve reservedMemory : RegionList) :
    bootReserves boot memreserve.1 reservedMemory.1 = recorded (boot.spans memreserve.1 reservedMemory.1) := by
  -- Both guards skip reservations that would be empty anyway.
  have dtb : ∀ table, (if boot.dtbSize.toNat ≠ 0 then memoryReserve boot.dtbAddr.toNat boot.dtbSize.toNat table
      else table) = memoryReserve boot.dtbAddr.toNat boot.dtbSize.toNat table := by
    intro table
    by_cases empty : boot.dtbSize.toNat = 0
    · rw [if_neg (not_not.mpr empty), empty, memoryReserve_zero]
    · rw [if_pos empty]
  have initrd : ∀ table, (if boot.initrdStart < boot.initrdEnd
      then memoryReserve boot.initrdStart.toNat (boot.initrdEnd - boot.initrdStart).toNat table else table) =
      memoryReserve boot.initrdStart.toNat (boot.initrdEnd.toNat - boot.initrdStart.toNat) table := by
    intro table
    by_cases some : boot.initrdStart < boot.initrdEnd
    · rw [if_pos some, UInt64.toNat_sub_of_le _ _ (UInt64.le_of_lt some)]
    · have none : boot.initrdEnd.toNat - boot.initrdStart.toNat = 0 := by
        have order := UInt64.le_iff_toNat_le.mp (UInt64.not_lt.mp some)
        omega
      rw [if_neg some, none, memoryReserve_zero]
  have table : bootReserves boot memreserve.1 reservedMemory.1 =
      reserveSpans (boot.spans memreserve.1 reservedMemory.1) [] := by
    simp only [bootReserves, dtb, initrd, reserveSpans, BootInputs.spans, reserveAll, List.foldl_append,
      List.foldl_map, List.foldl_cons, List.foldl_nil, regionSpan]
  have few := memreserve.2
  have few' := reservedMemory.2
  rw [table]
  refine @reserveSpans_recorded _ [] boot.spans_fit ?_
  simp only [BootInputs.spans, List.length_append, List.length_map, List.length_cons, List.length_nil]
  unfold fdtMaxMemRegions at few few'
  unfold maxReserves
  omega

variable {pa : Nat}

theorem Span.rounded_iff (fits : span.Fits) (aligned : pageSize ∣ pa) (bound : pa + pageSize < 2 ^ 64) :
    span.size ≠ 0 ∧ span.rounded.start ≤ pa ∧ pa < span.rounded.stop ↔ span.Meets pa := by
  have page : pageSize = 4096 := rfl
  have top : maxU64 = 2 ^ 64 - 1 := rfl
  have down := alignDown_page fits.1
  obtain ⟨k, rfl⟩ := aligned
  have meets : span.Meets (pageSize * k) ↔
      span.size ≠ 0 ∧ span.start < pageSize * k + pageSize ∧ pageSize * k < span.start + span.size := by
    constructor
    · rintro ⟨x, ⟨low, high⟩, first, last⟩
      omega
    · rintro ⟨some, low, high⟩
      exact ⟨max span.start (pageSize * k), ⟨by omega, by omega⟩, by omega, by omega⟩
  rw [meets]
  simp only [Span.rounded, down]
  rcases reserveEnd_cases fits with ⟨far, stop⟩ | ⟨near, stop⟩ <;> rw [stop] <;> rw [page] at * <;> omega

theorem isReservedPa_iff (fit : ∀ span ∈ spans, span.Fits) {layout : Layout}
    (table : layout.reserves = recorded spans) (aligned : pageSize ∣ pa) (bound : pa + pageSize < 2 ^ 64) :
    isReservedPa layout pa = true ↔ ∃ span ∈ spans, span.Meets pa := by
  simp only [isReservedPa, table, recorded, List.any_eq_true, List.mem_map, List.mem_filter, Bool.and_eq_true,
    decide_eq_true_eq]
  constructor
  · rintro ⟨r, ⟨span, ⟨member, some⟩, rfl⟩, low, high⟩
    exact ⟨span, member, ((span.rounded_iff (fit span member) aligned bound).mp ⟨some, low, high⟩)⟩
  · rintro ⟨span, member, meets⟩
    obtain ⟨some, low, high⟩ := (span.rounded_iff (fit span member) aligned bound).mpr meets
    exact ⟨span.rounded, ⟨span, ⟨member, some⟩, rfl⟩, low, high⟩

def InTable (regions : List MemRegionInfo) (pa : Nat) : Prop :=
    ∃ r ∈ regions, r.base ≤ pa ∧ pa < r.base + r.size

theorem addRegion_pages {table table' : RegionTable} {dt : FdtMemRegion} (added : addRegion table dt = some table')
    (below : dt.base.toNat + dt.size.toNat < 2 ^ 64) (aligned : pageSize ∣ pa) :
    (InTable table'.regions pa ↔ InTable table.regions pa ∨
      dt.base.toNat ≤ pa ∧ pa + pageSize ≤ dt.base.toNat + dt.size.toNat) ∧
    table'.regions.length ≤ table.regions.length + 1 := by
  have page : pageSize = 4096 := rfl
  have top : maxU64 = 2 ^ 64 - 1 := rfl
  obtain ⟨k, rfl⟩ := aligned
  unfold addRegion at added
  split at added
  · simp at added
  next low =>
  have range : pageRange dt = ((dt.base.toNat + (pageSize - 1)) / pageSize * pageSize,
      (dt.base.toNat + dt.size.toNat) / pageSize * pageSize) := by
    simp only [pageRange, wrap64_of_lt below, if_neg (Nat.not_lt.mpr (Nat.le_add_right dt.base.toNat dt.size.toNat)),
      alignDown_page below]
    rw [alignUp_page (by omega)]
  simp only [range] at added
  -- Without a whole page between the rounded bounds the region adds nothing.
  have nothing : ∀ {t : RegionTable}, (dt.base.toNat + dt.size.toNat) / pageSize * pageSize ≤
      (dt.base.toNat + (pageSize - 1)) / pageSize * pageSize → (InTable t.regions (pageSize * k) ↔
        InTable t.regions (pageSize * k) ∨ dt.base.toNat ≤ pageSize * k ∧
          pageSize * k + pageSize ≤ dt.base.toNat + dt.size.toNat) := by
    intro t empty
    refine ⟨Or.inl, fun either => either.resolve_right fun inside => ?_⟩
    rw [page] at *
    omega
  split at added
  next empty =>
    cases added
    exact ⟨nothing empty, Nat.le_succ _⟩
  split at added
  next none =>
    cases added
    exact ⟨nothing (by rw [page] at *; omega), Nat.le_succ _⟩
  split at added
  · simp at added
  split at added
  · simp at added
  · cases added
    refine ⟨?_, by simp [appendRegion]⟩
    simp only [InTable, appendRegion, List.mem_append, List.mem_singleton, or_and_right, exists_or, exists_eq_left]
    refine or_congr Iff.rfl ?_
    rw [page] at *
    omega

theorem addRegions_pages {found : List FdtMemRegion} {table table' : RegionTable}
    (added : addRegions found table = some table')
    (below : ∀ dt ∈ found, dt.base.toNat + dt.size.toNat < 2 ^ 64)
    (room : table.regions.length + found.length ≤ fdtMaxMemRegions) (aligned : pageSize ∣ pa) :
    InTable table'.regions pa ↔ InTable table.regions pa ∨ CompletePage found pa := by
  induction found generalizing table with
  | nil =>
    cases added
    simp [CompletePage]
  | cons dt rest ih =>
    rw [List.length_cons] at room
    simp only [addRegions] at added
    rw [if_pos (by omega)] at added
    obtain ⟨middle, one, more⟩ := Option.bind_eq_some_iff.mp added
    obtain ⟨pages, grown⟩ := addRegion_pages one (below dt List.mem_cons_self) aligned
    rw [ih more (fun d member => below d (List.mem_cons_of_mem _ member)) (by omega), pages]
    simp only [CompletePage, List.mem_cons, or_and_right, exists_or, exists_eq_left, and_or_left,
      aligned, true_and, or_assoc]

theorem Layout.Ok.indexToPa_exists {layout : Layout} (ok : layout.Ok) :
    (∃ idx, indexToPa layout idx = some pa) ↔ pageSize ∣ pa ∧ InTable layout.regions pa := by
  constructor
  · rintro ⟨idx, found⟩
    obtain ⟨r, member, contains, rfl⟩ := ok.contains_of_indexToPa found
    have bound := (ok.region r member).addr_lt contains
    have page := (ok.region r member).addr_aligned idx
    refine ⟨Nat.dvd_of_mod_eq_zero page, r, member, Nat.le_add_right _ _, ?_⟩
    unfold MemRegionInfo.stop at bound
    have pos : 0 < pageSize := by decide
    omega
  · rintro ⟨aligned, r, member, low, high⟩
    have rOk := ok.region r member
    have base := Nat.dvd_of_mod_eq_zero rOk.base_aligned
    obtain ⟨j, offset⟩ := Nat.dvd_sub aligned base
    have size := rOk.size_eq
    have few : j < r.pageCount := by
      unfold pageSize at *
      omega
    have contains : r.Contains (r.firstIdx + j) := by
      unfold MemRegionInfo.Contains
      omega
    refine ⟨r.firstIdx + j, ?_⟩
    rw [ok.indexToPa_eq member contains]
    unfold MemRegionInfo.addr
    rw [Nat.add_sub_cancel_left, Nat.mul_comm, ← offset]
    exact congrArg some (by omega)

theorem encodeLink_inj {x y : Option Nat} (same : encodeLink x = encodeLink y) : x = y := by
  cases x <;> cases y <;> simp_all [encodeLink]

variable {m : PageAllocator}

theorem RawList.unique {first : Int} {xs ys : List Nat} (left : RawList m first xs)
    (right : RawList m first ys) : xs = ys := by
  have rest : ∀ (r r' l : List Nat), xs = l ++ r → ys = l ++ r' → r.head? = r'.head? → r = r' := by
    intro r
    induction r with
    | nil =>
      intro r' l _ _ heads
      cases r' with
      | nil => rfl
      | cons y r' => cases heads
    | cons x r ih =>
      intro r' l splitX splitY heads
      cases r' with
      | nil => cases heads
      | cons y r' =>
        obtain rfl : x = y := Option.some.inj heads
        have next := encodeLink_inj ((left.next l x r splitX).symm.trans (right.next l x r' splitY))
        rw [ih r' (l ++ [x]) (by simpa using splitX) (by simpa using splitY) next]
  exact rest xs ys [] rfl rfl (encodeLink_inj (left.first.symm.trans right.first))

theorem PagesOk.onFreeList_iff {owner : Nat → Owner} (ok : PagesOk m owner) :
    OnFreeList m pa ↔ ∃ idx < m.layout.managedPageCount, indexToPa m.layout idx = some pa ∧
    (owner idx).IsFree := by
  constructor
  · rintro ⟨order, small, xs, list, head, member, idx, inside, addr⟩
    obtain ⟨ys, list', members⟩ := ok.invariant.lists order small
    obtain rfl := list.unique list'
    obtain ⟨bound, owned⟩ := ok.freeBlock_iff.mp ((members head).mp member)
    obtain ⟨inRange, same⟩ := (ok.block_of_head bound (by rw [owned]; rfl)).2 idx inside
    exact ⟨idx, inRange, addr, by rw [same, owned]; trivial⟩
  · rintro ⟨idx, bound, addr, free⟩
    obtain ⟨order, head, owned⟩ := Owner.isFree_iff.mp free
    obtain ⟨⟨inRange, atHead⟩, inside⟩ := (ok.in_block_iff (o := .free order head) bound rfl).mpr owned
    have block : FreeBlock m order head := ok.freeBlock_iff.mpr ⟨inRange, atHead⟩
    have small := (ok.invariant.free_block order head block).1
    obtain ⟨xs, list, members⟩ := ok.invariant.lists order small
    exact ⟨order, small, xs, list, head, (members head).mpr block, idx, inside, addr⟩

variable {boot : BootInputs}

theorem memoryInit_tables (started : memoryInit boot = some m) :
    (∃ dts table, boot.memoryRegions = some dts ∧
      addRegions dts.1 { regions := [], totalPages := 0 } = some table ∧ m.layout.regions = table.regions) ∧
    m.layout.reserves = recorded (boot.occupied m) ∧ ∀ span ∈ boot.occupied m, span.Fits := by
  simp only [memoryInit, Option.bind_eq_bind, Option.bind_eq_some_iff] at started
  obtain ⟨dts, memory, table, added, first, head, memreserve, map, reservedMemory, nodes,
    ⟨frameArray, range, reserves⟩,
    placed, built⟩ := started
  cases built
  have empty := RegionTable.Ok.empty
  have small := (addRegions_ok empty added).small
  have bytes : wrap64 (table.totalPages * frameMetaSize) = table.totalPages * frameMetaSize :=
    wrap64_of_lt (by unfold frameMetaSize; omega)
  rw [bytes] at placed
  obtain ⟨pos, inside, noWrap, -, rfl⟩ := startupAlloc_spec placed
  obtain ⟨owner, -, kept, -⟩ := buddyBuildInitialState_spec (layoutOf_ok (addRegions_ok empty added) head frameArray
    (memoryReserve frameArray (table.totalPages * frameMetaSize) (bootReserves boot memreserve.1 reservedMemory.1)))
  have layout := kept.layout
  have frames : Span.Fits ⟨frameArray, table.totalPages * frameMetaSize⟩ := by
    have bound := wrap64_lt (frameArray + table.totalPages * frameMetaSize)
    exact ⟨by dsimp only; omega, by unfold frameMetaSize; dsimp only; omega⟩
  have few := memreserve.2
  have few' := reservedMemory.2
  have room : (boot.spans memreserve.1 reservedMemory.1).length < maxReserves := by
    simp only [BootInputs.spans, List.length_append, List.length_map, List.length_cons, List.length_nil]
    unfold fdtMaxMemRegions at few few'
    unfold maxReserves
    omega
  have occupied : boot.occupied { buddyBuildInitialState (buddySetupMetadata (layoutOf table first frameArray
      (memoryReserve frameArray (table.totalPages * frameMetaSize) (bootReserves boot memreserve.1
        reservedMemory.1)))) with memoryReady := true } =
      boot.spans memreserve.1 reservedMemory.1 ++ [⟨frameArray, table.totalPages * frameMetaSize⟩] := by
    simp only [BootInputs.occupied, map, nodes, entries, frameSpan, layout]
    rfl
  refine ⟨⟨dts, table, memory, added, congrArg Layout.regions layout⟩, ?_, ?_⟩
  · rw [occupied, ← memoryReserve_recorded frames room, ← bootReserves_recorded]
    exact congrArg Layout.reserves layout
  · rw [occupied]
    intro span member
    rcases List.mem_append.mp member with early | last
    · exact boot.spans_fit span early
    · exact List.mem_singleton.mp last ▸ frames

theorem BootInputs.occupied_length (boot : BootInputs) (m : PageAllocator) :
    (boot.occupied m).length ≤ maxReserves := by
  have memreserve := entries_length boot.memreserveRegions
  have reservedMemory := entries_length boot.reservedMemoryRegions
  simp only [BootInputs.occupied, BootInputs.spans, List.length_append, List.length_map, List.length_cons,
    List.length_nil]
  unfold fdtMaxMemRegions at memreserve reservedMemory
  unfold maxReserves
  omega

theorem memoryInit_reserved (started : memoryInit boot = some m) {idx : Nat}
    (addr : indexToPa m.layout idx = some pa) :
    pageReserved m.layout idx = true ↔ ∃ span ∈ boot.occupied m, span.Meets pa := by
  obtain ⟨-, table, fit⟩ := memoryInit_tables started
  obtain ⟨owner, ok, -⟩ := memoryInit_pagesOk started
  obtain ⟨r, member, contains, rfl⟩ := ok.boot.ok.contains_of_indexToPa addr
  have rOk := ok.boot.ok.region r member
  have bound := rOk.addr_lt contains
  have stop := rOk.stop_lt
  rw [pageReserved, addr]
  unfold MemRegionInfo.stop at bound
  exact isReservedPa_iff fit table (Nat.dvd_of_mod_eq_zero (rOk.addr_aligned idx)) (by omega)

theorem memoryInit_onFreeList (started : memoryInit boot = some m)
    {dts : RegionList} (memory : boot.memoryRegions = some dts)
    (below : ∀ dt ∈ dts.1, dt.base.toNat + dt.size.toNat < 2 ^ 64) (pa : Nat) :
    OnFreeList m pa ↔ CompletePage dts.1 pa ∧ ∀ span ∈ boot.occupied m, ¬ span.Meets pa := by
  obtain ⟨⟨dts', table, memory', added, regions⟩, -⟩ := memoryInit_tables started
  obtain rfl : dts = dts' := Option.some.inj (memory.symm.trans memory')
  obtain ⟨owner, ok, placed, -⟩ := memoryInit_pagesOk started
  have declared : (∃ idx, indexToPa m.layout idx = some pa) ↔ CompletePage dts.1 pa := by
    rw [ok.boot.ok.indexToPa_exists, regions]
    constructor
    · rintro ⟨aligned, inside⟩
      rcases (addRegions_pages added below (by simpa using dts.2) aligned).mp inside with old | complete
      · obtain ⟨r, member, -⟩ := old
        simp at member
      · exact complete
    · intro complete
      exact ⟨complete.1, (addRegions_pages added below (by simpa using dts.2) complete.1).mpr (Or.inr complete)⟩
  have free : ∀ idx, indexToPa m.layout idx = some pa → idx < m.layout.managedPageCount →
      ((owner idx).IsFree ↔ ∀ span ∈ boot.occupied m, ¬ span.Meets pa) := by
    intro idx addr bound
    have reserved := memoryInit_reserved started addr
    have at' := placed idx bound
    unfold Placed at at'
    split at at'
    next isReserved =>
      obtain ⟨span, member, meets⟩ := reserved.mp isReserved
      exact ⟨fun isFree => by simp [at', Owner.IsFree] at isFree, fun none => absurd meets (none span member)⟩
    next open' =>
      exact ⟨fun _ span member meets => open' (reserved.mpr ⟨span, member, meets⟩), fun _ => at'⟩
  rw [ok.onFreeList_iff, ← declared]
  constructor
  · rintro ⟨idx, bound, addr, isFree⟩
    exact ⟨⟨idx, addr⟩, (free idx addr bound).mp isFree⟩
  · rintro ⟨⟨idx, addr⟩, clear⟩
    obtain ⟨r, member, contains, -⟩ := ok.boot.ok.contains_of_indexToPa addr
    have bound := ok.boot.ok.contains_lt member contains
    exact ⟨idx, bound, addr, (free idx addr bound).mpr clear⟩

end OrangeKernel.Memory
