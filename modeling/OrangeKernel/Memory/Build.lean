import OrangeKernel.Memory.Initial

set_option autoImplicit false

namespace OrangeKernel.Memory

open Machine AlignedBlock Intrusive

def pageReserved (layout : Layout) (idx : Nat) : Bool :=
  (indexToPa layout idx).any (isReservedPa layout)

def Fresh (layout : Layout) (owner : Nat → Owner) (idx : Nat) : Prop :=
  owner idx = if pageReserved layout idx then .reserved else .held

def Placed (layout : Layout) (owner : Nat → Owner) (idx : Nat) : Prop :=
  if pageReserved layout idx then owner idx = .reserved else (owner idx).IsFree

variable {layout : Layout} {r : MemRegionInfo} {p : Nat}

theorem pageReserved_eq (ok : layout.Ok) (member : r ∈ layout.regions) (bound : p < r.pageCount) :
    pageReserved layout (r.firstIdx + p) = isReservedPa layout (wrap64 (r.base + p * pageSize)) := by
  have contains : r.Contains (r.firstIdx + p) := by unfold MemRegionInfo.Contains; omega
  have inside := (ok.region r member).addr_lt contains
  have stop := (ok.region r member).stop_lt
  unfold MemRegionInfo.addr at inside
  rw [Nat.add_sub_cancel_left] at inside
  have small : r.base + p * pageSize < 2 ^ 64 := by
    unfold MemRegionInfo.stop pageSize at *
    omega
  rw [pageReserved, ok.indexToPa_eq member contains, wrap64_of_lt small]
  simp [MemRegionInfo.addr]

structure Scanning (r : MemRegionInfo) (m : PageAllocator) (owner : Nat → Owner) (p runLen : Nat) : Prop where
  rep : Rep m owner
  apart : NoFreeBuddies m.layout owner
  fits : runLen ≤ p ∧ p ≤ r.pageCount
  fresh : ∀ q, p ≤ q + runLen → q < r.pageCount → Fresh m.layout owner (r.firstIdx + q)
  run : ∀ q, p ≤ q + runLen → q < p → pageReserved m.layout (r.firstIdx + q) = false
  placed : ∀ q, q + runLen < p → Placed m.layout owner (r.firstIdx + q)
  edge : ∀ q, q + 1 + runLen = p → owner (r.firstIdx + q) = .reserved

variable {m : PageAllocator} {owner : Nat → Owner} {runLen : Nat}

theorem Scanning.outside {idx : Nat}
    (scanning : Scanning r m owner p runLen) (away : ¬ r.Contains idx) :
    idx < r.firstIdx + (p - runLen) ∨ r.firstIdx + (p - runLen) + runLen ≤ idx := by
  have fits := scanning.fits
  unfold MemRegionInfo.Contains at away
  omega

def flushRun (r : MemRegionInfo) (runStart runLen : Nat) (m : PageAllocator) : PageAllocator :=
  if 0 < runLen then addFreeRun r.firstIdx runStart runLen m else m

theorem flushRun_spec {runStart : Nat}
    (scanning : Scanning r m owner p runLen) (member : r ∈ m.layout.regions)
    (start : 0 < runLen → runStart + runLen = p)
    (closed : p < r.pageCount → pageReserved m.layout (r.firstIdx + p) = true) :
    ∃ owner', Rep (flushRun r runStart runLen m) owner' ∧ Kept m (flushRun r runStart runLen m) ∧
      NoFreeBuddies m.layout owner' ∧ RunFreed owner owner' r.firstIdx (p - runLen) runLen := by
  obtain ⟨runFits, inRegion⟩ := scanning.fits
  unfold flushRun
  by_cases pending : 0 < runLen
  · obtain rfl : runStart = p - runLen := by have := start pending; omega
    rw [if_pos pending]
    have held : ∀ q, p - runLen ≤ q → q < p - runLen + runLen → owner (r.firstIdx + q) = .held := by
      intro q low high
      have isFresh := scanning.fresh q (by omega) (by omega)
      unfold Fresh at isFresh
      simpa [scanning.run q (by omega) (by omega)] using isFresh
    have after : p - runLen + runLen < r.pageCount →
        ¬ (owner (r.firstIdx + (p - runLen + runLen))).IsFree := by
      rw [Nat.sub_add_cancel runFits]
      intro more
      have isFresh := scanning.fresh p (by omega) more
      unfold Fresh at isFresh
      rw [isFresh, if_pos (closed more)]
      exact id
    have edge : LeftEdge owner r.firstIdx (p - runLen) runLen := by
      -- A free block ending here would contain the reserved page before the run.
      intro order left _ _ ends owned
      have pos := Nat.two_pow_pos order
      have bound : r.firstIdx + left < m.layout.managedPageCount := by
        have := scanning.rep.layout_ok.region_end_le member
        omega
      have whole := (scanning.rep.block _ bound order (r.firstIdx + left) (by rw [owned]; rfl)).2.2
        (r.firstIdx + (p - runLen - 1)) (by unfold Inside; omega)
      rw [owned, scanning.edge (p - runLen - 1) (by omega)] at whole
      simp at whole
    obtain ⟨owner', rep, kept, freed, apart⟩ := addFreeRunFrom_spec runLen scanning.rep member
      (Nat.le_refl _) (by omega) held after edge scanning.apart
    exact ⟨owner', rep, kept, apart, freed⟩
  · rw [if_neg pending]
    exact ⟨owner, scanning.rep, Kept.refl m, scanning.apart, fun q low high => by omega, fun _ _ => rfl⟩

theorem RunFreed.placed {owner' : Nat → Owner}
    (scanning : Scanning r m owner p runLen) (freed : RunFreed owner owner' r.firstIdx (p - runLen) runLen)
    {q : Nat} (before : q < p) : Placed m.layout owner' (r.firstIdx + q) := by
  have fits := scanning.fits
  by_cases inRun : p ≤ q + runLen
  · unfold Placed
    rw [scanning.run q inRun before]
    exact freed.freed q (by omega) (by omega)
  · have old := scanning.placed q (by omega)
    unfold Placed at old ⊢
    rwa [freed.other _ (by omega)]

theorem RunFreed.fresh {owner' : Nat → Owner}
    (scanning : Scanning r m owner p runLen) (freed : RunFreed owner owner' r.firstIdx (p - runLen) runLen)
    {q : Nat} (low : p ≤ q) (high : q < r.pageCount) : Fresh m.layout owner' (r.firstIdx + q) := by
  have fits := scanning.fits
  unfold Fresh
  rw [freed.other _ (by omega)]
  exact scanning.fresh q (by omega) high

theorem Rep.mark_reserved (rep : Rep m owner) {idx : Nat}
    (bound : idx < m.layout.managedPageCount) (owned : owner idx = .reserved) :
    Rep { m with frames := setState idx frameUsed m.frames } owner := by
  refine rep.congr rfl rfl fun p => ⟨?_, setState_prev .., setState_next ..⟩
  rw [setState_state]
  split
  next same =>
    rw [same, rep.tag idx bound (by simp [owned]), owned]
    rfl
  · rfl

theorem scanRegion_spec (left : Nat)
    {runStart : Nat} (scanning : Scanning r m owner p runLen) (member : r ∈ m.layout.regions)
    (start : 0 < runLen → runStart + runLen = p) (rest : p + left = r.pageCount) :
    ∃ owner', Rep (scanRegion r left p runStart runLen m) owner' ∧
      Kept m (scanRegion r left p runStart runLen m) ∧ NoFreeBuddies m.layout owner' ∧
      (∀ q < r.pageCount, Placed m.layout owner' (r.firstIdx + q)) ∧
      ∀ idx, ¬ r.Contains idx → owner' idx = owner idx := by
  induction left generalizing m owner p runStart runLen with
  | zero =>
    obtain ⟨owner', rep, kept, apart, freed⟩ := flushRun_spec scanning member start (by omega)
    refine ⟨owner', rep, kept, apart, fun q bound => freed.placed scanning (by omega), fun idx away => ?_⟩
    exact freed.other idx (scanning.outside away)
  | succ left ih =>
    have ok := scanning.rep.layout_ok
    have here : p < r.pageCount := by omega
    have contains : r.Contains (r.firstIdx + p) := by unfold MemRegionInfo.Contains; omega
    simp only [scanRegion, ← pageReserved_eq ok member here]
    by_cases reserved : pageReserved m.layout (r.firstIdx + p) = true
    · rw [if_pos reserved]
      obtain ⟨owner', rep, kept, apart, freed⟩ := flushRun_spec scanning member start (fun _ => reserved)
      have ownedHere : owner' (r.firstIdx + p) = .reserved := by
        have isFresh := freed.fresh scanning (Nat.le_refl p) here
        unfold Fresh at isFresh
        rwa [if_pos reserved] at isFresh
      let flushed := flushRun r runStart runLen m
      let marked : PageAllocator :=
        { flushed with
          frames := setState (r.firstIdx + p) frameUsed flushed.frames }
      have keptMarked : Kept m marked := kept.trans ⟨rfl, rfl, fun q => setState_kind .., rfl, rfl⟩
      have layout : marked.layout = m.layout := keptMarked.layout
      have next : Scanning r marked owner' (p + 1) 0 :=
        { rep := rep.mark_reserved (by rw [kept.layout]; exact ok.contains_lt member contains) ownedHere
          apart := layout ▸ apart
          fits := ⟨Nat.zero_le _, here⟩
          fresh := by
            rw [layout]
            exact fun q low high => freed.fresh scanning (by omega) high
          run := fun q low high => by omega
          placed := by
            rw [layout]
            intro q before
            by_cases same : q = p
            · unfold Placed
              rw [same, if_pos reserved]
              exact ownedHere
            · exact freed.placed scanning (by omega)
          edge := by
            intro q same
            rwa [show q = p by omega] }
      obtain ⟨owner'', rep', kept', apart', placed, other⟩ := ih next (layout ▸ member)
        (fun pos => absurd pos (Nat.lt_irrefl 0)) (by omega)
      rw [layout] at apart' placed
      refine ⟨owner'', rep', keptMarked.trans kept', apart', placed, fun idx away => ?_⟩
      rw [other idx away, freed.other idx (scanning.outside away)]
    · rw [if_neg reserved]
      have free : pageReserved m.layout (r.firstIdx + p) = false := by simpa using reserved
      have fits := scanning.fits
      have next : Scanning r m owner (p + 1) (runLen + 1) :=
        { rep := scanning.rep
          apart := scanning.apart
          fits := ⟨by omega, here⟩
          fresh := fun q low high => scanning.fresh q (by omega) high
          run := by
            intro q low high
            by_cases same : q = p
            · rw [same, free]
            · exact scanning.run q (by omega) (by omega)
          placed := fun q before => scanning.placed q (by omega)
          edge := fun q same => scanning.edge q (by omega) }
      exact ih next member (by intro _; split <;> omega) (by omega)

theorem buddySetupMetadata_rep (ok : layout.Ok) :
    Rep (buddySetupMetadata layout) (fun idx => if pageReserved layout idx then .reserved else .held) where
  layout_ok := ok
  tag := by
    intro p _ owned
    split at owned
    next reserved => simp [buddySetupMetadata, reserved, Owner.tag]
    · exact absurd rfl owned
  block := by
    intro p _ order head block
    split at block <;> simp [Owner.block] at block
  lists := by
    intro order _
    refine ⟨[], ⟨rfl, trivial, trivial⟩, fun idx => ?_⟩
    split <;> simp
  links_ge := fun _ => ⟨by simp [buddySetupMetadata], by simp [buddySetupMetadata]⟩

theorem scanRegions_spec (regions : List MemRegionInfo) {first : Nat}
    (rep : Rep m owner) (apart : NoFreeBuddies m.layout owner) (consecutive : Consecutive first regions)
    (members : ∀ r ∈ regions, r ∈ m.layout.regions)
    (total : first + totalPages regions = m.layout.managedPageCount)
    (fresh : ∀ idx, first ≤ idx → idx < m.layout.managedPageCount → Fresh m.layout owner idx)
    (placed : ∀ idx < first, Placed m.layout owner idx) :
    ∃ owner', Rep (regions.foldl (fun state r => scanRegion r r.pageCount 0 0 0 state) m) owner' ∧
      Kept m (regions.foldl (fun state r => scanRegion r r.pageCount 0 0 0 state) m) ∧
      NoFreeBuddies m.layout owner' ∧ ∀ idx < m.layout.managedPageCount, Placed m.layout owner' idx := by
  induction regions generalizing first m owner with
  | nil =>
    refine ⟨owner, rep, Kept.refl m, apart, fun idx bound => placed idx ?_⟩
    simp [totalPages] at total
    omega
  | cons r rest ih =>
    obtain ⟨same, tail⟩ := consecutive
    have member := members r List.mem_cons_self
    have inRange := rep.layout_ok.region_end_le member
    have scanning : Scanning r m owner 0 0 :=
      { rep := rep
        apart := apart
        fits := ⟨Nat.le_refl _, Nat.zero_le _⟩
        fresh := fun q _ high => fresh _ (by omega) (by omega)
        run := fun q _ high => by omega
        placed := fun q high => by omega
        edge := fun q high => by omega }
    obtain ⟨owner', rep', kept, apart', placedHere, other⟩ := scanRegion_spec r.pageCount scanning member
      (fun pos => absurd pos (Nat.lt_irrefl 0)) (Nat.zero_add _)
    have restTotal : first + r.pageCount + totalPages rest = m.layout.managedPageCount := by
      simpa [totalPages, Nat.add_assoc] using total
    have restFresh : ∀ idx, first + r.pageCount ≤ idx → idx < m.layout.managedPageCount →
        Fresh m.layout owner' idx := by
      intro idx low high
      unfold Fresh
      rw [other idx (by unfold MemRegionInfo.Contains; omega)]
      exact fresh idx (by omega) high
    have restPlaced : ∀ idx < first + r.pageCount, Placed m.layout owner' idx := by
      intro idx bound
      by_cases here : first ≤ idx
      · have at' := placedHere (idx - r.firstIdx) (by omega)
        rwa [show r.firstIdx + (idx - r.firstIdx) = idx by omega] at at'
      · have old := placed idx (by omega)
        unfold Placed at old ⊢
        rwa [other idx (by unfold MemRegionInfo.Contains; omega)]
    obtain ⟨owner'', rep'', kept', apart'', all⟩ := ih rep' (kept.layout.symm ▸ apart') tail
      (by rw [kept.layout]; exact fun s inRest => members s (List.mem_cons_of_mem _ inRest))
      (kept.layout.symm ▸ restTotal) (kept.layout.symm ▸ restFresh) (kept.layout.symm ▸ restPlaced)
    rw [kept.layout] at apart'' all
    exact ⟨owner'', rep'', kept.trans kept', apart'', all⟩

theorem buddyBuildInitialState_spec (ok : layout.Ok) :
    ∃ owner, Rep (buddyBuildInitialState (buddySetupMetadata layout)) owner ∧
      Kept (buddySetupMetadata layout) (buddyBuildInitialState (buddySetupMetadata layout)) ∧
      NoFreeBuddies layout owner ∧ ∀ idx < layout.managedPageCount, Placed layout owner idx := by
  have none : NoFreeBuddies layout (fun idx => if pageReserved layout idx then .reserved else .held) := by
    intro r _ order _ start _ _ owned
    beta_reduce at owned
    split at owned <;> simp at owned
  exact scanRegions_spec layout.regions (buddySetupMetadata_rep ok) none ok.consecutive
    (fun _ member => member) (by rw [Nat.zero_add]; exact ok.total.symm) (fun _ _ _ => rfl)
    (fun _ bound => absurd bound (Nat.not_lt_zero _))

end OrangeKernel.Memory
