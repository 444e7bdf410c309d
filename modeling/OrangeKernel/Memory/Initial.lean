import OrangeKernel.Memory.Alloc

set_option autoImplicit false

namespace OrangeKernel.Memory

open Machine AlignedBlock Intrusive

theorem floorLog2From_spec {v fuel n : Nat} (low : 2 ^ n ≤ v) (high : v < 2 ^ (n + 1 + fuel)) :
    2 ^ floorLog2From v fuel n ≤ v ∧ v < 2 ^ (floorLog2From v fuel n + 1) := by
  induction fuel generalizing n with
  | zero => exact ⟨low, high⟩
  | succ fuel ih =>
    simp only [floorLog2From]
    split
    next more => exact ih more (by rwa [Nat.add_right_comm (n + 1)])
    next enough => exact ⟨low, Nat.not_le.mp enough⟩

theorem floorLog2_spec {v : Nat} (pos : 0 < v) : 2 ^ floorLog2 v ≤ v ∧ v < 2 ^ (floorLog2 v + 1) := by
  apply floorLog2From_spec
  · exact pos
  · have grows := Nat.lt_two_pow_self (n := v)
    have more : 2 ^ v ≤ 2 ^ (0 + 1 + v) := Nat.pow_le_pow_right (by decide) (by omega)
    omega

theorem alignOrder_spec (runStart order : Nat) :
    alignOrder runStart order ≤ order ∧ 2 ^ alignOrder runStart order ∣ runStart ∧
      (alignOrder runStart order < order → ¬ 2 ^ (alignOrder runStart order + 1) ∣ runStart) := by
  induction order with
  | zero => simp [alignOrder]
  | succ order ih =>
    have mask : runStart &&& (2 ^ (order + 1) - 1) = runStart % 2 ^ (order + 1) :=
      Nat.and_two_pow_sub_one_eq_mod runStart (order + 1)
    simp only [alignOrder, mask]
    by_cases aligned : runStart % 2 ^ (order + 1) = 0
    · rw [if_neg (not_not.mpr aligned)]
      exact ⟨Nat.le_refl _, Nat.dvd_of_mod_eq_zero aligned, fun less => absurd less (Nat.lt_irrefl _)⟩
    · rw [if_pos aligned]
      refine ⟨ih.1.trans (Nat.le_succ _), ih.2.1, fun _ => ?_⟩
      by_cases less : alignOrder runStart order < order
      · exact ih.2.2 less
      · have same : alignOrder runStart order = order := Nat.le_antisymm ih.1 (Nat.not_lt.mp less)
        rw [same]
        exact fun divides => aligned (Nat.mod_eq_zero_of_dvd divides)

theorem runOrder_spec (runStart : Nat) {runPages : Nat} (pos : 0 < runPages) :
    runOrder runStart runPages ≤ maxOrder ∧ 2 ^ runOrder runStart runPages ≤ runPages ∧
      2 ^ runOrder runStart runPages ∣ runStart ∧
      (runOrder runStart runPages < maxOrder → 2 ^ (runOrder runStart runPages + 1) ∣ runStart →
        runPages < 2 ^ (runOrder runStart runPages + 1)) := by
  obtain ⟨bound, aligned, maximal⟩ := alignOrder_spec runStart (min (floorLog2 runPages) maxOrder)
  obtain ⟨fits, short⟩ := floorLog2_spec pos
  change runOrder runStart runPages ≤ _ at bound
  refine ⟨by omega, ?_, aligned, fun small larger => ?_⟩
  · exact (Nat.pow_le_pow_right (by decide) (by omega)).trans fits
  · by_contra long
    have less : runOrder runStart runPages < min (floorLog2 runPages) maxOrder := by
      by_contra notLess
      have same : runOrder runStart runPages = floorLog2 runPages := by omega
      rw [same] at long
      exact long short
    exact maximal less larger

def runBlocks : (fuel runStart runPages : Nat) → Option (List (Nat × Nat))
  | 0, _, _ => none
  | fuel + 1, runStart, runPages =>
    if runPages = 0 then some []
    else
      let order := runOrder runStart runPages
      (runBlocks fuel (runStart + 2 ^ order) (runPages - 2 ^ order)).map ((order, runStart) :: ·)

def pushBlock (firstIdx : Nat) (m : PageAllocator) (block : Nat × Nat) : PageAllocator :=
  freelistPush block.1 (firstIdx + block.2) (blockMarkFree (firstIdx + block.2) block.1 m)

structure Tiles (start len : Nat) (blocks : List (Nat × Nat)) : Prop where
  canonical : Canonical maxOrder fun order first => (order, first) ∈ blocks
  within : ∀ b ∈ blocks, start ≤ b.2 ∧ b.2 + 2 ^ b.1 ≤ start + len
  covered : ∀ p, start ≤ p → p < start + len → Covered (fun order first => (order, first) ∈ blocks) p
  apart : blocks.Pairwise fun b b' => b.2 + 2 ^ b.1 ≤ b'.2

theorem Tiles.empty (start : Nat) : Tiles start 0 [] :=
  ⟨⟨by simp, by simp, by simp, by simp⟩, by simp, fun p low high => absurd high (Nat.not_lt.mpr low), .nil⟩

variable {start len order : Nat}

theorem Tiles.cons {blocks : List (Nat × Nat)} (short : 2 ^ order ≤ len)
    (tiles : Tiles (start + 2 ^ order) (len - 2 ^ order) blocks) (small : order ≤ maxOrder)
    (aligned : 2 ^ order ∣ start)
    (maximal : order < maxOrder → 2 ^ (order + 1) ∣ start → len < 2 ^ (order + 1)) :
    Tiles start len ((order, start) :: blocks) := by
  have pos := Nat.two_pow_pos order
  have later : ∀ b ∈ blocks, start + 2 ^ order ≤ b.2 ∧ b.2 + 2 ^ b.1 ≤ start + len := by
    intro b member
    have within := tiles.within b member
    omega
  constructor
  · refine tiles.canonical.cons later small aligned fun less even => ?_
    have := maximal less even
    omega
  · refine List.forall_mem_cons.mpr ⟨⟨Nat.le_refl start, by dsimp only; omega⟩, fun b member => ?_⟩
    have after := later b member
    omega
  · intro p low high
    by_cases first : p < start + 2 ^ order
    · exact ⟨order, start, List.mem_cons_self, low, first⟩
    · obtain ⟨k, s, member, inside⟩ := tiles.covered p (by omega) (by omega)
      exact ⟨k, s, List.mem_cons_of_mem _ member, inside⟩
  · exact List.pairwise_cons.mpr ⟨fun b member => (later b member).1, tiles.apart⟩

theorem runBlocks_spec (firstIdx fuel : Nat) (enough : len ≤ fuel) :
    ∃ blocks, runBlocks (fuel + 1) start len = some blocks ∧ Tiles start len blocks ∧
      ∀ m, addFreeRunFrom firstIdx fuel start len m = blocks.foldl (pushBlock firstIdx) m := by
  induction fuel generalizing start len with
  | zero =>
    obtain rfl := Nat.le_zero.mp enough
    exact ⟨[], rfl, .empty start, fun m => rfl⟩
  | succ fuel ih =>
    rw [runBlocks]
    by_cases empty : len = 0
    · subst empty
      exact ⟨[], if_pos rfl, .empty start, fun m => if_pos rfl⟩
    · obtain ⟨small, short, aligned, maximal⟩ := runOrder_spec start (Nat.pos_of_ne_zero empty)
      have pos := Nat.two_pow_pos (runOrder start len)
      obtain ⟨blocks, ends, tiles, pushes⟩ :=
        @ih (start + 2 ^ runOrder start len) (len - 2 ^ runOrder start len) (by omega)
      refine ⟨(runOrder start len, start) :: blocks, ?_, tiles.cons short small aligned maximal, fun m => ?_⟩
      · simp only [if_neg empty, ends, Option.map_some]
      · simp only [addFreeRunFrom, if_neg empty, pushes, List.foldl_cons, pushBlock]

theorem addFreeRun_tiles (r : MemRegionInfo) (start len : Nat) (m : PageAllocator) (pages : r.pageCount < 2 ^ 31)
    (fits : start + len ≤ r.pageCount) :
    ∃ blocks, runBlocks (len + 1) start len = some blocks ∧
      addFreeRun r.firstIdx start len m = blocks.foldl (pushBlock r.firstIdx) m ∧
      (∀ b ∈ blocks, b.1 ≤ 20 ∧ 2 ^ b.1 ∣ b.2 ∧ start ≤ b.2 ∧ b.2 + 2 ^ b.1 ≤ start + len) ∧
      (∀ p, start ≤ p → p < start + len → ∃ b ∈ blocks, b.2 ≤ p ∧ p < b.2 + 2 ^ b.1) ∧
      blocks.Pairwise (fun b b' => b.2 + 2 ^ b.1 ≤ b'.2) ∧
      (∀ b ∈ blocks, ∀ b' ∈ blocks, b.1 < 20 → b'.1 = b.1 → b'.2 ≠ b.2 ^^^ 2 ^ b.1) ∧
      ∀ v, 0 < v → v ≤ len → floorLog2 v + 1 < 64 := by
  obtain ⟨blocks, ends, tiles, pushes⟩ := @runBlocks_spec start len r.firstIdx len (Nat.le_refl len)
  refine ⟨blocks, ends, pushes m, fun b member => ?_, fun p low high => ?_, tiles.apart, ?_, fun v pos le => ?_⟩
  · exact ⟨tiles.canonical.order_le member, tiles.canonical.aligned member, tiles.within b member⟩
  · obtain ⟨order, first, member, inside⟩ := tiles.covered p low high
    exact ⟨(order, first), member, inside⟩
  · intro b member b' member' less order buddy
    refine tiles.canonical.not_buddy less member ?_
    rwa [← buddy, ← order]
  · have low := (floorLog2_spec pos).1
    have small : 2 ^ floorLog2 v < 2 ^ 31 := by omega
    have := (Nat.pow_lt_pow_iff_right (by decide)).mp small
    omega

theorem addFreeRun_tiles_eleven :
    let m := buddySetupMetadata
      { regions := [], managedPageCount := 0, reserves := [], regionsDirectMap := false, directMapBase := 0,
        directMapFirstIdx := 0, directMapLastIdx := 0, frameArray := 0 }
    addFreeRun 0 3 11 m = [(0, 3), (2, 4), (2, 8), (1, 12)].foldl (pushBlock 0) m := by
  intro m
  obtain ⟨blocks, ends, pushes, -⟩ :=
    addFreeRun_tiles { base := 0, size := 0x10000, firstIdx := 0, pageCount := 16 } 3 11
    m (by decide) (by decide)
  obtain rfl : [(0, 3), (2, 4), (2, 8), (1, 12)] = blocks := Option.some.inj ends
  exact pushes

def LeftEdge (owner : Nat → Owner) (firstIdx start len : Nat) : Prop :=
  ∀ order left, order < maxOrder → 2 ^ (order + 1) ∣ left → start = left + 2 ^ order →
    owner (firstIdx + left) = .free order (firstIdx + left) → len < 2 ^ order

structure RunFreed (owner owner' : Nat → Owner) (firstIdx start len : Nat) : Prop where
  freed : ∀ q, start ≤ q → q < start + len → (owner' (firstIdx + q)).IsFree
  other : ∀ p, (p < firstIdx + start ∨ firstIdx + start + len ≤ p) → owner' p = owner p

variable {m : PageAllocator} {owner : Nat → Owner} {r : MemRegionInfo}

-- To the right the buddy is in the run or at its end, to the left it would be the block that leaves
-- no room.
theorem LeftEdge.buddyBusy
    (rep : Rep m owner) (member : r ∈ m.layout.regions) (edge : LeftEdge owner r.firstIdx start len)
    (fits : start + len ≤ r.pageCount) (short : 2 ^ order ≤ len) (aligned : 2 ^ order ∣ start)
    (held : ∀ q, start ≤ q → q < start + len → owner (r.firstIdx + q) = .held)
    (after : start + len < r.pageCount → ¬ (owner (r.firstIdx + (start + len))).IsFree) :
    BuddyBusy m.layout owner order (r.firstIdx + start) := by
  intro smallOrder buddy found
  have pos := Nat.two_pow_pos order
  have contains : r.Contains (r.firstIdx + start) := by unfold MemRegionInfo.Contains; omega
  have known := buddyIndex_eq rep.layout_ok order member contains
  rw [found, Nat.add_sub_cancel_left] at known
  split at known
  · simp at known
  next inRegion =>
  cases known
  rcases left_or_right aligned with leftHalf | ⟨left, right, alignedLeft⟩
  · rw [xor_of_left leftHalf] at inRegion ⊢
    intro owned
    by_cases inRun : start + 2 ^ order < start + len
    · rw [held (start + 2 ^ order) (by omega) inRun] at owned
      simp at owned
    · have same : start + 2 ^ order = start + len := by omega
      have notFree := after (by omega)
      rw [← same, owned] at notFree
      exact notFree trivial
  · rw [right, xor_of_right alignedLeft]
    intro owned
    have tight := edge order left smallOrder alignedLeft right owned
    omega

theorem LeftEdge.released (rep : Rep m (assign owner order (r.firstIdx + start) (.free order (r.firstIdx + start))))
    (member : r ∈ m.layout.regions) (fits : start + len ≤ r.pageCount) (short : 2 ^ order ≤ len)
    (maximal : order < maxOrder → 2 ^ (order + 1) ∣ start → len < 2 ^ (order + 1)) :
    LeftEdge (assign owner order (r.firstIdx + start) (.free order (r.firstIdx + start)))
      r.firstIdx (start + 2 ^ order) (len - 2 ^ order) := by
  intro order' left small aligned ends owned
  have pos := Nat.two_pow_pos order
  have pos' := Nat.two_pow_pos order'
  have size : 2 ^ (order + 1) = 2 ^ order + 2 ^ order := by ring
  have bound : r.firstIdx + left < m.layout.managedPageCount := by
    apply rep.layout_ok.contains_lt member
    unfold MemRegionInfo.Contains
    omega
  -- Both blocks contain the page before the new position, so they are one block.
  have same := (rep.block (r.firstIdx + left) bound order' (r.firstIdx + left)
    (by rw [owned]; rfl)).2.2 (r.firstIdx + (start + 2 ^ order - 1)) (by unfold Inside; omega)
  rw [owned, assign_inside (by unfold Inside; omega)] at same
  obtain ⟨rfl, sameHead⟩ : order = order' ∧ r.firstIdx + start = r.firstIdx + left := by
    simpa using same
  have bound' := maximal small (by rwa [show start = left by omega])
  omega

theorem addFreeRunFrom_spec (fuel : Nat) (rep : Rep m owner) (member : r ∈ m.layout.regions) (enough : len ≤ fuel)
    (fits : start + len ≤ r.pageCount)
    (held : ∀ q, start ≤ q → q < start + len → owner (r.firstIdx + q) = .held)
    (after : start + len < r.pageCount → ¬ (owner (r.firstIdx + (start + len))).IsFree)
    (edge : LeftEdge owner r.firstIdx start len) (apart : NoFreeBuddies m.layout owner) :
    ∃ owner', Rep (addFreeRunFrom r.firstIdx fuel start len m) owner' ∧
      Kept m (addFreeRunFrom r.firstIdx fuel start len m) ∧
      RunFreed owner owner' r.firstIdx start len ∧ NoFreeBuddies m.layout owner' := by
  induction fuel generalizing start len m owner with
  | zero =>
    obtain rfl : len = 0 := by omega
    exact ⟨owner, rep, Kept.refl m, ⟨fun q low high => by omega, fun p _ => rfl⟩, apart⟩
  | succ fuel ih =>
    simp only [addFreeRunFrom]
    by_cases empty : len = 0
    · rw [if_pos empty]
      exact ⟨owner, rep, Kept.refl m, ⟨fun q low high => by omega, fun p _ => rfl⟩, apart⟩
    rw [if_neg empty]
    obtain ⟨small, short, aligned, maximal⟩ := runOrder_spec start (Nat.pos_of_ne_zero empty)
    generalize runOrder start len = order at *
    have pos := Nat.two_pow_pos order
    have block : BlockOk m.layout order (r.firstIdx + start) :=
      ⟨small, r, member, by omega, by omega, by rwa [Nat.add_sub_cancel_left]⟩
    have blockHeld : ∀ p, Inside order (r.firstIdx + start) p → owner p = .held := by
      intro p inside
      unfold Inside at inside
      have at' := held (p - r.firstIdx) (by omega) (by omega)
      rwa [Nat.add_sub_cancel' (by omega)] at at'
    have busy := edge.buddyBusy rep member fits short aligned held after
    have released := rep.release block blockHeld
    have kept := (blockMarkFree_kept (r.firstIdx + start) order m).trans
      (freelistPush_kept order (r.firstIdx + start) _)
    have outside : ∀ {p}, (p < r.firstIdx + start ∨ r.firstIdx + start + 2 ^ order ≤ p) →
        assign owner order (r.firstIdx + start) (.free order (r.firstIdx + start)) p = owner p := by
      intro p away
      apply assign_outside
      unfold Inside
      omega
    have newEdge := LeftEdge.released released (kept.layout.symm ▸ member) fits short maximal
    have restHeld : ∀ q, start + 2 ^ order ≤ q → q < start + 2 ^ order + (len - 2 ^ order) →
        assign owner order (r.firstIdx + start) (.free order (r.firstIdx + start)) (r.firstIdx + q) =
          .held := by
      intro q low high
      rw [outside (Or.inr (by omega))]
      exact held q (by omega) (by omega)
    have restEnd : start + 2 ^ order + (len - 2 ^ order) = start + len := by omega
    obtain ⟨owner', rep', kept', freed, apart'⟩ := ih released (kept.layout.symm ▸ member) (by omega) (by omega)
      restHeld
      (by
        intro inRegion
        rw [restEnd] at inRegion ⊢
        rw [outside (Or.inr (by omega))]
        exact after inRegion)
      newEdge (noFreeBuddies_release rep.layout_ok apart busy)
    refine ⟨owner', rep', kept.trans kept', ⟨fun q low high => ?_, fun p away => ?_⟩, apart'⟩
    · by_cases inBlock : q < start + 2 ^ order
      · rw [freed.other _ (Or.inl (by omega)), assign_inside (by unfold Inside; omega)]
        trivial
      · exact freed.freed q (by omega) (by omega)
    · rw [freed.other p (by omega), outside (by omega)]

end OrangeKernel.Memory
