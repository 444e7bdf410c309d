import OrangeKernel.Memory.Accounting

set_option autoImplicit false

namespace OrangeKernel.Memory

open Machine AlignedBlock Intrusive

def freeTile (r : MemRegionInfo) (owner : Nat → Owner) (order start : Nat) : Prop :=
  start < r.pageCount ∧ owner (r.firstIdx + start) = .free order (r.firstIdx + start)

section Tiling

variable {m : PageAllocator} {owner : Nat → Owner} (ok : PagesOk m owner) {r : MemRegionInfo}
  (member : r ∈ m.layout.regions)
include ok member

theorem PagesOk.tile_block {order start : Nat} (tile : freeTile r owner order start) :
    order ≤ maxOrder ∧ start + 2 ^ order ≤ r.pageCount ∧ 2 ^ order ∣ start ∧
      ∀ q, Inside order start q → owner (r.firstIdx + q) = .free order (r.firstIdx + start) := by
  obtain ⟨inRegion, owned⟩ := tile
  have contains : r.Contains (r.firstIdx + start) := by unfold MemRegionInfo.Contains; omega
  have bound := ok.rep.layout_ok.contains_lt member contains
  obtain ⟨⟨small, s, member', low, high, aligned⟩, whole⟩ := ok.block_of_head bound (by rw [owned]; rfl)
  have pos := Nat.two_pow_pos order
  have contains' : s.Contains (r.firstIdx + start) := by unfold MemRegionInfo.Contains; omega
  obtain rfl := ok.rep.layout_ok.region_unique member' member contains' contains
  rw [Nat.add_sub_cancel_left] at aligned
  refine ⟨small, by omega, aligned, fun q inside => ?_⟩
  rw [← owned]
  exact (whole (s.firstIdx + q) (by unfold Inside at *; omega)).2

theorem PagesOk.canonical : Canonical maxOrder (freeTile r owner) where
  order_le := fun tile => (ok.tile_block member tile).1
  aligned := fun tile => (ok.tile_block member tile).2.2.1
  apart := by
    intro order start order' start' p tile tile' inside inside'
    have here := (ok.tile_block member tile).2.2.2 p inside
    have there := (ok.tile_block member tile').2.2.2 p inside'
    rw [here] at there
    obtain ⟨same, head⟩ : order = order' ∧ r.firstIdx + start = r.firstIdx + start' := by simpa using there
    exact ⟨same, by omega⟩
  merged := fun small aligned tile right =>
    ok.buddies r member _ small _ aligned right.1 tile.2 right.2

theorem PagesOk.covered_iff {p : Nat} :
    Covered (freeTile r owner) p ↔ p < r.pageCount ∧ (owner (r.firstIdx + p)).IsFree := by
  constructor
  · rintro ⟨order, start, tile, inside⟩
    obtain ⟨-, fits, -, whole⟩ := ok.tile_block member tile
    refine ⟨by unfold Inside at inside; omega, ?_⟩
    rw [whole p inside]
    trivial
  · rintro ⟨inRegion, free⟩
    obtain ⟨order, head, owned⟩ := Owner.isFree_iff.mp free
    have contains : r.Contains (r.firstIdx + p) := by unfold MemRegionInfo.Contains; omega
    have bound := ok.rep.layout_ok.contains_lt member contains
    obtain ⟨⟨headBound, headOwned⟩, inside⟩ := (ok.in_block_iff bound rfl).mpr owned
    obtain ⟨⟨-, s, member', low, high, -⟩, -⟩ := ok.block_of_head headBound (by rw [headOwned]; rfl)
    have contains' : s.Contains (r.firstIdx + p) := by
      unfold Inside at inside
      unfold MemRegionInfo.Contains
      omega
    obtain rfl := ok.rep.layout_ok.region_unique member' member contains' contains
    have pos := Nat.two_pow_pos order
    have split : s.firstIdx + (head - s.firstIdx) = head := by omega
    refine ⟨order, head - s.firstIdx, ⟨by omega, by rw [split]; exact headOwned⟩, ?_⟩
    unfold Inside at *
    omega

theorem PagesOk.not_buddies {order head head' : Nat} (small : order < maxOrder)
    (block : FreeBlock m order head) (block' : FreeBlock m order head')
    (contains : r.Contains head) (contains' : r.Contains head') :
    head' - r.firstIdx ≠ (head - r.firstIdx) ^^^ 2 ^ order := by
  have tile : ∀ {h}, FreeBlock m order h → r.Contains h → freeTile r owner order (h - r.firstIdx) := by
    intro h isBlock inRegion
    unfold MemRegionInfo.Contains at inRegion
    refine ⟨by omega, ?_⟩
    rw [Nat.add_sub_cancel' inRegion.1]
    exact (ok.freeBlock_iff.mp isBlock).2
  have canonical := ok.canonical member
  intro buddies
  rcases left_or_right (canonical.aligned (tile block contains)) with left | ⟨base, right, alignedBase⟩
  · rw [xor_of_left left] at buddies
    exact canonical.merged small left (tile block contains) (buddies ▸ tile block' contains')
  · rw [right, xor_of_right alignedBase] at buddies
    exact canonical.merged small alignedBase (buddies ▸ tile block' contains') (right ▸ tile block contains)

end Tiling

theorem PagesOk.freeBlock_of_pages {m m' : PageAllocator} {owner owner' : Nat → Owner} (ok : PagesOk m owner)
    (ok' : PagesOk m' owner') (layout : m'.layout = m.layout)
    (pages : ∀ p < m.layout.managedPageCount, (owner p).IsFree ↔ (owner' p).IsFree) {order head : Nat}
    (block : FreeBlock m order head) : FreeBlock m' order head := by
  obtain ⟨bound, owned⟩ := ok.freeBlock_iff.mp block
  obtain ⟨r, member, contains⟩ := ok.rep.layout_ok.region_of_index bound
  have member' : r ∈ m'.layout.regions := layout ▸ member
  have split : r.firstIdx + (head - r.firstIdx) = head := Nat.add_sub_cancel' contains.1
  have covered : ∀ p, Covered (freeTile r owner) p ↔ Covered (freeTile r owner') p := by
    intro p
    rw [ok.covered_iff member, ok'.covered_iff member']
    refine and_congr_right fun inRegion => pages _ ?_
    exact ok.rep.layout_ok.contains_lt member (by unfold MemRegionInfo.Contains; omega)
  have tile : freeTile r owner order (head - r.firstIdx) :=
    ⟨by unfold MemRegionInfo.Contains at contains; omega, by rwa [split]⟩
  have same := (ok.canonical member).unique (ok'.canonical member') covered tile
  have owned' := same.2
  rw [split] at owned'
  exact ok'.freeBlock_iff.mpr ⟨layout ▸ bound, owned'⟩

theorem PagesOk.freeBlock_congr {m m' : PageAllocator} {owner owner' : Nat → Owner} (ok : PagesOk m owner)
    (ok' : PagesOk m' owner') (layout : m'.layout = m.layout)
    (pages : ∀ p < m.layout.managedPageCount, (owner p).IsFree ↔ (owner' p).IsFree) (order head : Nat) :
    FreeBlock m order head ↔ FreeBlock m' order head :=
  ⟨ok.freeBlock_of_pages ok' layout pages,
    ok'.freeBlock_of_pages ok layout.symm fun p bound => (pages p (layout ▸ bound)).symm⟩

theorem RunOk.free_iff_unreserved {layout : Layout} {s : PageState} {owner : Nat → Owner}
    (ok : RunOk layout s owner) (empty : s.live = []) {p : Nat} (bound : p < layout.managedPageCount) :
    (owner p).IsFree ↔ pageReserved layout p = false := by
  obtain rfl := ok.layout_eq
  rw [← Bool.not_eq_true, ← ok.pages.reserved p bound]
  cases owned : owner p with
  | reserved => simp [Owner.IsFree]
  | free order head => simp [Owner.IsFree]
  | held => exact absurd owned (ok.pages.settled p bound)
  | allocated order head =>
    obtain ⟨⟨headBound, headOwned⟩, -⟩ := (ok.pages.in_block_iff bound rfl).mpr owned
    obtain ⟨ptr, -, live⟩ := ok.live.complete head headBound order headOwned
    simp [empty] at live

theorem pageRun_coalesced {boot : BootInputs} {m : PageAllocator} (started : memoryInit boot = some m)
    (ops ops' : List PageOp) :
    (∀ r ∈ m.layout.regions, ∀ order < maxOrder, ∀ head head', FreeBlock (pageRun ops m).pages order head →
      FreeBlock (pageRun ops m).pages order head' → r.Contains head → r.Contains head' →
      head' - r.firstIdx ≠ (head - r.firstIdx) ^^^ 2 ^ order) ∧
    ((∀ p < m.layout.managedPageCount, FreePage (pageRun ops m).pages p ↔ FreePage (pageRun ops' m).pages p) →
      ∀ order head, FreeBlock (pageRun ops m).pages order head ↔ FreeBlock (pageRun ops' m).pages order head) ∧
    ((pageRun ops m).live = [] →
      ∀ order head, FreeBlock (pageRun ops m).pages order head ↔ FreeBlock m order head) := by
  obtain ⟨owner, ok⟩ := pageRun_ok started ops
  obtain ⟨owner', ok'⟩ := pageRun_ok started ops'
  obtain ⟨owner₀, ok₀⟩ := pageRun_ok started []
  refine ⟨fun r member order small head head' block block' contains contains' => ?_, fun agree => ?_,
    fun empty => ?_⟩
  · exact ok.pages.not_buddies (ok.layout_eq.symm ▸ member) small block block' contains contains'
  · refine ok.pages.freeBlock_congr ok'.pages (ok'.layout_eq.trans ok.layout_eq.symm) fun p bound => ?_
    rw [ok.layout_eq] at bound
    rw [← ok.pages.freePage_iff (ok.layout_eq.symm ▸ bound),
      ← ok'.pages.freePage_iff (ok'.layout_eq.symm ▸ bound)]
    exact agree p bound
  · refine ok.pages.freeBlock_congr ok₀.pages (ok₀.layout_eq.trans ok.layout_eq.symm) fun p bound => ?_
    rw [ok.layout_eq] at bound
    rw [ok.free_iff_unreserved empty bound, ok₀.free_iff_unreserved rfl bound]

theorem pageRun_coalesced_sampleBoot : ∃ m, memoryInit sampleBoot = some m ∧
    (pageRun [.alloc 3, .alloc 1, .free 0x80004000, .free 0x90003000] m).live = [] ∧
    ∀ order head, FreeBlock (pageRun [.alloc 3, .alloc 1, .free 0x80004000, .free 0x90003000] m).pages order head ↔
      FreeBlock m order head := by
  have result : (memoryInit sampleBoot).any fun m =>
      (pageRun [.alloc 3, .alloc 1, .free 0x80004000, .free 0x90003000] m).live.isEmpty := by
    decide +kernel
  obtain ⟨m, started⟩ := sampleBoot_starts
  have empty : (pageRun [.alloc 3, .alloc 1, .free 0x80004000, .free 0x90003000] m).live = [] := by
    simpa [started] using result
  exact ⟨m, started, empty, (pageRun_coalesced started _ []).2.2 empty⟩

end OrangeKernel.Memory
