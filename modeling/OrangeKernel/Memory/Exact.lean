import OrangeKernel.Memory.Coalesce

set_option autoImplicit false

namespace OrangeKernel.Memory

open Machine AlignedBlock Intrusive

def FreeRun (m : PageAllocator) (k : Nat) : Prop :=
  ∃ r ∈ m.layout.regions, ∃ start, 2 ^ k ∣ start ∧ start + 2 ^ k ≤ r.pageCount ∧
    ∀ q, Inside k start q → FreePage m (r.firstIdx + q)

section Search

variable {m : PageAllocator} {owner : Nat → Owner} (ok : PagesOk m owner)
include ok

theorem PagesOk.freeList_nonempty {order : Nat} (small : order ≤ maxOrder) :
    0 ≤ m.freeLists order ↔ ∃ head < m.layout.managedPageCount, owner head = .free order head := by
  obtain ⟨xs, list, members⟩ := ok.rep.lists order small
  rw [list.head]
  cases xs with
  | nil =>
    have nothing : ∀ head < m.layout.managedPageCount, owner head ≠ .free order head :=
      fun head bound owned => List.not_mem_nil ((members head).mpr ⟨bound, owned⟩)
    simp only [List.head?_nil, encodeLink]
    constructor
    · intro nonneg
      omega
    · rintro ⟨head, bound, owned⟩
      exact absurd owned (nothing head bound)
  | cons head rest =>
    have first := (members head).mp List.mem_cons_self
    exact ⟨fun _ => ⟨head, first⟩, fun _ => Int.natCast_nonneg head⟩

theorem PagesOk.freeRun_iff {k : Nat} (small : k ≤ maxOrder) :
    FreeRun m k ↔ ∃ order, k ≤ order ∧ order ≤ maxOrder ∧ 0 ≤ m.freeLists order := by
  constructor
  · rintro ⟨r, member, start, aligned, fits, free⟩
    have covered : ∀ p, Inside k start p → Covered (freeTile r owner) p := by
      intro p inside
      have inRegion : p < r.pageCount := by unfold Inside at inside; omega
      have contains : r.Contains (r.firstIdx + p) := by unfold MemRegionInfo.Contains; omega
      have bound := ok.rep.layout_ok.contains_lt member contains
      exact (ok.covered_iff member).mpr ⟨inRegion, (ok.freePage_iff bound).mp (free p inside)⟩
    obtain ⟨order, head, tile, le, -⟩ := (ok.canonical member).contained small aligned covered
    have contains : r.Contains (r.firstIdx + head) := by
      have inRegion := tile.1
      unfold MemRegionInfo.Contains
      omega
    have orderSmall := (ok.tile_block member tile).1
    exact ⟨order, le, orderSmall, (ok.freeList_nonempty orderSmall).mpr
      ⟨_, ok.rep.layout_ok.contains_lt member contains, tile.2⟩⟩
  · rintro ⟨order, le, orderSmall, nonempty⟩
    obtain ⟨head, bound, owned⟩ := (ok.freeList_nonempty orderSmall).mp nonempty
    obtain ⟨⟨-, r, member, low, high, aligned⟩, whole⟩ := ok.block_of_head bound (by rw [owned]; rfl)
    -- The lower end of the block is a run of the wanted size.
    have size : 2 ^ k ≤ 2 ^ order := Nat.pow_le_pow_right (by decide) le
    refine ⟨r, member, head - r.firstIdx, aligned_weaken le aligned, by omega, fun q inside => ?_⟩
    obtain ⟨pageBound, same⟩ := whole (r.firstIdx + q) (by unfold Inside at *; omega)
    rw [ok.freePage_iff pageBound, same, owned]
    trivial

theorem PagesOk.pAlloc_null (pages : Nat) :
    ((Memory.pAlloc pages m).1 = 0 ↔ pages = 0 ∨ 2 ^ maxOrder < pages ∨ ¬ FreeRun m (Nat.clog 2 pages)) ∧
      ((Memory.pAlloc pages m).1 = 0 → (Memory.pAlloc pages m).2 = m) := by
  rcases pAlloc_spec pages ok.rep ok.ready with ⟨null, reason⟩ | ⟨owner', idx, done⟩
  · rw [null]
    refine ⟨iff_of_true rfl ?_, fun _ => rfl⟩
    by_cases tooMany : 2 ^ maxOrder < pages
    · exact Or.inr (Or.inl tooMany)
    · have small : Nat.clog 2 pages ≤ maxOrder := Nat.clog_le_of_le_pow (Nat.le_of_not_lt tooMany)
      rcases reason with zero | more | empty
      · exact Or.inl zero
      · exact absurd more tooMany
      · refine Or.inr (Or.inr fun run => ?_)
        obtain ⟨order, le, orderSmall, nonempty⟩ := (ok.freeRun_iff small).mp run
        have negative := empty order le orderSmall
        omega
  · -- The block that was found is such a run, and its address is not null.
    have first := done.allocates.was_free idx (inside_start _ _)
    have notReserved : owner idx ≠ .reserved := by
      intro reserved
      rw [reserved] at first
      exact first
    obtain ⟨-, r, member, low, high, aligned⟩ := done.allocates.block
    have bound : ∀ q, Inside (Nat.clog 2 pages) idx q → q < m.layout.managedPageCount := by
      intro q inside
      have contains : r.Contains q := by unfold Inside at inside; unfold MemRegionInfo.Contains; omega
      exact ok.rep.layout_ok.contains_lt member contains
    have nonnull : (Memory.pAlloc pages m).1 ≠ 0 := by
      intro null
      have addr := done.addr
      rw [null] at addr
      exact ok.indexToPa_ne_zero (bound idx (inside_start _ _)) notReserved addr
    have run : FreeRun m (Nat.clog 2 pages) := by
      refine ⟨r, member, idx - r.firstIdx, aligned, by omega, fun q inside => ?_⟩
      have inBlock : Inside (Nat.clog 2 pages) idx (r.firstIdx + q) := by unfold Inside at *; omega
      exact (ok.freePage_iff (bound _ inBlock)).mpr (done.allocates.was_free _ inBlock)
    refine ⟨iff_of_false nonnull ?_, fun null => absurd null nonnull⟩
    rintro (zero | tooMany | noRun)
    · exact absurd zero done.pages_pos.ne'
    · exact absurd tooMany (Nat.not_lt.mpr done.pages_le)
    · exact noRun run

end Search

def AllocatedAt (m : PageAllocator) (ptr order head : Nat) : Prop :=
  AllocatedBlock m order head ∧ indexToPa m.layout head = some ptr

structure Releases (m m' : PageAllocator) (order head : Nat) : Prop where
  was : ∀ p, Inside order head p → p < m.layout.managedPageCount ∧ ¬ FreePage m p
  now : ∀ p < m.layout.managedPageCount, FreePage m' p ↔ Inside order head p ∨ FreePage m p

section Release

variable {m : PageAllocator} {owner : Nat → Owner} (ok : PagesOk m owner)
include ok

theorem PagesOk.not_allocatedAt {ptr : Nat} (stale : NotAllocated ptr m owner) (order head : Nat) :
    ¬ AllocatedAt m ptr order head := by
  rintro ⟨block, addr⟩
  obtain ⟨bound, owned⟩ := ok.allocatedBlock_iff.mp block
  rcases stale with null | unowned
  · rw [null] at addr
    exact ok.indexToPa_ne_zero bound (by rw [owned]; nofun) addr
  · exact unowned head order addr owned

theorem PagesOk.releases {ptr order head : Nat} {owner' : Nat → Owner} {m' : PageAllocator}
    (done : FreeOk ptr m owner m' owner' order head) (ok' : PagesOk m' owner') : Releases m m' order head := by
  have layout : m'.layout = m.layout := done.kept.layout
  have bound : ∀ p, Inside order head p → p < m.layout.managedPageCount := by
    intro p inside
    obtain ⟨-, r, member, low, high, -⟩ := done.frees.block
    have contains : r.Contains p := by unfold Inside at inside; unfold MemRegionInfo.Contains; omega
    exact ok.rep.layout_ok.contains_lt member contains
  constructor
  · intro p inside
    refine ⟨bound p inside, ?_⟩
    rw [ok.freePage_iff (bound p inside), done.frees.was p inside]
    exact id
  · intro p inRange
    rw [ok'.freePage_iff (layout ▸ inRange), ok.freePage_iff inRange]
    by_cases inside : Inside order head p
    · exact iff_of_true (done.frees.now_free p inside) (Or.inl inside)
    · rw [done.frees.free_iff p inside]
      exact (or_iff_right inside).symm

theorem PagesOk.pFree_exact (ptr : Nat) :
    (Memory.pFree ptr m ≠ m ↔ ∃ order head, AllocatedAt m ptr order head) ∧
      ∀ order head, AllocatedAt m ptr order head → Releases m (Memory.pFree ptr m) order head := by
  rcases ok.pFree ptr with ⟨ignored, stale⟩ | ⟨owner', order, head, done, ok'⟩
  · have nothing := ok.not_allocatedAt stale
    refine ⟨iff_of_false (fun changed => changed ignored) ?_,
      fun order head found => absurd found (nothing order head)⟩
    rintro ⟨order, head, found⟩
    exact nothing order head found
  · have releases := ok.releases done ok'
    obtain ⟨bound, before⟩ := releases.was head (inside_start order head)
    have found : AllocatedAt m ptr order head :=
      ⟨ok.allocatedBlock_iff.mpr ⟨bound, done.frees.was head (inside_start order head)⟩, done.addr⟩
    have changed : Memory.pFree ptr m ≠ m := by
      intro same
      have after := (releases.now head bound).mpr (Or.inl (inside_start order head))
      rw [same] at after
      exact before after
    refine ⟨iff_of_true changed ⟨order, head, found⟩, fun order' head' found' => ?_⟩
    -- A pointer heads one block at most.
    obtain rfl : head' = head := ok.rep.layout_ok.indexToPa_inj found'.2 found.2
    have state := found.1.2
    rw [found'.1.2] at state
    obtain rfl : order' = order := by omega
    exact releases

end Release

theorem pageRun_pFree {boot : BootInputs} {m : PageAllocator} (started : memoryInit boot = some m)
    (ops : List PageOp) (ptr : Nat) :
    (pFree ptr (pageRun ops m).pages ≠ (pageRun ops m).pages ↔
      ∃ order head, AllocatedAt (pageRun ops m).pages ptr order head) ∧
    ∀ order head, AllocatedAt (pageRun ops m).pages ptr order head →
      Releases (pageRun ops m).pages (pFree ptr (pageRun ops m).pages) order head := by
  obtain ⟨owner, ok⟩ := pageRun_ok started ops
  exact ok.pages.pFree_exact ptr

theorem pageRun_pFree_sampleBoot : ∃ m, memoryInit sampleBoot = some m ∧
    (pageRun [.alloc 3] m).pages.layout.managedPageCount = 22 ∧
    (pFree 0x80004000 (pageRun [.alloc 3] m).pages ≠ (pageRun [.alloc 3] m).pages ↔
      ∃ order head, AllocatedAt (pageRun [.alloc 3] m).pages 0x80004000 order head) ∧
    AllocatedAt (pageRun [.alloc 3] m).pages 0x80004000 2 4 ∧
    Releases (pageRun [.alloc 3] m).pages (pFree 0x80004000 (pageRun [.alloc 3] m).pages) 2 4 := by
  have result : (memoryInit sampleBoot).any fun m =>
      (pageRun [.alloc 3] m).pages.layout.managedPageCount = 22 ∧
        ((pageRun [.alloc 3] m).pages.frames 4).state = frameAllocBase - 2 ∧
        indexToPa (pageRun [.alloc 3] m).pages.layout 4 = some 0x80004000 := by
    decide +kernel
  obtain ⟨m, started⟩ := sampleBoot_starts
  obtain ⟨count, state, addr⟩ : _ ∧ _ ∧ _ := by simpa [started] using result
  have found : AllocatedAt (pageRun [.alloc 3] m).pages 0x80004000 2 4 := ⟨⟨by rw [count]; decide, state⟩, addr⟩
  have exact' := pageRun_pFree started [.alloc 3] 0x80004000
  exact ⟨m, started, count, exact'.1, found, exact'.2 2 4 found⟩

end OrangeKernel.Memory
