import OrangeKernel.Slab.Safety
import OrangeKernel.Memory.Occupied

set_option autoImplicit false

namespace OrangeKernel.Memory

@[simp]
theorem freelistPop_layout (order : Nat) (m : PageAllocator) : (freelistPop order m).2.layout = m.layout := by
  unfold freelistPop
  dsimp only
  split <;> rfl

theorem freelistRemove_layout {order idx : Nat} {m m' : PageAllocator}
    (removed : freelistRemove order idx m = some m') :
    m'.layout = m.layout := by
  unfold freelistRemove at removed
  split at removed
  · cases removed
  split at removed
  · cases removed
  dsimp only at removed
  split at removed
  · cases removed
  · exact Option.some.inj removed ▸ rfl

@[simp]
theorem splitDown_layout (need idx steps : Nat) (m : PageAllocator) :
    (splitDown need idx steps m).layout = m.layout := by
  induction steps generalizing m with
  | zero => rfl
  | succ steps ih => exact ih _

@[simp]
theorem pAlloc_layout (pages : Nat) (m : PageAllocator) : (pAlloc pages m).2.layout = m.layout := by
  unfold pAlloc
  split
  · rfl
  split
  · rfl
  split
  · rfl
  dsimp only
  split
  · simp
  split <;> simp [blockMarkAlloc]

@[simp]
theorem mergeUp_layout (left mergedIdx mergedOrder : Nat) (m : PageAllocator) :
    (mergeUp left mergedIdx mergedOrder m).2.2.layout = m.layout := by
  induction left generalizing mergedIdx mergedOrder m with
  | zero => rfl
  | succ left ih =>
    unfold mergeUp
    split
    · rfl
    split
    · rfl
    split
    · rfl
    next removed taken => rw [ih, freelistRemove_layout taken]

@[simp]
theorem pFree_layout (ptr : Nat) (m : PageAllocator) : (pFree ptr m).layout = m.layout := by
  unfold pFree
  split
  · rfl
  split
  · rfl
  split
  · rfl
  dsimp only
  split
  · simp [freelistPush, blockMarkFree]
  · rfl

@[simp]
theorem pageSetKind_layout (base : Nat) (kind : PageKind) (m : PageAllocator) :
    (pageSetKind base kind m).layout = m.layout := by
  unfold pageSetKind
  split
  · split
    · rfl
    · split <;> rfl
  · rfl

end OrangeKernel.Memory

namespace OrangeKernel.Slab

open Machine Memory ByteMemory Intrusive AlignedBlock

def SameLayout (h h' : Heap) : Prop := h'.pages.layout = h.pages.layout

@[simp]
theorem cacheAdd_pages (st : SlabState) (c : ClassIdx) (slab : Nat) (h : Heap) :
    (cacheAdd st c slab h).pages = h.pages := by
  unfold cacheAdd
  split <;> rfl

variable {slab : Nat} {h h' : Heap}

theorem cacheRemoveSlab_pages (removed : cacheRemoveSlab slab h = some h') :
    h'.pages = h.pages := by
  unfold cacheRemoveSlab at removed
  split at removed
  · exact Option.some.inj removed ▸ rfl
  · obtain ⟨c, -, rest⟩ := Option.bind_eq_some_iff.mp removed
    obtain rfl := Option.some.inj rest
    dsimp only
    split <;> rfl

variable {c : ClassIdx}

theorem cacheMove_pages {st : SlabState}
    (moved : (if slab = 0 then some h else (cacheRemoveSlab slab h).map (cacheAdd st c slab)) = some h') :
    h'.pages = h.pages := by
  split at moved
  · exact Option.some.inj moved ▸ rfl
  · obtain ⟨removed, taken, rfl⟩ := Option.map_eq_some_iff.mp moved
    rw [cacheAdd_pages, cacheRemoveSlab_pages taken]

theorem cacheMovePartialToFull_pages
    (moved : cacheMovePartialToFull c slab h = some h') : h'.pages = h.pages :=
  cacheMove_pages moved

theorem cacheMoveFullToPartial_pages
    (moved : cacheMoveFullToPartial c slab h = some h') : h'.pages = h.pages :=
  cacheMove_pages moved

theorem cacheMoveEmptyToPartial_pages
    (moved : cacheMoveEmptyToPartial c slab h = some h') : h'.pages = h.pages :=
  cacheMove_pages moved

theorem kmallocRefillClass_layout (c : ClassIdx) (h : Heap) : SameLayout h (kmallocRefillClass c h).2 := by
  unfold kmallocRefillClass SameLayout
  dsimp only
  split
  · simp
  split
  · simp
  · simp [cacheAddPartial]

theorem ensurePartial_layout {ok : Bool} (ready : ensurePartial c h = some (ok, h')) :
    SameLayout h h' := by
  unfold ensurePartial at ready
  split at ready
  · split at ready
    · obtain ⟨moved, taken, same⟩ := Option.map_eq_some_iff.mp ready
      obtain ⟨-, rfl⟩ := Prod.mk.inj same
      exact congrArg PageAllocator.layout (cacheMoveEmptyToPartial_pages taken)
    · have same := Option.some.inj ready
      have refilled := kmallocRefillClass_layout c h
      rwa [same] at refilled
  · cases ready
    rfl

theorem kmallocObject_layout {obj : Nat} (taken : kmallocObject c h = some (obj, h')) :
    SameLayout h h' := by
  unfold kmallocObject at taken
  dsimp only at taken
  split at taken
  · exact (Prod.mk.inj (Option.some.inj taken)).2 ▸ rfl
  split at taken
  · exact (Prod.mk.inj (Option.some.inj taken)).2 ▸ rfl
  split at taken
  · exact (Prod.mk.inj (Option.some.inj taken)).2 ▸ rfl
  split at taken
  · obtain ⟨moved, placed, same⟩ := Option.bind_eq_some_iff.mp taken
    cases same
    have pages := cacheMovePartialToFull_pages placed
    dsimp only at pages
    simp only [SameLayout, pages]
  · exact (Prod.mk.inj (Option.some.inj taken)).2 ▸ rfl

variable {ptr : Nat}

theorem kmalloc_layout {size : Nat} (answered : kmalloc size h = some (ptr, h')) : SameLayout h h' := by
  unfold kmalloc at answered
  split at answered
  · exact (Prod.mk.inj (Option.some.inj answered)).2 ▸ rfl
  split at answered
  · unfold kmallocSmall at answered
    split at answered
    · exact (Prod.mk.inj (Option.some.inj answered)).2 ▸ rfl
    obtain ⟨⟨ok, ready⟩, ensured, rest⟩ := Option.bind_eq_some_iff.mp answered
    have first := ensurePartial_layout ensured
    dsimp only at rest
    split at rest
    · exact (kmallocObject_layout rest).trans first
    · exact (Prod.mk.inj (Option.some.inj rest)).2 ▸ first
  · have same := Option.some.inj answered
    have large : SameLayout h (kmallocLarge size h).2 := by
      unfold kmallocLarge SameLayout
      dsimp only
      split
      · rfl
      split <;> simp
    rwa [same] at large

theorem retireSlab_layout (retired : retireSlab c slab h = some h') :
    SameLayout h h' := by
  unfold retireSlab at retired
  obtain ⟨removed, taken, rest⟩ := Option.bind_eq_some_iff.mp retired
  have pages := cacheRemoveSlab_pages taken
  split at rest
  · cases rest
    simp [SameLayout, cacheAddEmpty, pages]
  · cases rest
    simp [SameLayout, pages]

theorem releaseObject_layout
    (released : releaseObject c slab ptr h = some h') : SameLayout h h' := by
  obtain ⟨freed, put, rest⟩ := Option.bind_eq_some_iff.mp released
  have first : SameLayout h freed := by
    unfold putObject at put
    dsimp only at put
    split at put
    · have pages := cacheMoveFullToPartial_pages put
      dsimp only at pages
      simp only [SameLayout, pages]
    · exact Option.some.inj put ▸ rfl
  split at rest
  · exact (retireSlab_layout rest).trans first
  · exact Option.some.inj rest ▸ first

theorem kfreeSlab_layout (freed : kfreeSlab slab ptr h = some h') : SameLayout h h' := by
  unfold kfreeSlab at freed
  split at freed
  · exact Option.some.inj freed ▸ rfl
  split at freed
  · exact Option.some.inj freed ▸ rfl
  obtain ⟨c, -, rest⟩ := Option.bind_eq_some_iff.mp freed
  dsimp only at rest
  split at rest
  · exact Option.some.inj rest ▸ rfl
  split at rest
  · exact Option.some.inj rest ▸ rfl
  split at rest
  · exact Option.some.inj rest ▸ rfl
  split at rest
  · exact Option.some.inj rest ▸ rfl
  obtain ⟨double, -, last⟩ := Option.bind_eq_some_iff.mp rest
  split at last
  · exact Option.some.inj last ▸ rfl
  · exact releaseObject_layout last

theorem kfree_layout (freed : kfree ptr h = some h') : SameLayout h h' := by
  unfold kfree at freed
  split at freed
  · exact Option.some.inj freed ▸ rfl
  dsimp only at freed
  split at freed
  · exact Option.some.inj freed ▸ rfl
  split at freed
  · exact Option.some.inj freed ▸ rfl
  · exact kfreeSlab_layout freed
  · cases freed
    unfold kfreeLarge SameLayout
    split
    · rfl
    split <;> simp

theorem heapStep_layout {s s' : Session} {op : HeapOp} (steps : heapStep s op = some s') :
    SameLayout s.heap s'.heap := by
  cases op with
  | kmalloc size =>
    obtain ⟨⟨ptr, h'⟩, answered, rfl⟩ := Option.map_eq_some_iff.mp steps
    exact kmalloc_layout answered
  | kfree ptr =>
    obtain ⟨h', freed, rfl⟩ := Option.map_eq_some_iff.mp steps
    exact kfree_layout freed
  | pAlloc pages =>
    cases steps
    simp [SameLayout]
  | pFree ptr =>
    simp only [heapStep] at steps
    split at steps
    · cases steps
      simp [SameLayout]
    · exact Option.some.inj steps ▸ rfl
  | write addr value =>
    simp only [heapStep] at steps
    split at steps
    · exact Option.some.inj steps ▸ rfl
    · exact Option.some.inj steps ▸ rfl

theorem foldlM_layout {ops : List HeapOp} {s s' : Session} (runs : ops.foldlM heapStep s = some s') :
    SameLayout s.heap s'.heap := by
  induction ops generalizing s with
  | nil => exact Option.some.inj runs ▸ rfl
  | cons op rest ih =>
    rw [List.foldlM_cons] at runs
    obtain ⟨middle, one, more⟩ := Option.bind_eq_some_iff.mp runs
    exact (ih more).trans (heapStep_layout one)

theorem SessionOk.clear {boot : BootInputs} {m : PageAllocator} (started : memoryInit boot = some m) {s : Session}
    {owner : Nat → Owner} {slab : Nat → Option SlabView} (session : SessionOk s owner slab)
    (layout : s.heap.pages.layout = m.layout) {l : Live} (member : l ∈ s.live) {x : Nat} (low : l.ptr ≤ x)
    (high : x < l.ptr + l.bytes) {span : Span} (occupies : span ∈ boot.occupied m) : ¬ span.Holds x := by
  intro holds
  have held : Allocated s.heap owner slab l.allocation := (session.held _).mpr ⟨l, member, rfl⟩
  rw [← l.range_eq.1] at low high
  rw [← l.range_eq.2] at high
  obtain ⟨q, bound, ⟨pa, addr, first, last⟩, order, head, allocated⟩ := session.ok.allocated_byte held low high
  have reserved : pageReserved s.heap.pages.layout q = true := by
    rw [layout] at addr ⊢
    exact (memoryInit_reserved started addr).mpr ⟨span, occupies, x, holds, first, last⟩
  rw [(session.ok.heap.pages.reserved q bound).mpr reserved] at allocated
  simp at allocated

theorem memoryInit_occupied {boot : BootInputs} {m : PageAllocator} (started : memoryInit boot = some m)
    {dts : RegionList} (memory : boot.memoryRegions = some dts)
    (below : ∀ dt ∈ dts.1, dt.base.toNat + dt.size.toNat < 2 ^ 64) :
    (m.layout.reserves = recorded (boot.occupied m) ∧ m.layout.reserves.length ≤ maxReserves) ∧
    (∀ pa, OnFreeList m pa ↔ CompletePage dts.1 pa ∧ ∀ span ∈ boot.occupied m, ¬ span.Meets pa) ∧
    ∀ array mem ops, ∃ s, heapRun ops (heapStart m array mem) = some s ∧ ∀ l ∈ s.live,
      ∀ span ∈ boot.occupied m, ∀ x, l.ptr ≤ x → x < l.ptr + l.bytes → ¬ span.Holds x := by
  obtain ⟨-, table, -⟩ := memoryInit_tables started
  refine ⟨⟨table, ?_⟩, memoryInit_onFreeList started memory below, fun array mem ops => ?_⟩
  · rw [table]
    exact (recorded_length _).trans (boot.occupied_length m)
  · obtain ⟨s, owner, slab, runs, session⟩ := heapRun_ok started array mem ops
    have layout : s.heap.pages.layout = m.layout := foldlM_layout runs
    exact ⟨s, runs, fun l member span occupies x low high => session.clear started layout member low high occupies⟩

theorem memoryInit_occupied_sampleBoot : ∃ m, memoryInit sampleBoot = some m ∧
    (∀ pa, OnFreeList m pa ↔ CompletePage [⟨0x80000000, 0x10000⟩, ⟨0x90000000, 0x6000⟩] pa ∧
      ∀ span ∈ sampleBoot.occupied m, ¬ span.Meets pa) ∧
    ∃ s, heapRun [.kmalloc 24, .pAlloc 3] (heapStart m sampleCaches ⟨fun _ => 0⟩) = some s ∧ ∀ l ∈ s.live,
      ∀ span ∈ sampleBoot.occupied m, ∀ x, l.ptr ≤ x → x < l.ptr + l.bytes → ¬ span.Holds x := by
  obtain ⟨m, started⟩ := sampleBoot_starts
  have all := memoryInit_occupied started rfl (by decide)
  exact ⟨m, started, all.2.1, all.2.2 _ _ _⟩

end OrangeKernel.Slab
