import OrangeKernel.Memory.Exact
import OrangeKernel.Slab.Occupied

set_option autoImplicit false

namespace OrangeKernel.Slab

open Machine Memory ByteMemory Intrusive AlignedBlock

def classPages (h : Heap) (c : ClassIdx) : Finset Nat :=
  (Finset.range h.pages.layout.managedPageCount).filter fun idx => (h.pages.frames idx).kind = .slab ∧
    (indexToPa h.pages.layout idx).map (fun a => getField .cache a h.mem) = some (cachePtr h.cacheArray c)

theorem nodup_carvedObjects (c : ClassIdx) (a count : Nat) : (carvedObjects c a count).Nodup := by
  induction count with
  | zero => exact List.nodup_nil
  | succ count ih =>
    refine List.nodup_cons.mpr ⟨fun member => ?_, ih⟩
    obtain ⟨i, below, same⟩ := mem_carvedObjects.mp member
    have size := (class_bounds c).1
    have step : i * kmallocClasses c < count * kmallocClasses c := Nat.mul_lt_mul_of_pos_right below (by omega)
    omega

section Reclaim

variable {h : Heap} {owner : Nat → Owner} {slab : Nat → Option SlabView} (ok : HeapOk h owner slab)
include ok

theorem HeapOk.slab_unused {a : Nat} {s : SlabView} (found : slab a = some s)
    (unused : ∀ o, ¬ Allocated h owner slab (.object s.cls o)) : s.listed = some .slabEmpty := by
  have slabAt := ok.heap.rep.slab_at a s found
  have objects : carvedObjects s.cls a (slabCapacity s.cls) ⊆ s.free := by
    intro o member
    by_contra used
    exact unused o ⟨a, s, found, rfl, mem_carvedObjects.mp member, used⟩
  have many := ((nodup_carvedObjects s.cls a _).subperm objects).length_le
  rw [length_carvedObjects] at many
  have some := (object_bounds s.cls).2.2.1
  have filled := ok.filled a s found
  unfold SlabFilled at filled
  split at filled
  · omega
  · rw [filled, List.length_nil] at many
    omega
  next listed => exact listed
  · exact filled.elim

theorem HeapOk.class_slab {c : ClassIdx} {idx : Nat} (member : idx ∈ classPages h c) :
    ∃ a s, indexToPa h.pages.layout idx = some a ∧ slab a = some s ∧ s.cls = c := by
  obtain ⟨inRange, kind, cache⟩ := Finset.mem_filter.mp member
  obtain ⟨a, s, addr, found⟩ := ok.heap.kind_slab idx (Finset.mem_range.mp inRange) kind
  rw [addr, Option.map_some, Option.some.injEq, (ok.heap.rep.slab_at a s found).cache] at cache
  exact ⟨a, s, addr, found, cachePtr_inj cache⟩

theorem HeapOk.classPages_le {c : ClassIdx} (unused : ∀ o, ¬ Allocated h owner slab (.object c o)) :
    (classPages h c).card ≤ 1 := by
  apply Finset.card_le_one.mpr
  intro idx member idx' member'
  obtain ⟨a, s, addr, found, rfl⟩ := ok.class_slab member
  obtain ⟨b, t, addr', found', cls⟩ := ok.class_slab member'
  have empty := ok.slab_unused found unused
  have empty' := ok.slab_unused found' (by rw [cls]; exact unused)
  obtain rfl := ok.one_empty a b s t found found' cls.symm empty empty'
  exact ok.heap.pages.rep.layout_ok.indexToPa_inj addr addr'

theorem HeapOk.kept_pages (nothing : ∀ x, ¬ Allocated h owner slab x) :
    unreservedPages h.pages.layout \ freePages h.pages.layout owner ⊆ Finset.univ.biUnion (classPages h) := by
  intro p member
  obtain ⟨unreserved, notFree⟩ := Finset.mem_sdiff.mp member
  obtain ⟨inRange, open'⟩ := Finset.mem_filter.mp unreserved
  have bound := Finset.mem_range.mp inRange
  have settled := ok.heap.pages.settled p bound
  have reserved := ok.heap.pages.reserved p bound
  cases owned : owner p with
  | held => exact absurd owned settled
  | reserved => simp [reserved.mp owned] at open'
  | free order head =>
    exact absurd (Finset.mem_filter.mpr ⟨inRange, by rw [owned]; trivial⟩) notFree
  | allocated order head =>
    obtain ⟨⟨headBound, headOwned⟩, inside⟩ := (ok.heap.pages.in_block_iff bound rfl).mpr owned
    obtain ⟨r, regionMember, contains⟩ := ok.heap.pages.rep.layout_ok.region_of_index headBound
    have addr := ok.heap.pages.rep.layout_ok.indexToPa_eq regionMember contains
    -- A block without a kind or of kind LARGE would be an allocation.
    cases kind : (h.pages.frames head).kind with
    | none => exact absurd ⟨head, headBound, addr, headOwned, kind⟩ (nothing (.direct order (r.addr head)))
    | large => exact absurd ⟨head, headBound, addr, headOwned, kind⟩ (nothing (.large order (r.addr head)))
    | slab =>
      obtain ⟨b, s, addr', found⟩ := ok.heap.kind_slab head headBound kind
      obtain ⟨idx, -, addr'', single, -⟩ := ok.heap.slab_page b s found
      obtain rfl := ok.heap.pages.rep.layout_ok.indexToPa_inj addr' addr''
      rw [headOwned] at single
      cases single
      obtain rfl : p = head := by unfold Inside at inside; omega
      refine Finset.mem_biUnion.mpr ⟨s.cls, Finset.mem_univ _, Finset.mem_filter.mpr ⟨inRange, kind, ?_⟩⟩
      rw [addr', Option.map_some, (ok.heap.rep.slab_at b s found).cache]

theorem HeapOk.free_after (nothing : ∀ x, ¬ Allocated h owner slab x) :
    ∃ free, totalFreePagesCount h.pages = some free ∧ (unreservedPages h.pages.layout).card ≤ free + 8 := by
  refine ⟨_, ok.heap.pages.totalFreePagesCount_eq, ?_⟩
  have kept := Finset.card_le_card (ok.kept_pages nothing)
  have classes : (Finset.univ.biUnion (classPages h)).card ≤ 8 :=
    calc (Finset.univ.biUnion (classPages h)).card
        ≤ ∑ c, (classPages h c).card := Finset.card_biUnion_le
      _ ≤ ∑ _c : ClassIdx, 1 := Finset.sum_le_sum fun c _ => ok.classPages_le fun o => nothing (.object c o)
      _ = 8 := rfl
  have parts := Finset.card_sdiff_add_card_eq_card ok.heap.pages.freePages_subset
  omega

end Reclaim

theorem SessionOk.unused {s : Session} {owner : Nat → Owner} {slab : Nat → Option SlabView}
    (session : SessionOk s owner slab) {c : ClassIdx}
    (none : ∀ size ptr, .kmalloc size ptr ∈ s.live → sizeToClass size ≠ some c) (o : Nat) :
    ¬ Allocated s.heap owner slab (.object c o) := by
  intro allocated
  obtain ⟨l, member, same⟩ := (session.held _).mp allocated
  cases l with
  | pages count ptr => cases same
  | kmalloc size ptr =>
    have other := none size ptr member
    simp only [Live.allocation, requested] at same
    cases cls : sizeToClass size with
    | none => simp [cls] at same
    | some d =>
      simp only [cls, Allocation.object.injEq] at same
      exact other (by rw [cls, same.1])

theorem heapRun_reclaims {boot : BootInputs} {m : PageAllocator} (started : memoryInit boot = some m)
    (array : CacheArray) (mem : Mem) (ops : List HeapOp) :
    ∃ s, heapRun ops (heapStart m array mem) = some s ∧
      (∀ c, (∀ size ptr, .kmalloc size ptr ∈ s.live → sizeToClass size ≠ some c) →
        (classPages s.heap c).card ≤ 1) ∧
      (s.live = [] → ∃ free initial, totalFreePagesCount s.heap.pages = some free ∧
        totalFreePagesCount m = some initial ∧ initial ≤ free + 8) := by
  obtain ⟨s, owner, slab, runs, session⟩ := heapRun_ok started array mem ops
  refine ⟨s, runs, fun c none => session.ok.classPages_le (session.unused none), fun empty => ?_⟩
  have nothing : ∀ x, ¬ Allocated s.heap owner slab x := by
    intro x allocated
    obtain ⟨l, member, -⟩ := (session.held x).mp allocated
    rw [empty] at member
    exact List.not_mem_nil member
  obtain ⟨free, counted, enough⟩ := session.ok.free_after nothing
  obtain ⟨-, -, initial, -, before, all, -⟩ := pageRun_accounting started []
  have layout : s.heap.pages.layout = m.layout := foldlM_layout runs
  rw [layout, ← all] at enough
  exact ⟨free, initial, counted, before, enough⟩

theorem heapRun_reclaims_sampleBoot : ∃ m, memoryInit sampleBoot = some m ∧
    ∃ s, heapRun [.kmalloc 2000, .kmalloc 900, .kfree 0x80003C00, .kfree 0x90003800]
        (heapStart m sampleCaches ⟨fun _ => 0⟩) = some s ∧ s.live = [] ∧
      ∃ free initial, totalFreePagesCount s.heap.pages = some free ∧
        totalFreePagesCount m = some initial ∧ initial ≤ free + 8 := by
  have result : (memoryInit sampleBoot).any fun m =>
      (heapRun [.kmalloc 2000, .kmalloc 900, .kfree 0x80003C00, .kfree 0x90003800]
        (heapStart m sampleCaches ⟨fun _ => 0⟩)).any fun s => s.live.isEmpty := by
    decide +kernel
  obtain ⟨m, started⟩ := sampleBoot_starts
  obtain ⟨s, runs, -, restored⟩ := heapRun_reclaims started sampleCaches ⟨fun _ => 0⟩
    [.kmalloc 2000, .kmalloc 900, .kfree 0x80003C00, .kfree 0x90003800]
  have empty : s.live = [] := by simpa [started, runs] using result
  exact ⟨m, started, s, runs, empty, restored empty⟩

theorem pAlloc_complete {boot : BootInputs} {m : PageAllocator} (started : memoryInit boot = some m)
    (pages : Nat) :
    (∀ ops : List PageOp,
      ((pAlloc pages (pageRun ops m).pages).1 = 0 ↔
        pages = 0 ∨ 2 ^ 20 < pages ∨ ¬ FreeRun (pageRun ops m).pages (Nat.clog 2 pages)) ∧
      ((pAlloc pages (pageRun ops m).pages).1 = 0 →
        (pAlloc pages (pageRun ops m).pages).2 = (pageRun ops m).pages)) ∧
    ∀ (array : CacheArray) (mem : Mem) (ops : List HeapOp), ∃ s, heapRun ops (heapStart m array mem) = some s ∧
      ((pAlloc pages s.heap.pages).1 = 0 ↔
        pages = 0 ∨ 2 ^ 20 < pages ∨ ¬ FreeRun s.heap.pages (Nat.clog 2 pages)) ∧
      ((pAlloc pages s.heap.pages).1 = 0 → (pAlloc pages s.heap.pages).2 = s.heap.pages) := by
  constructor
  · intro ops
    obtain ⟨owner, ok⟩ := pageRun_ok started ops
    exact ok.pages.pAlloc_null pages
  · intro array mem ops
    obtain ⟨s, owner, slab, runs, session⟩ := heapRun_ok started array mem ops
    exact ⟨s, runs, session.ok.heap.pages.pAlloc_null pages⟩

theorem pAlloc_complete_sampleBoot : ∃ m, memoryInit sampleBoot = some m ∧
    (pAlloc 16 (pageRun [.alloc 8] m).pages).1 = 0 ∧ ¬ FreeRun (pageRun [.alloc 8] m).pages 4 := by
  have result : (memoryInit sampleBoot).any fun m => (pAlloc 16 (pageRun [.alloc 8] m).pages).1 = 0 := by
    decide +kernel
  obtain ⟨m, started⟩ := sampleBoot_starts
  have null : (pAlloc 16 (pageRun [.alloc 8] m).pages).1 = 0 := by simpa [started] using result
  refine ⟨m, started, null, ?_⟩
  have reason := ((pAlloc_complete started 16).1 [.alloc 8]).1.mp null
  have order : Nat.clog 2 16 = 4 := by decide
  rw [order] at reason
  exact (reason.resolve_left (by decide)).resolve_left (by decide)

end OrangeKernel.Slab
