import OrangeKernel.Slab.Invariant

set_option autoImplicit false

namespace OrangeKernel.Slab

open Machine Memory ByteMemory Intrusive AlignedBlock

def SlabAtPage (h : Heap) (c : ClassIdx) (a : Nat) : Prop :=
  ∃ idx < h.pages.layout.managedPageCount, indexToPa h.pages.layout idx = some a ∧
    (h.pages.frames idx).kind = .slab ∧ getField .cache a h.mem = cachePtr h.cacheArray c

def TaggedBlock (h : Heap) (kind : PageKind) (order ptr : Nat) : Prop :=
  ∃ idx, AllocatedBlock h.pages order idx ∧ indexToPa h.pages.layout idx = some ptr ∧
    (h.pages.frames idx).kind = kind

def Holds (h : Heap) : Allocation → Prop
  | .object c o => ∃ a free, SlabAtPage h c a ∧ FreelistOf h.mem a free ∧ IsObject c a o ∧ o ∉ free
  | .large order ptr => TaggedBlock h .large order ptr
  | .direct order ptr => TaggedBlock h .none order ptr

section Reading

variable {h : Heap} {owner : Nat → Owner} {slab : Nat → Option SlabView} (ok : HeapOk h owner slab)
include ok

theorem HeapOk.slabAtPage_iff {c : ClassIdx} {a : Nat} :
    SlabAtPage h c a ↔ ∃ s, slab a = some s ∧ s.cls = c := by
  constructor
  · rintro ⟨idx, bound, addr, kind, cache⟩
    obtain ⟨b, s, addrB, found⟩ := ok.heap.kind_slab idx bound kind
    obtain rfl : b = a := Option.some.inj (addrB.symm.trans addr)
    exact ⟨s, found, cachePtr_inj ((ok.heap.rep.slab_at b s found).cache.symm.trans cache)⟩
  · rintro ⟨s, found, rfl⟩
    obtain ⟨idx, bound, addr, -, kind⟩ := ok.heap.slab_page a s found
    exact ⟨idx, bound, addr, kind, (ok.heap.rep.slab_at a s found).cache⟩

theorem HeapOk.holds_iff (x : Allocation) : Holds h x ↔ Allocated h owner slab x := by
  have block : ∀ kind order ptr, TaggedBlock h kind order ptr ↔ BlockAt h owner kind order ptr := by
    intro kind order ptr
    unfold TaggedBlock BlockAt
    simp only [ok.heap.pages.allocatedBlock_iff]
    constructor
    · rintro ⟨idx, ⟨bound, owned⟩, addr, tag⟩
      exact ⟨idx, bound, addr, owned, tag⟩
    · rintro ⟨idx, bound, addr, owned, tag⟩
      exact ⟨idx, ⟨bound, owned⟩, addr, tag⟩
  cases x with
  | object c o =>
    constructor
    · rintro ⟨a, free, slabAt, list, object, used⟩
      obtain ⟨s, found, cls⟩ := ok.slabAtPage_iff.mp slabAt
      rw [list.unique (ok.heap.rep.slab_at a s found).freelistOf] at used
      exact ⟨a, s, found, cls, object, used⟩
    · rintro ⟨a, s, found, cls, object, used⟩
      exact ⟨a, s.free, ok.slabAtPage_iff.mpr ⟨s, found, cls⟩, (ok.heap.rep.slab_at a s found).freelistOf, object,
        used⟩
  | large order ptr => exact block .large order ptr
  | direct order ptr => exact block .none order ptr

end Reading

theorem heapRun_kfree {boot : BootInputs} {m : PageAllocator} (started : memoryInit boot = some m)
    (array : CacheArray) (mem : Mem) (ops : List HeapOp) :
    ∃ s, heapRun ops (heapStart m array mem) = some s ∧
      (∀ x, Holds s.heap x ↔ ∃ l ∈ s.live, l.allocation = x) ∧
      ∀ ptr : UInt64,
        (∀ size, .kmalloc size ptr.toNat ∈ s.live →
          ∃ h', kfree ptr.toNat s.heap = some h' ∧
            ∀ x, Holds h' x ↔ Holds s.heap x ∧ x ≠ requested size ptr.toNat) ∧
        ((∀ size, .kmalloc size ptr.toNat ∉ s.live) → kfree ptr.toNat s.heap = some s.heap) := by
  obtain ⟨s, owner, slab, runs, session⟩ := heapRun_ok started array mem ops
  refine ⟨s, runs, fun x => (session.ok.holds_iff x).trans (session.held x), fun ptr => ?_⟩
  rcases session.ok.kfree ptr.toNat_lt with ⟨ignored, none⟩ | ⟨x, h', owner', slab', done, here, kind, removes⟩
  · refine ⟨fun size live => ?_, fun _ => ignored⟩
    have shape := requested_ptr size ptr.toNat
    exact absurd shape.1 (none _ ((session.held _).mpr ⟨_, live, rfl⟩) shape.2)
  · refine ⟨fun size live => ⟨h', done, fun y => ?_⟩, fun noLive => ?_⟩
    · have same : x = requested size ptr.toNat := session.ok.allocated_unique removes.held
        ((session.held _).mpr ⟨_, live, rfl⟩) (here.trans (requested_ptr size ptr.toNat).1.symm)
      rw [removes.ok.holds_iff, session.ok.holds_iff, removes.shrunk, same]
    · obtain ⟨l, live, rfl⟩ := (session.held x).mp removes.held
      cases l with
      | kmalloc size p =>
        obtain rfl : p = ptr.toNat := (requested_ptr size p).1.symm.trans here
        exact absurd live (noLive size)
      | pages count p => exact absurd rfl kind

theorem heapRun_kfree_sampleBoot : ∃ m, memoryInit sampleBoot = some m ∧
    ∃ s, heapRun [.kmalloc 5000, .pAlloc 1, .kmalloc 900] (heapStart m sampleCaches ⟨fun _ => 0⟩) = some s ∧
      (∀ x, Holds s.heap x ↔ ∃ l ∈ s.live, l.allocation = x) ∧
      ∀ ptr : UInt64,
        (∀ size, .kmalloc size ptr.toNat ∈ s.live →
          ∃ h', kfree ptr.toNat s.heap = some h' ∧
            ∀ x, Holds h' x ↔ Holds s.heap x ∧ x ≠ requested size ptr.toNat) ∧
        ((∀ size, .kmalloc size ptr.toNat ∉ s.live) → kfree ptr.toNat s.heap = some s.heap) := by
  obtain ⟨m, started⟩ := sampleBoot_starts
  exact ⟨m, started, heapRun_kfree started _ _ _⟩

def Live.ptr : Live → Nat
  | .kmalloc _ ptr | .pages _ ptr => ptr

def Live.bytes : Live → Nat
  | .kmalloc size _ =>
    match sizeToClass size with
    | some c => kmallocClasses c
    | none => 2 ^ Nat.clog 2 ((size + pageSize - 1) / pageSize) * pageSize
  | .pages count _ => 2 ^ Nat.clog 2 count * pageSize

theorem Live.range_eq (l : Live) : l.allocation.ptr = l.ptr ∧ l.allocation.bytes = l.bytes := by
  cases l with
  | kmalloc size ptr =>
    simp only [allocation, requested, Live.ptr, Live.bytes]
    cases sizeToClass size <;> exact ⟨rfl, rfl⟩
  | pages count ptr => exact ⟨rfl, rfl⟩

theorem sizeToClass_smallest {size : Nat} (pos : 0 < size) (small : size ≤ kmallocMaxSlabSize) :
    ∃ c, sizeToClass size = some c ∧ size ≤ kmallocClasses c ∧
      ∀ d, size ≤ kmallocClasses d → kmallocClasses c ≤ kmallocClasses d := by
  have mono : ∀ c d : ClassIdx, c ≤ d → kmallocClasses c ≤ kmallocClasses d := by decide
  have scan : sizeToClass size = (List.finRange 8).find? fun i => size ≤ kmallocClasses i :=
    if_neg (by omega)
  have found : ((List.finRange 8).find? fun i => size ≤ kmallocClasses i).isSome = true :=
    List.find?_isSome.mpr ⟨7, List.mem_finRange 7, decide_eq_true small⟩
  obtain ⟨c, first⟩ := Option.isSome_iff_exists.mp found
  refine ⟨c, scan.trans first, by simpa using List.find?_some first, fun d fits => mono c d ?_⟩
  obtain ⟨-, i, bound, rfl, before⟩ := List.find?_eq_some_iff_getElem.mp first
  by_contra earlier
  have skipped := before d.val (by simpa [Fin.lt_def] using earlier)
  simp only [List.getElem_finRange, Fin.cast_mk, Fin.eta, Bool.not_eq_true', decide_eq_false_iff_not] at skipped
  exact skipped fits

theorem pages_cover (size : Nat) : size ≤ 2 ^ Nat.clog 2 ((size + pageSize - 1) / pageSize) * pageSize := by
  have enough := Nat.le_pow_clog (show 1 < 2 by decide) ((size + pageSize - 1) / pageSize)
  have step := Nat.mul_le_mul_right pageSize enough
  have whole := Nat.div_add_mod (size + pageSize - 1) pageSize
  have part := Nat.mod_lt (size + pageSize - 1) (show 0 < pageSize by decide)
  rw [Nat.mul_comm] at whole
  omega

structure LiveRanges (s : Session) : Prop where
  disjoint : s.live.Pairwise fun l l' => RangesApart l.ptr l.bytes l'.ptr l'.bytes
  small : ∀ size ptr, .kmalloc size ptr ∈ s.live → size ≤ kmallocMaxSlabSize → 1 ≤ size ∧
    ∃ c, size ≤ kmallocClasses c ∧
      (∀ d, size ≤ kmallocClasses d → kmallocClasses c ≤ kmallocClasses d) ∧
      (Live.kmalloc size ptr).bytes = kmallocClasses c ∧ kmallocClasses c ∣ ptr
  large : ∀ size ptr, .kmalloc size ptr ∈ s.live → kmallocMaxSlabSize < size →
    pageSize ∣ ptr ∧ pageSize ∣ (Live.kmalloc size ptr).bytes ∧ size ≤ (Live.kmalloc size ptr).bytes
  headers : ∀ l ∈ s.live, ∀ c a, SlabAtPage s.heap c a → RangesApart l.ptr l.bytes a slabHeaderSize
  free_objects : ∀ l ∈ s.live, ∀ c a free, SlabAtPage s.heap c a → FreelistOf s.heap.mem a free →
    ∀ o ∈ free, RangesApart l.ptr l.bytes o (kmallocClasses c)
  free_blocks : ∀ l ∈ s.live, ∀ order head pa, FreeBlock s.heap.pages order head →
    indexToPa s.heap.pages.layout head = some pa → RangesApart l.ptr l.bytes pa (2 ^ order * pageSize)
  reserved : ∀ l ∈ s.live, ∀ p < s.heap.pages.layout.managedPageCount, ∀ pa,
    pageReserved s.heap.pages.layout p = true → indexToPa s.heap.pages.layout p = some pa →
      RangesApart l.ptr l.bytes pa pageSize
  frames : ∀ l ∈ s.live, RangesApart l.ptr l.bytes s.heap.pages.layout.frameArray
    (s.heap.pages.layout.managedPageCount * frameMetaSize)

theorem SessionOk.liveRanges {s : Session} {owner : Nat → Owner} {slab : Nat → Option SlabView}
    (session : SessionOk s owner slab) : LiveRanges s := by
  have ok := session.ok
  have heldBy : ∀ l ∈ s.live, Allocated s.heap owner slab l.allocation := fun l member =>
    (session.held _).mpr ⟨l, member, rfl⟩
  refine ⟨?_, fun size ptr member small => ?_, fun size ptr member large => ?_, fun l member c a slabAt => ?_,
    fun l member c a free slabAt list o inList => ?_, fun l member order head pa free addr => ?_,
    fun l member p bound pa reserved addr => ?_, fun l member => ?_⟩
  · refine List.Pairwise.imp_of_mem ?_ session.distinct
    intro l l' member member' different
    have apart := ok.allocated_apart (heldBy l member) (heldBy l' member') different
    rwa [l.range_eq.1, l.range_eq.2, l'.range_eq.1, l'.range_eq.2] at apart
  · have pos := session.positive size ptr member
    obtain ⟨c, cls, fits, smallest⟩ := sizeToClass_smallest pos small
    have held := heldBy _ member
    simp only [Live.allocation, requested, cls] at held
    obtain ⟨a, t, found, rfl, object, -⟩ := held
    exact ⟨pos, t.cls, fits, smallest, by simp [Live.bytes, cls],
      object.aligned (ok.heap.rep.slab_at a t found).aligned⟩
  · have noClass : sizeToClass size = none := if_pos (Or.inr large)
    have held := heldBy _ member
    simp only [Live.allocation, requested, noClass] at held
    obtain ⟨idx, bound, addr, owned, -⟩ := held
    have nonnull : ptr ≠ 0 := by
      rintro rfl
      exact ok.heap.pages.indexToPa_ne_zero bound (by simp [owned]) addr
    simp only [Live.bytes, noClass]
    exact ⟨(slabPage_of_addr ok.heap.pages addr nonnull).aligned, Nat.dvd_mul_left _ _, pages_cover size⟩
  all_goals rw [← l.range_eq.1, ← l.range_eq.2]
  · obtain ⟨t, found, -⟩ := ok.slabAtPage_iff.mp slabAt
    exact ok.header_apart (heldBy l member) found
  · obtain ⟨t, found, rfl⟩ := ok.slabAtPage_iff.mp slabAt
    rw [list.unique (ok.heap.rep.slab_at a t found).freelistOf] at inList
    exact ok.freeObject_apart (heldBy l member) found inList
  · exact ok.freeBlock_apart (heldBy l member) free addr
  · exact ok.reserved_apart (heldBy l member) bound reserved addr
  · exact ok.frames_apart (heldBy l member)

theorem heapRun_liveRanges {boot : BootInputs} {m : PageAllocator} (started : memoryInit boot = some m)
    (array : CacheArray) (mem : Mem) (ops : List HeapOp) :
    ∃ s, heapRun ops (heapStart m array mem) = some s ∧ LiveRanges s := by
  obtain ⟨s, owner, slab, runs, session⟩ := heapRun_ok started array mem ops
  exact ⟨s, runs, session.liveRanges⟩

theorem heapRun_liveRanges_sampleBoot : ∃ m, memoryInit sampleBoot = some m ∧
    ∃ s, heapRun [.kmalloc 24, .kmalloc 2048, .pAlloc 3, .kfree 0x80004800, .kmalloc 9000]
      (heapStart m sampleCaches ⟨fun _ => 0⟩) = some s ∧ LiveRanges s := by
  obtain ⟨m, started⟩ := sampleBoot_starts
  exact ⟨m, started, heapRun_liveRanges started _ _ _⟩

end OrangeKernel.Slab
