import OrangeKernel.Slab.Ranges

set_option autoImplicit false

-- A client frees pages only while it holds them and writes only inside its allocations.

namespace OrangeKernel.Slab

open Machine Memory ByteMemory Intrusive AlignedBlock

inductive HeapOp where
  | kmalloc (size : Nat)
  | kfree (ptr : UInt64)
  | pAlloc (pages : Nat)
  | pFree (ptr : Nat)
  | write (addr : Nat) (value : UInt8)

inductive Live where
  | kmalloc (size ptr : Nat)
  | pages (count ptr : Nat)
deriving DecidableEq

def Live.allocation : Live → Allocation
  | .kmalloc size ptr => requested size ptr
  | .pages count ptr => .direct (Nat.clog 2 count) ptr

def Live.isKmallocAt (ptr : Nat) : Live → Bool
  | .kmalloc _ p => p = ptr
  | .pages _ _ => false

def Live.isPagesAt (ptr : Nat) : Live → Bool
  | .kmalloc _ _ => false
  | .pages _ p => p = ptr

def Live.covers (addr : Nat) (l : Live) : Bool :=
  l.allocation.ptr ≤ addr && addr < l.allocation.ptr + l.allocation.bytes

structure Session where
  heap : Heap
  live : List Live

def heapStep (s : Session) : HeapOp → Option Session
  | .kmalloc size =>
    (kmalloc size s.heap).map fun result =>
      { heap := result.2
        live := if result.1 = 0 then s.live else .kmalloc size result.1 :: s.live }
  | .kfree ptr =>
    (kfree ptr.toNat s.heap).map fun heap =>
      { heap := heap
        live := s.live.filter fun l => !l.isKmallocAt ptr.toNat }
  | .pAlloc pages =>
    let result := pAlloc pages s.heap.pages
    some
      { heap := { s.heap with pages := result.2 }
        live := if result.1 = 0 then s.live else .pages pages result.1 :: s.live }
  | .pFree ptr =>
    if s.live.any (Live.isPagesAt ptr) then
      some
        { heap := { s.heap with pages := pFree ptr s.heap.pages }
          live := s.live.filter fun l => !l.isPagesAt ptr }
    else some s
  | .write addr value =>
    if s.live.any (Live.covers addr) then
      some { s with heap := { s.heap with mem := fill addr 1 value s.heap.mem } }
    else some s

def heapRun (ops : List HeapOp) (h : Heap) : Option Session :=
  ops.foldlM heapStep { heap := h, live := [] }

structure SessionOk (s : Session) (owner : Nat → Owner) (slab : Nat → Option SlabView) : Prop where
  ok : HeapOk s.heap owner slab
  held : ∀ x, Allocated s.heap owner slab x ↔ ∃ l ∈ s.live, l.allocation = x
  distinct : s.live.Pairwise fun l l' => l.allocation ≠ l'.allocation
  positive : ∀ size ptr, .kmalloc size ptr ∈ s.live → 0 < size

theorem requested_ptr (size ptr : Nat) : (requested size ptr).ptr = ptr ∧ (requested size ptr).kind ≠ .none := by
  unfold requested
  split <;> simp [Allocation.ptr, Allocation.kind]

theorem Live.isKmallocAt_iff (l : Live) (ptr : Nat) :
    l.isKmallocAt ptr = true ↔ l.allocation.ptr = ptr ∧ l.allocation.kind ≠ .none := by
  cases l with
  | kmalloc size p =>
    have shape := requested_ptr size p
    simp [isKmallocAt, allocation, shape.1, shape.2]
  | pages count p => simp [isKmallocAt, allocation, Allocation.kind]

theorem Live.isPagesAt_iff (l : Live) (ptr : Nat) :
    l.isPagesAt ptr = true ↔ l.allocation.ptr = ptr ∧ l.allocation.kind = .none := by
  cases l with
  | kmalloc size p =>
    have shape := requested_ptr size p
    simp [isPagesAt, allocation, shape.2]
  | pages count p => simp [isPagesAt, allocation, Allocation.ptr, Allocation.kind]

section Step

variable {s : Session} {owner : Nat → Owner} {slab : Nat → Option SlabView} (session : SessionOk s owner slab)
include session

theorem SessionOk.add {h' : Heap} {owner' : Nat → Owner} {slab' : Nat → Option SlabView} (l : Live)
    (adds : Adds s.heap owner slab h' owner' slab' l.allocation)
    (positive : ∀ size ptr, l = .kmalloc size ptr → 0 < size) :
    SessionOk { heap := h', live := l :: s.live } owner' slab' where
  ok := adds.ok
  held := by
    intro x
    rw [adds.grown, session.held]
    simp only [List.mem_cons, or_and_right, exists_or, exists_eq_left]
    rw [or_comm, eq_comm]
  distinct := by
    refine List.pairwise_cons.mpr ⟨fun l' member same => adds.fresh ?_, session.distinct⟩
    rw [same]
    exact (session.held _).mpr ⟨l', member, rfl⟩
  positive := by
    intro size ptr member
    rcases List.mem_cons.mp member with here | rest
    · exact positive size ptr here.symm
    · exact session.positive size ptr rest

theorem SessionOk.remove {h' : Heap} {owner' : Nat → Owner} {slab' : Nat → Option SlabView} {x : Allocation}
    (removes : Removes s.heap owner slab h' owner' slab' x) (gone : Live → Bool)
    (exactly : ∀ l ∈ s.live, gone l = true ↔ l.allocation = x) :
    SessionOk { heap := h', live := s.live.filter fun l => !gone l } owner' slab' where
  ok := removes.ok
  held := by
    intro y
    rw [removes.shrunk, session.held]
    simp only [List.mem_filter, Bool.not_eq_true']
    constructor
    · rintro ⟨⟨l, member, rfl⟩, other⟩
      refine ⟨l, ⟨member, ?_⟩, rfl⟩
      rw [← Bool.not_eq_true, exactly l member]
      exact other
    · rintro ⟨l, ⟨member, stays⟩, rfl⟩
      refine ⟨⟨l, member, rfl⟩, ?_⟩
      rwa [← Bool.not_eq_true, exactly l member] at stays
  distinct := session.distinct.filter _
  positive := fun size ptr member => session.positive size ptr (List.mem_filter.mp member).1

theorem SessionOk.write {addr : Nat} {l : Live} (member : l ∈ s.live) (covers : l.covers addr = true)
    (value : UInt8) :
    SessionOk { s with heap := { s.heap with mem := fill addr 1 value s.heap.mem } } owner slab := by
  have held := (session.held l.allocation).mpr ⟨l, member, rfl⟩
  simp only [Live.covers, Bool.and_eq_true, decide_eq_true_eq] at covers
  have heap := session.ok.heap
  have rep : SlabRep { s.heap with mem := fill addr 1 value s.heap.mem } slab := by
    refine heap.rep.frame rfl rfl (fun a t field found => ?_) fun a t o found free => ?_
    · have apart := session.ok.header_apart held found
      have inside := field_bounds field
      unfold RangesApart at apart
      exact load_fill_apart (by omega)
    · have apart := session.ok.freeObject_apart held found free
      have size := (class_bounds t.cls).1
      unfold RangesApart at apart
      exact load_fill_apart (by omega)
  exact
    { ok := ⟨⟨heap.pages, rep, heap.ready, heap.slab_page, heap.kind_slab, heap.kind_head⟩, session.ok.filled,
        session.ok.one_empty, session.ok.count⟩
      held := fun x => by
        rw [← session.held]
        cases x <;> rfl
      distinct := session.distinct
      positive := session.positive }

theorem SessionOk.step (op : HeapOp) : ∃ s' owner' slab', heapStep s op = some s' ∧ SessionOk s' owner' slab' := by
  have heldBy : ∀ l ∈ s.live, Allocated s.heap owner slab l.allocation := fun l member =>
    (session.held _).mpr ⟨l, member, rfl⟩
  cases op with
  | kmalloc size =>
    rcases session.ok.kmalloc size with null | ⟨p, h', owner', slab', done, pos, adds⟩
    · exact ⟨s, owner, slab, by simp [heapStep, null], session⟩
    · have nonnull : p ≠ 0 := (requested_ptr size p).1 ▸ adds.nonnull
      refine ⟨_, owner', slab', by simp only [heapStep, done, Option.map_some, if_neg nonnull],
        session.add (.kmalloc size p) adds fun size' ptr same => ?_⟩
      rw [← (Live.kmalloc.inj same).1]
      exact pos
  | kfree ptr =>
    rcases session.ok.kfree ptr.toNat_lt
      with ⟨ignored, none⟩ | ⟨x, h', owner', slab', done, here, kind, removes⟩
    · have kept : s.live.filter (fun l => !l.isKmallocAt ptr.toNat) = s.live := by
        apply List.filter_eq_self.mpr
        intro l member
        rw [Bool.not_eq_true', ← Bool.not_eq_true, l.isKmallocAt_iff]
        rintro ⟨here, kmalloced⟩
        exact none l.allocation (heldBy l member) kmalloced here
      exact ⟨s, owner, slab, by simp [heapStep, ignored, kept], session⟩
    · refine ⟨_, owner', slab', by simp only [heapStep, done, Option.map_some],
        session.remove removes (Live.isKmallocAt ptr.toNat) fun l member => ?_⟩
      rw [l.isKmallocAt_iff]
      constructor
      · rintro ⟨at', -⟩
        exact session.ok.allocated_unique (heldBy l member) removes.held (at'.trans here.symm)
      · rintro rfl
        exact ⟨here, kind⟩
  | pAlloc pages =>
    rcases session.ok.heap.pages.pAlloc pages with null | ⟨owner', idx, done, pagesOk, nonnull⟩
    · exact ⟨s, owner, slab, by simp [heapStep, null], session⟩
    · exact ⟨_, owner', slab, by simp only [heapStep, if_neg nonnull],
        session.add (.pages pages _) (session.ok.adds_block done pagesOk nonnull).1 (by simp)⟩
  | pFree ptr =>
    by_cases live : s.live.any (Live.isPagesAt ptr) = true
    · obtain ⟨l, member, isLive⟩ := List.any_eq_true.mp live
      cases l with
      | kmalloc size p => simp [Live.isPagesAt] at isLive
      | pages count p =>
        obtain rfl : p = ptr := by simpa [Live.isPagesAt] using isLive
        obtain ⟨owner', removes⟩ := session.ok.removes_direct (heldBy _ member)
        refine ⟨_, owner', slab, if_pos live, session.remove removes (Live.isPagesAt p) fun l' member' => ?_⟩
        rw [l'.isPagesAt_iff]
        constructor
        · rintro ⟨here, -⟩
          exact session.ok.allocated_unique (heldBy l' member') removes.held here
        · intro same
          simp [same, Allocation.ptr, Allocation.kind]
    · exact ⟨s, owner, slab, if_neg live, session⟩
  | write addr value =>
    by_cases covered : s.live.any (Live.covers addr) = true
    · obtain ⟨l, member, covers⟩ := List.any_eq_true.mp covered
      exact ⟨_, owner, slab, if_pos covered, session.write member covers value⟩
    · exact ⟨s, owner, slab, if_neg covered, session⟩

end Step

theorem foldlM_sessionOk (ops : List HeapOp) {s : Session} {owner : Nat → Owner} {slab : Nat → Option SlabView}
    (session : SessionOk s owner slab) :
    ∃ s' owner' slab', ops.foldlM heapStep s = some s' ∧ SessionOk s' owner' slab' := by
  induction ops generalizing s owner slab with
  | nil => exact ⟨s, owner, slab, rfl, session⟩
  | cons op ops ih =>
    obtain ⟨s₁, owner₁, slab₁, steps, session₁⟩ := session.step op
    obtain ⟨s', owner', slab', runs, session'⟩ := ih session₁
    refine ⟨s', owner', slab', ?_, session'⟩
    rw [List.foldlM_cons, steps]
    exact runs

theorem heapStart_ok {boot : BootInputs} {m : PageAllocator} (started : memoryInit boot = some m)
    (array : CacheArray) (mem : Mem) :
    ∃ owner, SessionOk { heap := heapStart m array mem, live := [] } owner fun _ => none := by
  obtain ⟨owner, pages, placed, kinds⟩ := memoryInit_pagesOk started
  have noBlock : ∀ idx < m.layout.managedPageCount, ∀ order, owner idx ≠ .allocated order idx := by
    intro idx bound order owned
    have at' := placed idx bound
    unfold Placed at at'
    rw [owned] at at'
    split at at'
    · simp at at'
    · exact at'
  have none : ∀ x, ¬ Allocated (heapStart m array mem) owner (fun _ => none) x := by
    intro x held
    cases x with
    | object c o =>
      obtain ⟨a, s, found, -⟩ := held
      simp at found
    | large order ptr =>
      obtain ⟨idx, bound, -, owned, -⟩ := held
      exact noBlock idx bound order owned
    | direct order ptr =>
      obtain ⟨idx, bound, -, owned, -⟩ := held
      exact noBlock idx bound order owned
  have rep : SlabRep (heapStart m array mem) fun _ => Option.none :=
    { slab_at := by simp
      sizes := fun _ => rfl
      lists := fun c st => ⟨[], by cases st <;> rfl, ⟨trivial, trivial⟩, by simp⟩ }
  have heap : HeapRep (heapStart m array mem) owner fun _ => Option.none :=
    { pages := pages
      rep := rep
      ready := rfl
      slab_page := by simp
      kind_slab := fun idx _ kind => by simp [heapStart, kinds] at kind
      kind_head := fun idx _ kind => absurd (kinds idx) kind }
  have empty : inuseTotal m.layout (fun _ => Option.none) = 0 :=
    Finset.sum_eq_zero fun idx _ => by cases indexToPa m.layout idx <;> rfl
  have count : (0 : UInt64) - 0 = UInt64.ofNat (inuseTotal m.layout fun _ => Option.none) := by
    rw [empty]
    rfl
  exact ⟨owner,
    { ok := ⟨heap, by simp, fun a b s t found => by simp at found, count⟩
      held := fun x => by simpa using none x
      distinct := List.Pairwise.nil
      positive := by simp }⟩

theorem heapRun_ok {boot : BootInputs} {m : PageAllocator} (started : memoryInit boot = some m)
    (array : CacheArray) (mem : Mem) (ops : List HeapOp) :
    ∃ s owner slab, heapRun ops (heapStart m array mem) = some s ∧ SessionOk s owner slab := by
  obtain ⟨owner, session⟩ := heapStart_ok started array mem
  exact foldlM_sessionOk ops session

end OrangeKernel.Slab
