import OrangeKernel.Slab.Kfree

set_option autoImplicit false

namespace OrangeKernel.Slab

open Machine Memory ByteMemory Intrusive AlignedBlock

def Allocation.bytes : Allocation → Nat
  | .object c _ => kmallocClasses c
  | .large order _ | .direct order _ => 2 ^ order * pageSize

theorem Allocation.bytes_pos (x : Allocation) : 0 < x.bytes := by
  cases x with
  | object c o => exact Nat.lt_of_lt_of_le (by decide) (class_bounds c).1
  | large order ptr => exact Nat.mul_pos (Nat.two_pow_pos order) (by decide)
  | direct order ptr => exact Nat.mul_pos (Nat.two_pow_pos order) (by decide)

structure InBlock (h : Heap) (owner : Nat → Owner) (idx order base : Nat) : Prop where
  bound : idx < h.pages.layout.managedPageCount
  addr : indexToPa h.pages.layout idx = some base
  owned : owner idx = .allocated order idx

variable {order a : Nat} {s : SlabView}

section Ranges

variable {h : Heap} {owner : Nat → Owner} {slab : Nat → Option SlabView} (ok : HeapOk h owner slab)
include ok

theorem InBlock.block {idx base : Nat} (inBlock : InBlock h owner idx order base) :
    BlockOk h.pages.layout order idx ∧ ∀ q, Inside order idx q →
      q < h.pages.layout.managedPageCount ∧ owner q = .allocated order idx := by
  obtain ⟨blockOk, whole⟩ := ok.heap.pages.block_of_head inBlock.bound (by rw [inBlock.owned]; rfl)
  exact ⟨blockOk, fun q inside => ⟨(whole q inside).1, (whole q inside).2.trans inBlock.owned⟩⟩

variable {x : Allocation}

theorem HeapOk.inBlock (held : Allocated h owner slab x) :
    ∃ idx order base, InBlock h owner idx order base ∧ (h.pages.frames idx).kind = x.kind ∧ base ≤ x.ptr ∧
      x.ptr + x.bytes ≤ base + 2 ^ order * pageSize := by
  cases x with
  | object c o =>
    obtain ⟨a, s, found, rfl, object, used⟩ := held
    obtain ⟨idx, bound, addr, owned, kind⟩ := ok.heap.slab_page a s found
    have bounds := object.bounds
    refine ⟨idx, 0, a, ⟨bound, addr, owned⟩, kind, ?_, ?_⟩
    · exact Nat.le_trans (Nat.le_add_right _ _) bounds.1
    · rw [Nat.pow_zero, Nat.one_mul]
      exact bounds.2
  | large order ptr =>
    obtain ⟨idx, bound, addr, owned, kind⟩ := held
    exact ⟨idx, order, ptr, ⟨bound, addr, owned⟩, kind, Nat.le_refl _, Nat.le_refl _⟩
  | direct order ptr =>
    obtain ⟨idx, bound, addr, owned, kind⟩ := held
    exact ⟨idx, order, ptr, ⟨bound, addr, owned⟩, kind, Nat.le_refl _, Nat.le_refl _⟩

theorem InBlock.apart {idx base idx' order' base' : Nat} (left : InBlock h owner idx order base)
    (right : InBlock h owner idx' order' base') (different : idx ≠ idx') :
    RangesApart base (2 ^ order * pageSize) base' (2 ^ order' * pageSize) := by
  obtain ⟨block, whole⟩ := left.block ok
  obtain ⟨block', whole'⟩ := right.block ok
  apply blocks_apart ok.heap.pages.rep.layout_ok block left.addr block' right.addr
  intro q inside inside'
  have same := (whole q inside).2.symm.trans (whole' q inside').2
  exact different (Owner.allocated.inj same).2

theorem HeapOk.slab_or_apart (held : Allocated h owner slab x) (found : slab a = some s) :
    (∃ o, x = .object s.cls o ∧ IsObject s.cls a o ∧ o ∉ s.free) ∨ RangesApart x.ptr x.bytes a pageSize := by
  obtain ⟨idx', bound', addr', owned', kind'⟩ := ok.heap.slab_page a s found
  have inSlab : InBlock h owner idx' 0 a := ⟨bound', addr', owned'⟩
  obtain ⟨idx, order, base, inX, kindX, low, high⟩ := ok.inBlock held
  by_cases slabKind : x.kind = .slab
  · cases x with
    | object c o =>
      obtain ⟨b, t, foundB, rfl, object, used⟩ := held
      by_cases here : b = a
      · subst here
        obtain rfl := Option.some.inj (found.symm.trans foundB)
        exact Or.inl ⟨o, rfl, object, used⟩
      · have bounds := object.bounds
        exact Or.inr ((pages_apart (ok.heap.rep.slab_at b t foundB).aligned
          (ok.heap.rep.slab_at a s found).aligned here).imp (fun before => bounds.2.trans before)
          (fun after => after.trans (Nat.le_trans (Nat.le_add_right _ _) bounds.1)))
    | large order ptr => simp [Allocation.kind] at slabKind
    | direct order ptr => simp [Allocation.kind] at slabKind
  · right
    have here : idx ≠ idx' := by
      rintro rfl
      exact slabKind (kindX.symm.trans kind')
    exact (inX.apart ok inSlab here).mono ⟨low, high⟩ ⟨Nat.le_refl _, by simp⟩

variable {y : Allocation}

theorem HeapOk.object_apart {c : ClassIdx} {o : Nat}
    (heldX : Allocated h owner slab (.object c o)) (heldY : Allocated h owner slab y) (different : .object c o ≠ y) :
    RangesApart o (kmallocClasses c) y.ptr y.bytes := by
  obtain ⟨a, s, found, rfl, object, used⟩ := heldX
  rcases ok.slab_or_apart heldY found with ⟨o', rfl, object', -⟩ | apart
  · exact object.apart object' fun same => different (congrArg (Allocation.object s.cls) same)
  · have bounds := object.bounds
    exact apart.symm.mono ⟨Nat.le_trans (Nat.le_add_right _ _) bounds.1, bounds.2⟩
      ⟨Nat.le_refl _, Nat.le_refl _⟩

theorem HeapOk.allocated_apart (heldX : Allocated h owner slab x)
    (heldY : Allocated h owner slab y) (different : x ≠ y) : RangesApart x.ptr x.bytes y.ptr y.bytes := by
  have blocks : ∀ {kind kind' order order' ptr ptr'}, BlockAt h owner kind order ptr →
      BlockAt h owner kind' order' ptr' → (kind = kind' → order = order' → ptr ≠ ptr') →
      RangesApart ptr (2 ^ order * pageSize) ptr' (2 ^ order' * pageSize) := by
    rintro kind kind' order order' ptr ptr' ⟨idx, bound, addr, owned, rfl⟩
      ⟨idx', bound', addr', owned', rfl⟩ other
    have left : InBlock h owner idx order ptr := ⟨bound, addr, owned⟩
    refine left.apart ok ⟨bound', addr', owned'⟩ ?_
    rintro rfl
    rw [owned] at owned'
    exact other rfl (Owner.allocated.inj owned').1 (Option.some.inj (addr.symm.trans addr'))
  cases x with
  | object c o => exact ok.object_apart heldX heldY different
  | large order ptr =>
    cases y with
    | object c o => exact (ok.object_apart heldY heldX different.symm).symm
    | large order' ptr' =>
      exact blocks heldX heldY fun _ same here => different (congrArg₂ Allocation.large same here)
    | direct order' ptr' => exact blocks heldX heldY fun kinds => by simp at kinds
  | direct order ptr =>
    cases y with
    | object c o => exact (ok.object_apart heldY heldX different.symm).symm
    | large order' ptr' => exact blocks heldX heldY fun kinds => by simp at kinds
    | direct order' ptr' =>
      exact blocks heldX heldY fun _ same here => different (congrArg₂ Allocation.direct same here)

theorem HeapOk.allocated_unique (heldX : Allocated h owner slab x)
    (heldY : Allocated h owner slab y) (same : x.ptr = y.ptr) : x = y := by
  by_contra different
  have apart := ok.allocated_apart heldX heldY different
  have posX := x.bytes_pos
  have posY := y.bytes_pos
  unfold RangesApart at apart
  omega

theorem HeapOk.header_apart (held : Allocated h owner slab x) (found : slab a = some s) :
    RangesApart x.ptr x.bytes a slabHeaderSize := by
  rcases ok.slab_or_apart held found with ⟨o, rfl, object, -⟩ | apart
  · exact Or.inr object.bounds.1
  · exact apart.mono ⟨Nat.le_refl _, Nat.le_refl _⟩ ⟨Nat.le_refl _, Nat.add_le_add_left (by decide) a⟩

theorem HeapOk.freeObject_apart (held : Allocated h owner slab x) (found : slab a = some s) {o : Nat}
    (free : o ∈ s.free) : RangesApart x.ptr x.bytes o (kmallocClasses s.cls) := by
  have object := (ok.heap.rep.slab_at a s found).freelist.objects o free
  rcases ok.slab_or_apart held found with ⟨o', rfl, object', used⟩ | apart
  · exact object'.apart object fun same => used (same ▸ free)
  · have bounds := object.bounds
    exact apart.mono ⟨Nat.le_refl _, Nat.le_refl _⟩ ⟨Nat.le_trans (Nat.le_add_right _ _) bounds.1, bounds.2⟩

theorem HeapOk.allocated_byte (held : Allocated h owner slab x) {v : Nat} (low : x.ptr ≤ v)
    (high : v < x.ptr + x.bytes) :
    ∃ q < h.pages.layout.managedPageCount, InPage h.pages.layout q v ∧ ∃ order head,
      owner q = .allocated order head := by
  obtain ⟨idx, order, base, inX, -, lowX, highX⟩ := ok.inBlock held
  obtain ⟨block, whole⟩ := inX.block ok
  obtain ⟨q, inside, page⟩ := ok.heap.pages.rep.layout_ok.inPage_of_block block inX.addr (lowX.trans low)
    (Nat.lt_of_lt_of_le high highX)
  exact ⟨q, (whole q inside).1, page, order, idx, (whole q inside).2⟩

theorem HeapOk.freeBlock_apart (held : Allocated h owner slab x) {head pa : Nat}
    (free : FreeBlock h.pages order head) (addr : indexToPa h.pages.layout head = some pa) :
    RangesApart x.ptr x.bytes pa (2 ^ order * pageSize) := by
  obtain ⟨bound, owned⟩ := ok.heap.pages.freeBlock_iff.mp free
  obtain ⟨block, whole⟩ := ok.heap.pages.block_of_head bound (by rw [owned]; rfl)
  apply rangesApart_of_bytes x.bytes_pos (Nat.mul_pos (Nat.two_pow_pos order) (by decide))
  intro v low high low' high'
  obtain ⟨q, -, page, order', head', allocated⟩ := ok.allocated_byte held low high
  obtain ⟨q', inside, page'⟩ := ok.heap.pages.rep.layout_ok.inPage_of_block block addr low' high'
  obtain rfl := ok.heap.pages.rep.layout_ok.inPage_unique page page'
  rw [(whole q inside).2, owned] at allocated
  simp at allocated

theorem HeapOk.reserved_apart (held : Allocated h owner slab x) {p pa : Nat}
    (bound : p < h.pages.layout.managedPageCount) (reserved : pageReserved h.pages.layout p = true)
    (addr : indexToPa h.pages.layout p = some pa) : RangesApart x.ptr x.bytes pa pageSize := by
  apply rangesApart_of_bytes x.bytes_pos (by decide)
  intro v low high low' high'
  obtain ⟨q, -, page, order', head', allocated⟩ := ok.allocated_byte held low high
  obtain rfl := ok.heap.pages.rep.layout_ok.inPage_unique page ⟨pa, addr, low', high'⟩
  rw [(ok.heap.pages.reserved q bound).mpr reserved] at allocated
  simp at allocated

theorem HeapOk.frames_apart (held : Allocated h owner slab x) :
    RangesApart x.ptr x.bytes h.pages.layout.frameArray (h.pages.layout.managedPageCount * frameMetaSize) := by
  have layoutOk := ok.heap.pages.rep.layout_ok
  obtain ⟨p, bound, -⟩ := ok.allocated_byte held (Nat.le_refl _) (Nat.lt_add_of_pos_right x.bytes_pos)
  apply rangesApart_of_bytes x.bytes_pos (Nat.mul_pos (by omega) (by decide))
  intro v low high low' high'
  obtain ⟨q, inRange, ⟨pa, addr, first, last⟩, order, head, allocated⟩ := ok.allocated_byte held low high
  obtain ⟨r, member, start, stop⟩ := ok.heap.pages.boot.frames
  obtain ⟨n, aligned⟩ := ok.heap.pages.boot.aligned r member
  -- The reservation of the frame array starts at a page, so it has the whole page of `v`.
  obtain ⟨region, inTable, contains, rfl⟩ := layoutOk.contains_of_indexToPa addr
  obtain ⟨k, page⟩ := Nat.dvd_of_mod_eq_zero ((layoutOk.region region inTable).addr_aligned q)
  have reserved : pageReserved h.pages.layout q = true := by
    rw [pageReserved, addr]
    refine List.any_eq_true.mpr ⟨r, member, ?_⟩
    simp only [Bool.and_eq_true, decide_eq_true_eq]
    unfold pageSize at *
    omega
  rw [(ok.heap.pages.reserved q inRange).mpr reserved] at allocated
  simp at allocated

end Ranges

end OrangeKernel.Slab
