import OrangeKernel.Slab.Prepare

set_option autoImplicit false

namespace OrangeKernel.Slab

open Machine Memory ByteMemory Intrusive AlignedBlock

theorem count_succ {allocs frees : UInt64} {total : Nat} (count : allocs - frees = UInt64.ofNat total) :
    allocs + 1 - frees = UInt64.ofNat (total + 1) := by
  rw [UInt64.ofNat_add, ← count]
  grind

structure Adds (h : Heap) (owner : Nat → Owner) (slab : Nat → Option SlabView) (h' : Heap) (owner' : Nat → Owner)
    (slab' : Nat → Option SlabView) (x : Allocation) : Prop where
  ok : HeapOk h' owner' slab'
  nonnull : x.ptr ≠ 0
  fresh : ¬ Allocated h owner slab x
  grown : ∀ y, Allocated h' owner' slab' y ↔ Allocated h owner slab y ∨ y = x

theorem HeapRep.counters {h : Heap} {owner : Nat → Owner} {slab : Nat → Option SlabView}
    (heap : HeapRep h owner slab)
    (allocs frees reclaims : UInt64) :
    HeapRep { h with
      objectAllocCount := allocs
      objectFreeCount := frees
      slabReclaimCount := reclaims } owner slab :=
  ⟨heap.pages, heap.rep.frame rfl rfl (fun _ _ _ _ => rfl) fun _ _ _ _ _ => rfl, heap.ready, heap.slab_page,
    heap.kind_slab, heap.kind_head⟩

section Take

variable {c : ClassIdx} {h h₁ : Heap} {owner owner₁ : Nat → Owner} {slab slab₁ : Nat → Option SlabView}
  {a : Nat}
  {s : SlabView} (prepared : Prepared c h owner slab h₁ owner₁ slab₁ a s)
include prepared

theorem Prepared.takes {o : Nat} {rest : List Nat} (free : s.free = o :: rest) :
    ∃ h₂, kmallocObject c h₁ = some (o, { h₂ with objectAllocCount := h₂.objectAllocCount + 1 }) ∧
      SameRest h₁ h₂ ∧
      SlabRep h₂ (Function.update slab₁ a
        (some { s with
          free := rest
          listed := some (if rest = [] then .slabFull else .slabPartial) })) := by
  have found := prepared.found
  obtain rfl := prepared.cls
  have listed := prepared.listed
  have slabAt := prepared.heap.rep.slab_at a s found
  have object := slabAt.freelist.objects o (by simp [free])
  obtain ⟨popped, rep⟩ := prepared.heap.rep.take found free
  have nonnull := (slabAt.page.object_fits object).1
  have count := slabAt.inuse
  have state := slabAt.state .slabPartial listed
  have head : getField .freelist a h₁.mem = o := by
    rw [slabAt.freelist.head, free]
    rfl
  have stocked : ¬ getField .capacity a h₁.mem ≤ getField .inuse a h₁.mem := by
    rw [slabAt.capacity]
    rw [free, List.length_cons] at count
    omega
  have foundNow : Function.update slab₁ a (some { s with free := rest }) a = some { s with free := rest } := by simp
  have now := rep.slab_at a _ foundNow
  unfold kmallocObject
  simp only [prepared.head, slabAt.pos.ne', if_false, state, head, nonnull, stocked, popped, ne_eq,
    not_true_eq_false, or_self]
  generalize setField .inuse a _ (setField .freelist a (chunkNext o h₁.mem) h₁.mem) = mem at *
  have last : getField .inuse a mem = getField .capacity a mem ↔ rest = [] := by
    have countNow := now.inuse
    have capacityNow := now.capacity
    dsimp only at countNow capacityNow
    rw [← List.length_eq_zero_iff]
    omega
  by_cases drained : rest = []
  · obtain ⟨h₂, moves, rep₂, same⟩ := rep.move foundNow listed .slabFull
    rw [Function.update_idem] at rep₂
    have full : cacheMovePartialToFull s.cls a { h₁ with mem := mem } = some h₂ := by
      rw [cacheMovePartialToFull, if_neg slabAt.pos.ne']
      exact moves
    refine ⟨h₂, ?_, ?_, ?_⟩
    · rw [if_pos (last.mpr drained), full]
      rfl
    · exact ⟨same.pages, same.array, same.allocs, same.frees, same.reclaims, same.ready⟩
    · simpa [drained] using rep₂
  · refine ⟨{ h₁ with mem := mem }, ?_, ⟨rfl, rfl, rfl, rfl, rfl, rfl⟩, ?_⟩
    · rw [if_neg (mt last.mp drained)]
      rfl
    · rw [if_neg drained, ← listed]
      exact rep

theorem Prepared.adds (ok : HeapOk h owner slab) :
    ∃ o h₂ slab₂, kmallocObject c h₁ = some (o, h₂) ∧
      Adds h owner slab h₂ owner₁ slab₂ (.object c o) := by
  obtain ⟨o, rest, free⟩ := List.exists_cons_of_ne_nil prepared.stocked
  obtain ⟨h₂, takes, same, rep⟩ := prepared.takes free
  have found := prepared.found
  have slabAt := prepared.heap.rep.slab_at a s found
  have object := slabAt.freelist.objects o (by simp [free])
  have fits := slabAt.inuse
  rw [free, List.length_cons] at fits
  have nodup := chain_nodup slabAt.freelist.chain
  rw [free, List.nodup_cons] at nodup
  have heap := (prepared.heap.reslab found rep same).counters (h₂.objectAllocCount + 1) h₂.objectFreeCount
    h₂.slabReclaimCount
  obtain ⟨idx, bound, addr, -, -⟩ := prepared.heap.slab_page a s found
  refine ⟨o, _, _, takes, ⟨heap, fun b t foundB => ?_, ?_, ?_⟩, (slabAt.page.object_fits object).1,
    ?_, fun y => ?_⟩
  · by_cases here : b = a
    · subst here
      obtain rfl : _ = t := by simpa using foundB
      cases rest with
      | nil => simp [SlabFilled]
      | cons next others =>
        simp only [SlabFilled, List.length_cons, reduceCtorEq, if_false] at fits ⊢
        omega
    · exact prepared.others b t here (by simpa [here] using foundB)
  · apply prepared.one_empty.update
    dsimp only
    split <;> simp
  · have moved := inuseTotal_update prepared.heap.pages.rep.layout_ok slab₁ bound addr
      (some { s with
        free := rest
        listed := some (if rest = [] then .slabFull else .slabPartial) })
    have count := count_succ ok.count
    rw [found, prepared.total] at moved
    simp only [inuseOf, free, List.length_cons] at moved
    dsimp only
    rw [same.allocs, same.frees, same.pages, prepared.allocs, prepared.frees, count]
    congr 1
    omega
  · rw [← prepared.same, allocated_object_split found]
    rintro (⟨-, -, used⟩ | ⟨b, t, other, foundB, -, objectB, -⟩)
    · simp [free] at used
    · exact other (objectB.page_unique object (prepared.heap.rep.slab_at b t foundB).aligned slabAt.aligned)
  · cases y with
    | object d o' =>
      rw [← prepared.same, allocated_object_update, allocated_object_split found, free, ← prepared.cls]
      constructor
      · rintro (⟨rfl, object', used⟩ | other)
        · by_cases here : o' = o
          · exact Or.inr (by rw [here])
          · exact Or.inl (Or.inl ⟨rfl, object', by simp [here, used]⟩)
        · exact Or.inl (Or.inr other)
      · rintro ((⟨rfl, object', used⟩ | other) | same)
        · exact Or.inl ⟨rfl, object', fun member => used (List.mem_cons_of_mem _ member)⟩
        · exact Or.inr other
        · obtain ⟨rfl, rfl⟩ : d = s.cls ∧ o' = o := by simpa using same
          exact Or.inl ⟨rfl, object, nodup.1⟩
    | large order ptr =>
      rw [← prepared.same]
      simp only [reduceCtorEq, or_false]
      exact blockAt_congr same.pages .large order ptr
    | direct order ptr =>
      rw [← prepared.same]
      simp only [reduceCtorEq, or_false]
      exact blockAt_congr same.pages .none order ptr

end Take

def requested (size ptr : Nat) : Allocation :=
  match sizeToClass size with
  | some c => .object c ptr
  | none => .large (Nat.clog 2 ((size + pageSize - 1) / pageSize)) ptr

section Kmalloc

variable {h : Heap} {owner : Nat → Owner} {slab : Nat → Option SlabView} (ok : HeapOk h owner slab)
include ok

theorem HeapOk.ensurePartial (c : ClassIdx) :
    Slab.ensurePartial c h = some (false, h) ∨ ∃ h₁ owner₁ slab₁ a s,
    Slab.ensurePartial c h = some (true, h₁) ∧
      Prepared c h owner slab h₁ owner₁ slab₁ a s := by
  unfold Slab.ensurePartial
  by_cases none : (h.caches c).slabsPartial = 0
  · rw [if_pos none]
    by_cases nonempty : (h.caches c).slabsEmpty ≠ 0
    · obtain ⟨h₁, slab₁, s, moves, prepared⟩ := ok.prepared_empty none nonempty
      rw [if_pos nonempty, moves]
      exact Or.inr ⟨h₁, owner, slab₁, _, s, rfl, prepared⟩
    · rw [if_neg nonempty]
      rcases ok.prepared_refill none with refused | ⟨h₁, owner₁, slab₁, a, s, refills, prepared⟩
      · exact Or.inl (congrArg some refused)
      · exact Or.inr ⟨h₁, owner₁, slab₁, a, s, congrArg some refills, prepared⟩
  · rw [if_neg none]
    obtain ⟨s, prepared⟩ := ok.prepared_partial none
    exact Or.inr ⟨h, owner, slab, _, s, rfl, prepared⟩

theorem HeapOk.kmallocSmall (size : Nat) :
    Slab.kmallocSmall size h = some (0, h) ∨ ∃ c o h' owner' slab', sizeToClass size = some c ∧
      Slab.kmallocSmall size h = some (o, h') ∧ Adds h owner slab h' owner' slab' (.object c o) := by
  unfold Slab.kmallocSmall
  cases found : sizeToClass size with
  | none => exact Or.inl rfl
  | some c =>
    rcases ok.ensurePartial c with refused | ⟨h₁, owner₁, slab₁, a, s, ready, prepared⟩
    · left
      simp [refused]
    · obtain ⟨o, h₂, slab₂, takes, adds⟩ := prepared.adds ok
      right
      exact ⟨c, o, h₂, owner₁, slab₂, rfl, by simp [ready, takes], adds⟩

theorem HeapOk.adds_block {pages idx : Nat} {owner' : Nat → Owner}
    (done : AllocOk pages h.pages owner (pAlloc pages h.pages) owner' idx)
    (pagesOk : PagesOk (pAlloc pages h.pages).2 owner') (nonnull : (pAlloc pages h.pages).1 ≠ 0) :
    Adds h owner slab { h with pages := (pAlloc pages h.pages).2 } owner' slab
        (.direct (Nat.clog 2 pages) (pAlloc pages h.pages).1) ∧
      Adds h owner slab { h with
          pages := pageSetKind (pAlloc pages h.pages).1 .large (pAlloc pages h.pages).2 } owner' slab
        (.large (Nat.clog 2 pages) (pAlloc pages h.pages).1) := by
  obtain ⟨heapA, unkind, blocksA⟩ := ok.heap.pAlloc done pagesOk
  have unused := ok.heap.pAlloc_unused done
  generalize pAlloc pages h.pages = result at *
  obtain ⟨base, pages'⟩ := result
  dsimp only at *
  have layout : pages'.layout = h.pages.layout := done.kept.layout
  have addr : indexToPa pages'.layout idx = some base := by
    rw [layout]
    exact done.addr
  have bound : idx < pages'.layout.managedPageCount := by
    rw [layout]
    exact done.allocates.block.lt ok.heap.pages.rep.layout_ok (inside_start _ idx)
  have owned : owner' idx = .allocated (Nat.clog 2 pages) idx := done.allocates.now idx (inside_start _ idx)
  have noSlab : slab base = none := heapA.none_of_kind addr (by simp [unkind])
  have count := ok.count
  rw [← layout] at count
  obtain ⟨heapB, blocksB⟩ := heapA.retag .large bound addr owned heapA.rep heapA.ready (fun _ _ => rfl)
    (by simp [noSlab]) (by simp)
  have tagged := (pagesOk_setKind pagesOk bound addr owned .large).1
  constructor
  · refine ⟨⟨heapA, ok.filled, ok.one_empty, count⟩, nonnull, unused .none _, fun y => ?_⟩
    cases y with
    | object c o => simp [Allocated]
    | large order ptr => simpa [Allocated] using blocksA .large order ptr
    | direct order ptr => simpa [Allocated] using blocksA .none order ptr
  · refine ⟨⟨heapB, ok.filled, ok.one_empty, ?_⟩, nonnull, unused .large _, fun y => ?_⟩
    · rw [tagged]
      exact count
    have blocks : ∀ kind order ptr,
      BlockAt { h with pages := pageSetKind base .large pages' } owner' kind order ptr ↔
        BlockAt h owner kind order ptr ∨ (kind = .large ∧ order = Nat.clog 2 pages ∧ ptr = base) := by
      intro kind order ptr
      refine (blocksB kind order ptr).trans ?_
      rw [blocksA]
      by_cases here : ptr = base
      · subst here
        simp [unused]
      · simp [here]
    cases y with
    | object c o => simp [Allocated]
    | large order ptr => simpa [Allocated] using blocks .large order ptr
    | direct order ptr => simpa [Allocated] using blocks .none order ptr

theorem HeapOk.kmallocLarge (size : Nat) :
    Slab.kmallocLarge size h = (0, h) ∨ ∃ p h' owner' slab', Slab.kmallocLarge size h = (p, h') ∧
      Adds h owner slab h' owner' slab' (.large (Nat.clog 2 ((size + pageSize - 1) / pageSize)) p) := by
  unfold Slab.kmallocLarge
  by_cases huge : pageSize * 2 ^ maxOrder < size
  · exact Or.inl (if_pos huge)
  rw [if_neg huge]
  have small : wrap32 ((size + pageSize - 1) / pageSize) = (size + pageSize - 1) / pageSize := by
    apply Nat.mod_eq_of_lt
    unfold pageSize maxOrder at *
    omega
  rw [small]
  rcases ok.heap.pages.pAlloc ((size + pageSize - 1) / pageSize) with null | ⟨owner', idx, done, pagesOk, nonnull⟩
  · left
    simp [null]
  · right
    exact ⟨_, _, owner', slab, if_neg nonnull, (ok.adds_block done pagesOk nonnull).2⟩

theorem HeapOk.kmalloc (size : Nat) :
    Slab.kmalloc size h = some (0, h) ∨ ∃ p h' owner' slab', Slab.kmalloc size h = some (p, h') ∧ 0 < size ∧
      Adds h owner slab h' owner' slab' (requested size p) := by
  unfold Slab.kmalloc
  by_cases zero : size = 0
  · exact Or.inl (if_pos (Or.inr zero))
  rw [if_neg (by simp [ok.heap.ready, zero])]
  by_cases small : size ≤ kmallocMaxSlabSize
  · rw [if_pos small]
    rcases ok.kmallocSmall size with null | ⟨c, o, h', owner', slab', cls, done, adds⟩
    · exact Or.inl null
    · right
      refine ⟨o, h', owner', slab', done, Nat.pos_of_ne_zero zero, ?_⟩
      rw [requested, cls]
      exact adds
  · rw [if_neg small]
    rcases ok.kmallocLarge size with null | ⟨p, h', owner', slab', done, adds⟩
    · exact Or.inl (congrArg some null)
    · right
      refine ⟨p, h', owner', slab', congrArg some done, Nat.pos_of_ne_zero zero, ?_⟩
      have noClass : sizeToClass size = none := if_pos (Or.inr (Nat.lt_of_not_le small))
      rw [requested, noClass]
      exact adds

end Kmalloc

end OrangeKernel.Slab
