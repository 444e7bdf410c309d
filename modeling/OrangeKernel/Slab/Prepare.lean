import OrangeKernel.Slab.Heap
import Mathlib.Algebra.BigOperators.Group.Finset.Basic

set_option autoImplicit false

namespace OrangeKernel.Slab

open Function Machine Memory ByteMemory Intrusive AlignedBlock

def SlabFilled (s : SlabView) : Prop :=
  match s.listed with
  | some .slabPartial => 0 < s.free.length ∧ s.free.length < slabCapacity s.cls
  | some .slabFull => s.free = []
  | some .slabEmpty => s.free.length = slabCapacity s.cls
  | none => False

def inuseOf : Option SlabView → Nat
  | none => 0
  | some s => slabCapacity s.cls - s.free.length

def inuseTotal (layout : Layout) (slab : Nat → Option SlabView) : Nat :=
  ∑ idx ∈ Finset.range layout.managedPageCount, inuseOf ((indexToPa layout idx).bind slab)

def OneEmpty (slab : Nat → Option SlabView) : Prop :=
  ∀ a b s t, slab a = some s → slab b = some t → s.cls = t.cls → s.listed = some .slabEmpty →
    t.listed = some .slabEmpty → a = b

structure HeapOk (h : Heap) (owner : Nat → Owner) (slab : Nat → Option SlabView) : Prop where
  heap : HeapRep h owner slab
  filled : ∀ a s, slab a = some s → SlabFilled s
  one_empty : OneEmpty slab
  count : h.objectAllocCount - h.objectFreeCount = UInt64.ofNat (inuseTotal h.pages.layout slab)

variable {a : Nat}

theorem inuseTotal_update {layout : Layout} (ok : layout.Ok) (slab : Nat → Option SlabView) {idx : Nat}
    (bound : idx < layout.managedPageCount) (addr : indexToPa layout idx = some a) (s : Option SlabView) :
    inuseTotal layout (update slab a s) + inuseOf (slab a) = inuseTotal layout slab + inuseOf s := by
  have member : idx ∈ Finset.range layout.managedPageCount := Finset.mem_range.mpr bound
  have others : ∀ p ∈ (Finset.range layout.managedPageCount).erase idx,
      inuseOf ((indexToPa layout p).bind (update slab a s)) = inuseOf ((indexToPa layout p).bind slab) := by
    intro p inRest
    have different := (Finset.mem_erase.mp inRest).1
    cases found : indexToPa layout p with
    | none => rfl
    | some b =>
      have other : b ≠ a := by
        rintro rfl
        exact different (ok.indexToPa_inj found addr)
      simp [other]
  unfold inuseTotal
  rw [← Finset.add_sum_erase _ _ member,
    ← Finset.add_sum_erase _ (fun p => inuseOf ((indexToPa layout p).bind slab))
    member, Finset.sum_congr rfl others, addr]
  simp only [Option.bind_some, update_self]
  omega

variable {s : SlabView} {slab : Nat → Option SlabView}

theorem OneEmpty.update (one : OneEmpty slab) (a : Nat) (nonempty : s.listed ≠ some .slabEmpty) :
    OneEmpty (Function.update slab a (some s)) := by
  have old : ∀ {b t}, Function.update slab a (some s) b = some t → t.listed = some .slabEmpty →
      slab b = some t := by
    intro b t found listed
    by_cases here : b = a
    · subst here
      obtain rfl : s = t := by simpa using found
      exact absurd listed nonempty
    · simpa [here] using found
  intro b b' t t' found found' same listed listed'
  exact one b b' t t' (old found listed) (old found' listed') same listed listed'

theorem OneEmpty.insert (one : OneEmpty slab)
    (only : ∀ b t, b ≠ a → slab b = some t → t.cls = s.cls → t.listed ≠ some .slabEmpty) :
    OneEmpty (Function.update slab a (some s)) := by
  intro b b' t t' found found' same listed listed'
  by_cases here : b = a <;> by_cases here' : b' = a
  · rw [here, here']
  · subst here
    obtain rfl : s = t := by simpa using found
    exact absurd listed' (only b' t' here' (by simpa [here'] using found') same.symm)
  · subst here'
    obtain rfl : s = t' := by simpa using found'
    exact absurd listed (only b t here (by simpa [here] using found) same)
  · exact one b b' t t' (by simpa [here] using found) (by simpa [here'] using found') same listed listed'

variable {h h' : Heap} {owner : Nat → Owner}

theorem HeapRep.reslab (heap : HeapRep h owner slab) {s' : SlabView} (found : slab a = some s)
    (rep : SlabRep h' (update slab a (some s'))) (rest : SameRest h h') :
    HeapRep h' owner (update slab a (some s')) := by
  have pages := rest.pages
  refine ⟨by rw [pages]; exact heap.pages, rep, rest.ready.trans heap.ready, fun b t foundB => ?_, ?_, ?_⟩
  · rw [pages]
    by_cases here : b = a
    · subst here
      exact heap.slab_page b s found
    · exact heap.slab_page b t (by simpa [here] using foundB)
  · rw [pages]
    intro idx bound kind
    obtain ⟨b, t, addr, foundB⟩ := heap.kind_slab idx bound kind
    by_cases here : b = a
    · exact ⟨b, s', addr, by simp [here]⟩
    · exact ⟨b, t, addr, by simpa [here] using foundB⟩
  · rw [pages]
    exact heap.kind_head

theorem blockAt_congr (pages : h'.pages = h.pages) (kind : PageKind) (order ptr : Nat) :
    BlockAt h' owner kind order ptr ↔ BlockAt h owner kind order ptr := by
  unfold BlockAt
  rw [pages]

variable {c : ClassIdx}

theorem allocated_object_update {s' : SlabView} {o : Nat} :
    Allocated h owner (update slab a (some s')) (.object c o) ↔
      (s'.cls = c ∧ IsObject c a o ∧ o ∉ s'.free) ∨
        ∃ b t, b ≠ a ∧ slab b = some t ∧ t.cls = c ∧ IsObject c b o ∧ o ∉ t.free := by
  constructor
  · rintro ⟨b, t, found, cls, object, used⟩
    by_cases here : b = a
    · subst here
      obtain rfl : s' = t := by simpa using found
      exact Or.inl ⟨cls, object, used⟩
    · exact Or.inr ⟨b, t, here, by simpa [here] using found, cls, object, used⟩
  · rintro (⟨cls, object, used⟩ | ⟨b, t, here, found, cls, object, used⟩)
    · exact ⟨a, s', by simp, cls, object, used⟩
    · exact ⟨b, t, by simpa [here] using found, cls, object, used⟩

theorem allocated_object_split (found : slab a = some s) {o : Nat} :
    Allocated h owner slab (.object c o) ↔ (s.cls = c ∧ IsObject c a o ∧ o ∉ s.free) ∨
      ∃ b t, b ≠ a ∧ slab b = some t ∧ t.cls = c ∧ IsObject c b o ∧ o ∉ t.free := by
  have same : update slab a (some s) = slab := by rw [← found, update_eq_self]
  rw [← @allocated_object_update a slab h owner c s o, same]

theorem allocated_move (found : slab a = some s) (pages : h'.pages = h.pages) (list : Option SlabState)
    (x : Allocation) :
    Allocated h' owner (update slab a (some { s with listed := list })) x ↔ Allocated h owner slab x := by
  cases x with
  | object c o => rw [allocated_object_update, allocated_object_split found]
  | large order ptr => exact blockAt_congr pages _ _ _
  | direct order ptr => exact blockAt_congr pages _ _ _

theorem slabPage_of_addr {m : PageAllocator} (ok : PagesOk m owner) {idx : Nat}
    (addr : indexToPa m.layout idx = some a) (nonnull : a ≠ 0) : SlabPage a := by
  obtain ⟨r, member, contains, rfl⟩ := ok.rep.layout_ok.contains_of_indexToPa addr
  have region := ok.rep.layout_ok.region r member
  have inside := region.addr_lt contains
  have stop := region.stop_lt
  exact ⟨Nat.dvd_of_mod_eq_zero (region.addr_aligned idx), Nat.pos_of_ne_zero nonnull,
    inside.trans_lt stop⟩

theorem initHeader_capacity (page : SlabPage a) (array : CacheArray) (c : ClassIdx) (mem : Mem) :
    getField .capacity a (initHeader a (cachePtr array c) (kmallocClasses c) mem) = slabCapacity c := by
  rw [getField_initHeader _ page page.aligned (cachePtr_bounds array c).2, if_pos rfl]
  rfl

structure Prepared (c : ClassIdx) (h : Heap) (owner : Nat → Owner) (slab : Nat → Option SlabView) (h₁ : Heap)
    (owner₁ : Nat → Owner) (slab₁ : Nat → Option SlabView) (a : Nat) (s : SlabView) : Prop where
  heap : HeapRep h₁ owner₁ slab₁
  head : (h₁.caches c).slabsPartial = a
  found : slab₁ a = some s
  cls : s.cls = c
  listed : s.listed = some .slabPartial
  stocked : s.free ≠ []
  others : ∀ b t, b ≠ a → slab₁ b = some t → SlabFilled t
  one_empty : OneEmpty slab₁
  total : inuseTotal h₁.pages.layout slab₁ = inuseTotal h.pages.layout slab
  allocs : h₁.objectAllocCount = h.objectAllocCount
  frees : h₁.objectFreeCount = h.objectFreeCount
  same : ∀ x, Allocated h₁ owner₁ slab₁ x ↔ Allocated h owner slab x

theorem SlabRep.of_head (rep : SlabRep h slab) (c : ClassIdx) (st : SlabState) (nonempty : (h.caches c).head st ≠ 0) :
    ∃ s, slab ((h.caches c).head st) = some s ∧ s.cls = c ∧ s.listed = some st := by
  obtain ⟨xs, head, -, members⟩ := rep.lists c st
  cases xs with
  | nil =>
    rw [head] at nonempty
    exact absurd rfl nonempty
  | cons a xs =>
    rw [head]
    exact (members a).mp List.mem_cons_self

theorem SlabRep.none_of_head (rep : SlabRep h slab) (c : ClassIdx) (st : SlabState)
    (empty : (h.caches c).head st = 0) (found : slab a = some s) (cls : s.cls = c) : s.listed ≠ some st := by
  obtain ⟨xs, head, -, members⟩ := rep.lists c st
  intro listed
  have member := (members a).mpr ⟨s, found, cls, listed⟩
  cases xs with
  | nil => simp at member
  | cons b xs =>
    obtain ⟨t, foundB, -, -⟩ := (members b).mp List.mem_cons_self
    rw [empty] at head
    exact (rep.pagePtr foundB).2 head.symm

theorem SlabRep.head_of_only (rep : SlabRep h slab) {st : SlabState} (found : slab a = some s) (cls : s.cls = c)
    (listed : s.listed = some st) (only : ∀ b t, slab b = some t → t.cls = c → t.listed = some st → b = a) :
    (h.caches c).head st = a := by
  have nonempty : (h.caches c).head st ≠ 0 := fun empty => rep.none_of_head c st empty found cls listed
  obtain ⟨t, foundT, clsT, listedT⟩ := rep.of_head c st nonempty
  exact only _ t foundT clsT listedT

section Prepare

variable (ok : HeapOk h owner slab)
include ok

theorem HeapOk.prepared_partial (nonempty : (h.caches c).slabsPartial ≠ 0) :
    ∃ s, Prepared c h owner slab h owner slab (h.caches c).slabsPartial s := by
  obtain ⟨s, found, cls, listed⟩ := ok.heap.rep.of_head c .slabPartial nonempty
  have filled := ok.filled _ s found
  unfold SlabFilled at filled
  rw [listed] at filled
  have stocked : s.free ≠ [] := List.ne_nil_of_length_pos filled.1
  exact ⟨s, ok.heap, rfl, found, cls, listed, stocked, fun b t _ => ok.filled b t, ok.one_empty, rfl, rfl, rfl,
    fun _ => Iff.rfl⟩

theorem HeapOk.prepared_empty (none : (h.caches c).slabsPartial = 0) (nonempty : (h.caches c).slabsEmpty ≠ 0) :
    ∃ h₁ slab₁ s, cacheMoveEmptyToPartial c (h.caches c).slabsEmpty h = some h₁ ∧
      Prepared c h owner slab h₁ owner slab₁ (h.caches c).slabsEmpty s := by
  obtain ⟨s, found, cls, listed⟩ := ok.heap.rep.of_head c .slabEmpty nonempty
  change slab (h.caches c).slabsEmpty = some s at found
  generalize (h.caches c).slabsEmpty = a at *
  obtain ⟨h₁, moves, rep₁, rest⟩ := ok.heap.rep.move found listed .slabPartial
  have filled := ok.filled a s found
  unfold SlabFilled at filled
  rw [listed] at filled
  have slabAt := ok.heap.rep.slab_at a s found
  have positive := (object_bounds s.cls).2.2.1
  have found₁ : update slab a (some { s with listed := some .slabPartial }) a =
      some { s with listed := some .slabPartial } := by simp
  have only : ∀ b t, update slab a (some { s with listed := some .slabPartial }) b = some t →
      t.cls = c → t.listed = some .slabPartial → b = a := by
    intro b t foundB clsB listedB
    by_contra here
    exact ok.heap.rep.none_of_head c .slabPartial none (by simpa [here] using foundB) clsB listedB
  refine ⟨h₁, _, _, ?_, ok.heap.reslab found rep₁ rest, rep₁.head_of_only found₁ cls rfl only,
    found₁, cls, rfl, ?_,
    fun b t here foundB => ?_, ok.one_empty.update a (by simp), ?_, rest.allocs, rest.frees,
    fun x => allocated_move found rest.pages _ x⟩
  · rw [cacheMoveEmptyToPartial, if_neg nonempty, ← cls]
    exact moves
  · intro drained
    rw [drained, List.length_nil] at filled
    omega
  · exact ok.filled b t (by simpa [here] using foundB)
  · obtain ⟨idx, bound, addr, -, -⟩ := ok.heap.slab_page a s found
    have moved := inuseTotal_update ok.heap.pages.rep.layout_ok slab bound addr
      (some { s with listed := some .slabPartial })
    rw [found] at moved
    rw [rest.pages]
    exact Nat.add_right_cancel moved

theorem HeapOk.prepared_refill (none : (h.caches c).slabsPartial = 0) :
    kmallocRefillClass c h = (false, h) ∨ ∃ h₁ owner₁ slab₁ a s, kmallocRefillClass c h = (true, h₁) ∧
      Prepared c h owner slab h₁ owner₁ slab₁ a s := by
  have size := ok.heap.rep.sizes c
  unfold kmallocRefillClass
  rcases ok.heap.pages.pAlloc 1 with null | ⟨owner₁, idx, done, pagesOk, nonnull⟩
  · left
    simp only [null, if_true]
  right
  obtain ⟨heapA, unkind, blocksA⟩ := ok.heap.pAlloc done pagesOk
  have notBefore := ok.heap.pAlloc_unused done
  generalize pAlloc 1 h.pages = result at *
  obtain ⟨a, pages⟩ := result
  dsimp only at *
  have layout : pages.layout = h.pages.layout := done.kept.layout
  have addr : indexToPa pages.layout idx = some a := by
    rw [layout]
    exact done.addr
  have bound : idx < pages.layout.managedPageCount := by
    rw [layout]
    exact done.allocates.block.lt ok.heap.pages.rep.layout_ok (inside_start _ idx)
  have owned : owner₁ idx = .allocated 0 idx := done.allocates.now idx (inside_start _ idx)
  have page := slabPage_of_addr pagesOk addr nonnull
  have fresh : slab a = Option.none := heapA.none_of_kind addr (by simp [unkind])
  let new : SlabView := { cls := c, free := carvedObjects c a (slabCapacity c), listed := Option.none }
  have built := heapA.rep.build page fresh c
  have others : ∀ b, b ≠ a → update slab a (some new) b = slab b := by
    intro b other
    simp [other]
  obtain ⟨heapB, blocksB⟩ := heapA.retag .slab bound addr owned built ok.heap.ready others
    ⟨fun _ => ⟨new, by simp [new]⟩, fun _ => rfl⟩ fun _ => rfl
  have foundB : update slab a (some new) a = some new := by simp
  obtain ⟨rep₁, rest⟩ := heapB.rep.cacheAdd foundB rfl .slabPartial
  have heap₁ := heapB.reslab foundB rep₁ rest
  rw [update_idem] at rep₁ heap₁
  have chunks := initHeader_capacity page h.cacheArray c h.mem
  have positive := (object_bounds c).2.2.1
  have found₁ : update slab a (some { new with listed := some .slabPartial }) a =
      some { new with listed := some .slabPartial } := by simp
  have only : ∀ b t, update slab a (some { new with listed := some .slabPartial }) b = some t →
      t.cls = c → t.listed = some .slabPartial → b = a := by
    intro b t found cls listed
    by_contra here
    exact ok.heap.rep.none_of_head c .slabPartial none (by simpa [here] using found) cls listed
  refine ⟨_, owner₁, _, a, _, ?_, heap₁, rep₁.head_of_only found₁ rfl rfl only, found₁, rfl, rfl, ?_,
    fun b t here found => ?_, ok.one_empty.update a (by simp), ?_, rest.allocs, rest.frees, fun x => ?_⟩
  · rw [if_neg nonnull, size, chunks, if_neg (by omega)]
    rfl
  · intro drained
    have length := congrArg List.length drained
    simp only [new, length_carvedObjects, List.length_nil] at length
    omega
  · exact ok.filled b t (by simpa [here] using found)
  · have moved := inuseTotal_update ok.heap.pages.rep.layout_ok slab (layout ▸ bound) done.addr
      (some { new with listed := some .slabPartial })
    rw [fresh] at moved
    have unused : inuseOf (some { new with listed := some .slabPartial }) = 0 := by
      simp [inuseOf, new, length_carvedObjects]
    rw [unused] at moved
    have kept : (pageSetKind a .slab pages).layout = h.pages.layout := by
      rw [(pagesOk_setKind pagesOk bound addr owned .slab).1]
      exact layout
    rw [rest.pages]
    dsimp only
    rw [kept]
    exact moved
  · have blocks : ∀ {h₁ : Heap}, h₁.pages = pageSetKind a .slab pages → ∀ kind order ptr, kind ≠ .slab →
        (BlockAt h₁ owner₁ kind order ptr ↔ BlockAt h owner kind order ptr) := by
      intro h₁ same kind order ptr notSlab
      refine (blockAt_congr ?_ kind order ptr).trans ((blocksB kind order ptr).trans ?_)
      · exact same
      rw [blocksA]
      by_cases here : ptr = a
      · subst here
        simp [notSlab, notBefore]
      · simp [here]
    cases x with
    | object d o =>
      -- All objects of the new slab are free, and its page held no slab before.
      rw [allocated_object_update]
      constructor
      · rintro (⟨rfl, object, used⟩ | ⟨b, t, -, found, rest⟩)
        · exact absurd (mem_carvedObjects.mpr object) used
        · exact ⟨b, t, found, rest⟩
      · rintro ⟨b, t, found, rest⟩
        refine Or.inr ⟨b, t, ?_, found, rest⟩
        rintro rfl
        simp [fresh] at found
    | large order ptr => exact blocks rest.pages .large order ptr (by decide)
    | direct order ptr => exact blocks rest.pages .none order ptr (by decide)

end Prepare

end OrangeKernel.Slab
