import OrangeKernel.Memory.Address
import OrangeKernel.Memory.Run
import OrangeKernel.Slab.Steps

set_option autoImplicit false

namespace OrangeKernel.Slab

open Machine Memory ByteMemory Intrusive AlignedBlock

structure HeapRep (h : Heap) (owner : Nat → Owner) (slab : Nat → Option SlabView) : Prop where
  pages : PagesOk h.pages owner
  rep : SlabRep h slab
  ready : h.slabReady = true
  slab_page : ∀ a s, slab a = some s → ∃ idx, idx < h.pages.layout.managedPageCount ∧
    indexToPa h.pages.layout idx = some a ∧ owner idx = .allocated 0 idx ∧ (h.pages.frames idx).kind = .slab
  kind_slab : ∀ idx < h.pages.layout.managedPageCount, (h.pages.frames idx).kind = .slab →
    ∃ a s, indexToPa h.pages.layout idx = some a ∧ slab a = some s
  kind_head : ∀ idx < h.pages.layout.managedPageCount, (h.pages.frames idx).kind ≠ .none →
    ∃ order, owner idx = .allocated order idx

inductive Allocation where
  | object (cls : ClassIdx) (ptr : Nat)
  | large (order ptr : Nat)
  | direct (order ptr : Nat)
deriving DecidableEq

def Allocation.ptr : Allocation → Nat
  | .object _ ptr | .large _ ptr | .direct _ ptr => ptr

def Allocation.kind : Allocation → PageKind
  | .object _ _ => .slab
  | .large _ _ => .large
  | .direct _ _ => .none

def BlockAt (h : Heap) (owner : Nat → Owner) (kind : PageKind) (order ptr : Nat) : Prop :=
  ∃ idx, idx < h.pages.layout.managedPageCount ∧ indexToPa h.pages.layout idx = some ptr ∧
    owner idx = .allocated order idx ∧ (h.pages.frames idx).kind = kind

def Allocated (h : Heap) (owner : Nat → Owner) (slab : Nat → Option SlabView) : Allocation → Prop
  | .object c o => ∃ a s, slab a = some s ∧ s.cls = c ∧ IsObject c a o ∧ o ∉ s.free
  | .large order ptr => BlockAt h owner .large order ptr
  | .direct order ptr => BlockAt h owner .none order ptr

variable {idx order : Nat}

theorem pagesOk_setKind {m : PageAllocator} {owner : Nat → Owner} (ok : PagesOk m owner) {ptr : Nat}
    (bound : idx < m.layout.managedPageCount) (addr : indexToPa m.layout idx = some ptr)
    (owned : owner idx = .allocated order idx) (kind : PageKind) :
    pageSetKind ptr kind m = { m with frames := Memory.setKind idx kind m.frames } ∧
      PagesOk { m with frames := Memory.setKind idx kind m.frames } owner := by
  have head : isAllocHeadTag (m.frames idx).state = true := by
    simp [isAllocHeadTag, state_of_allocated ok.rep bound owned]
  constructor
  · simp [pageSetKind, ok.ready, ok.rep.layout_ok.indexToPa_iff.mp addr, head]
  · exact
      { rep := ok.rep.congr rfl rfl fun p => by simp
        settled := ok.settled
        buddies := ok.buddies
        ready := ok.ready
        boot := ok.boot
        reserved := ok.reserved }

section Blocks

variable {h : Heap} {owner : Nat → Owner} {slab : Nat → Option SlabView} (heap : HeapRep h owner slab)
include heap

theorem blockAt_unique {kind kind' : PageKind} {order order' ptr : Nat} (left : BlockAt h owner kind order ptr)
    (right : BlockAt h owner kind' order' ptr) : kind = kind' ∧ order = order' := by
  obtain ⟨p, -, addr, owned, rfl⟩ := left
  obtain ⟨p', -, addr', owned', rfl⟩ := right
  obtain rfl := heap.pages.rep.layout_ok.indexToPa_inj addr addr'
  rw [owned] at owned'
  simp only [Owner.allocated.injEq, and_true] at owned'
  exact ⟨rfl, owned'⟩

variable {owner' : Nat → Owner}

theorem HeapRep.pAlloc {pages : Nat}
    (done : AllocOk pages h.pages owner (Memory.pAlloc pages h.pages) owner' idx)
    (ok : PagesOk (Memory.pAlloc pages h.pages).2 owner') :
    HeapRep { h with pages := (Memory.pAlloc pages h.pages).2 } owner' slab ∧
      ((Memory.pAlloc pages h.pages).2.frames idx).kind = .none ∧
      ∀ kind order ptr, BlockAt { h with pages := (Memory.pAlloc pages h.pages).2 } owner' kind order ptr ↔
        BlockAt h owner kind order ptr ∨
          (kind = .none ∧ order = Nat.clog 2 pages ∧ ptr = (Memory.pAlloc pages h.pages).1) := by
  have layout : (Memory.pAlloc pages h.pages).2.layout = h.pages.layout := done.kept.layout
  have kinds : ∀ p, ((Memory.pAlloc pages h.pages).2.frames p).kind = (h.pages.frames p).kind := done.kept.kind
  have keeps : ∀ {p order}, owner p = .allocated order p →
      ¬ Inside (Nat.clog 2 pages) idx p ∧ owner' p = .allocated order p := by
    intro p order owned
    have busy : ¬ (owner p).IsFree := by simp [owned, Owner.IsFree]
    have outside : ¬ Inside (Nat.clog 2 pages) idx p := fun inside => busy (done.allocates.was_free p inside)
    exact ⟨outside, (done.allocates.other p outside busy).trans owned⟩
  have bound := done.allocates.block.lt heap.pages.rep.layout_ok (inside_start _ idx)
  have unkind : (h.pages.frames idx).kind = .none := by
    by_contra kinded
    obtain ⟨order, owned⟩ := heap.kind_head idx bound kinded
    exact (keeps owned).1 (inside_start _ idx)
  refine ⟨⟨ok, ?_, heap.ready, ?_, ?_, ?_⟩, (kinds idx).trans unkind, fun kind order ptr => ?_⟩
  · exact heap.rep.frame rfl rfl (fun _ _ _ _ => rfl) fun _ _ _ _ _ => rfl
  · intro a s found
    obtain ⟨p, inRange, addr, owned, kind⟩ := heap.slab_page a s found
    dsimp only
    rw [layout]
    exact ⟨p, inRange, addr, (keeps owned).2, (kinds p).trans kind⟩
  · dsimp only
    rw [layout]
    intro p inRange kind
    exact heap.kind_slab p inRange ((kinds p).symm.trans kind)
  · dsimp only
    rw [layout]
    intro p inRange kinded
    rw [kinds p] at kinded
    obtain ⟨order, owned⟩ := heap.kind_head p inRange kinded
    exact ⟨order, (keeps owned).2⟩
  · unfold BlockAt
    dsimp only
    rw [layout]
    simp only [kinds]
    constructor
    · rintro ⟨p, inRange, addr, owned, rfl⟩
      by_cases inside : Inside (Nat.clog 2 pages) idx p
      · rw [done.allocates.now p inside] at owned
        obtain ⟨rfl, rfl⟩ : Nat.clog 2 pages = order ∧ idx = p := by simpa using owned
        exact Or.inr ⟨unkind, rfl, Option.some.inj (addr.symm.trans done.addr)⟩
      · have busy : ¬ (owner p).IsFree := by
          rw [← done.allocates.free_iff p inside, owned]
          exact id
        rw [done.allocates.other p inside busy] at owned
        exact Or.inl ⟨p, inRange, addr, owned, rfl⟩
    · rintro (⟨p, inRange, addr, owned, kindAt⟩ | ⟨rfl, rfl, rfl⟩)
      · exact ⟨p, inRange, addr, (keeps owned).2, kindAt⟩
      · exact ⟨idx, bound, done.addr, done.allocates.now idx (inside_start _ idx), unkind⟩

theorem HeapRep.pAlloc_unused {pages : Nat}
    (done : AllocOk pages h.pages owner (Memory.pAlloc pages h.pages) owner' idx) (kind : PageKind) (order : Nat) :
    ¬ BlockAt h owner kind order (Memory.pAlloc pages h.pages).1 := by
  rintro ⟨p, -, addrP, owned, -⟩
  obtain rfl := heap.pages.rep.layout_ok.indexToPa_inj addrP done.addr
  have was := done.allocates.was_free p (inside_start _ p)
  rw [owned] at was
  exact was

theorem HeapRep.none_of_kind {a : Nat} (addr : indexToPa h.pages.layout idx = some a)
    (kind : (h.pages.frames idx).kind ≠ .slab) : slab a = none := by
  by_contra known
  obtain ⟨s, found⟩ := Option.ne_none_iff_exists'.mp known
  obtain ⟨p, -, addrP, -, kindP⟩ := heap.slab_page a s found
  obtain rfl := heap.pages.rep.layout_ok.indexToPa_inj addrP addr
  exact kind kindP

theorem HeapRep.pFree {ptr : Nat}
    (done : FreeOk ptr h.pages owner (Memory.pFree ptr h.pages) owner' order idx)
    (ok : PagesOk (Memory.pFree ptr h.pages) owner') (unkind : (h.pages.frames idx).kind = .none) :
    HeapRep { h with pages := Memory.pFree ptr h.pages } owner' slab ∧
      ∀ kind order' ptr', BlockAt { h with pages := Memory.pFree ptr h.pages } owner' kind order' ptr' ↔
        BlockAt h owner kind order' ptr' ∧ ptr' ≠ ptr := by
  have layoutOk := heap.pages.rep.layout_ok
  have layout : (Memory.pFree ptr h.pages).layout = h.pages.layout := done.kept.layout
  have kinds : ∀ p, ((Memory.pFree ptr h.pages).frames p).kind = (h.pages.frames p).kind := done.kept.kind
  have keeps : ∀ {p order'}, p ≠ idx → owner p = .allocated order' p → owner' p = .allocated order' p := by
    intro p order' different owned
    have outside : ¬ Inside order idx p := by
      intro inside
      rw [done.frees.was p inside] at owned
      obtain ⟨-, same⟩ : order = order' ∧ idx = p := by simpa using owned
      exact different same.symm
    exact (done.frees.other p outside (by simp [owned, Owner.IsFree])).trans owned
  have kinded : ∀ {p}, (h.pages.frames p).kind ≠ .none → p ≠ idx := by
    rintro p kindP rfl
    exact kindP unkind
  refine ⟨⟨ok, ?_, heap.ready, ?_, ?_, ?_⟩, fun kind order' ptr' => ?_⟩
  · exact heap.rep.frame rfl rfl (fun _ _ _ _ => rfl) fun _ _ _ _ _ => rfl
  · intro a s found
    obtain ⟨p, inRange, addr, owned, kind⟩ := heap.slab_page a s found
    dsimp only
    rw [layout]
    exact ⟨p, inRange, addr, keeps (kinded (by simp [kind])) owned, (kinds p).trans kind⟩
  · dsimp only
    rw [layout]
    intro p inRange kind
    exact heap.kind_slab p inRange ((kinds p).symm.trans kind)
  · dsimp only
    rw [layout]
    intro p inRange kindP
    rw [kinds p] at kindP
    obtain ⟨order', owned⟩ := heap.kind_head p inRange kindP
    exact ⟨order', keeps (kinded kindP) owned⟩
  · unfold BlockAt
    dsimp only
    rw [layout]
    simp only [kinds]
    constructor
    · rintro ⟨p, inRange, addr, owned, kindAt⟩
      have outside : ¬ Inside order idx p := by
        intro inside
        have free := done.frees.now_free p inside
        rw [owned] at free
        exact free
      have busy : ¬ (owner p).IsFree := by
        rw [← done.frees.free_iff p outside, owned]
        exact id
      rw [done.frees.other p outside busy] at owned
      refine ⟨⟨p, inRange, addr, owned, kindAt⟩, ?_⟩
      rintro rfl
      exact outside (layoutOk.indexToPa_inj addr done.addr ▸ inside_start order idx)
    · rintro ⟨⟨p, inRange, addr, owned, kindAt⟩, different⟩
      have other : p ≠ idx := by
        rintro rfl
        exact different (Option.some.inj (addr.symm.trans done.addr))
      exact ⟨p, inRange, addr, keeps other owned, kindAt⟩

theorem HeapRep.retag {h' : Heap} {slab' : Nat → Option SlabView} {a : Nat} (kind : PageKind)
    (bound : idx < h.pages.layout.managedPageCount) (addr : indexToPa h.pages.layout idx = some a)
    (owned : owner idx = .allocated order idx) (rep' : SlabRep h' slab') (ready : h'.slabReady = true)
    (others : ∀ b, b ≠ a → slab' b = slab b) (announced : kind = .slab ↔ ∃ s, slab' a = some s)
    (single : kind = .slab → order = 0) :
    HeapRep { h' with pages := pageSetKind a kind h.pages } owner slab' ∧
      ∀ kind' order' ptr', BlockAt { h' with pages := pageSetKind a kind h.pages } owner kind' order' ptr' ↔
        if ptr' = a then kind' = kind ∧ order' = order else BlockAt h owner kind' order' ptr' := by
  have layoutOk := heap.pages.rep.layout_ok
  obtain ⟨tagged, ok⟩ := pagesOk_setKind heap.pages bound addr owned kind
  rw [tagged]
  have addr_ne : ∀ {p b}, indexToPa h.pages.layout p = some b → b ≠ a → p ≠ idx := by
    rintro p b addrP different rfl
    exact different (Option.some.inj (addrP.symm.trans addr))
  refine ⟨⟨ok, ?_, ready, ?_, ?_, ?_⟩, fun kind' order' ptr' => ?_⟩
  · exact rep'.frame rfl rfl (fun _ _ _ _ => rfl) fun _ _ _ _ _ => rfl
  · intro b s found
    by_cases here : b = a
    · subst here
      have isSlab := announced.mpr ⟨s, found⟩
      exact ⟨idx, bound, addr, single isSlab ▸ owned, by simp [isSlab]⟩
    · rw [others b here] at found
      obtain ⟨p, inRange, addrP, ownedP, kindP⟩ := heap.slab_page b s found
      exact ⟨p, inRange, addrP, ownedP, by simp [addr_ne addrP here, kindP]⟩
  · intro p inRange kindP
    by_cases here : p = idx
    · subst here
      obtain ⟨s, found⟩ := announced.mp (by simpa using kindP)
      exact ⟨a, s, addr, found⟩
    · obtain ⟨b, s, addrP, found⟩ := heap.kind_slab p inRange (by simpa [here] using kindP)
      refine ⟨b, s, addrP, (others b ?_).trans found⟩
      rintro rfl
      exact here (layoutOk.indexToPa_inj addrP addr)
  · intro p inRange kindP
    by_cases here : p = idx
    · exact ⟨order, here ▸ owned⟩
    · exact heap.kind_head p inRange (by simpa [here] using kindP)
  · unfold BlockAt
    dsimp only
    by_cases here : ptr' = a
    · subst here
      rw [if_pos rfl]
      constructor
      · rintro ⟨p, inRange, addrP, ownedP, kindP⟩
        obtain rfl := layoutOk.indexToPa_inj addrP addr
        rw [owned] at ownedP
        simp only [Owner.allocated.injEq, and_true] at ownedP
        exact ⟨by simpa using kindP.symm, ownedP.symm⟩
      · rintro ⟨rfl, rfl⟩
        exact ⟨idx, bound, addr, owned, by simp⟩
    · rw [if_neg here]
      constructor
      · rintro ⟨p, inRange, addrP, ownedP, kindP⟩
        exact ⟨p, inRange, addrP, ownedP, by simpa [addr_ne addrP here] using kindP⟩
      · rintro ⟨p, inRange, addrP, ownedP, kindP⟩
        exact ⟨p, inRange, addrP, ownedP, by simpa [addr_ne addrP here] using kindP⟩

theorem HeapRep.giveBack {h' : Heap} {slab' : Nat → Option SlabView} {a : Nat}
    (bound : idx < h.pages.layout.managedPageCount) (addr : indexToPa h.pages.layout idx = some a)
    (owned : owner idx = .allocated order idx) (nonnull : a ≠ 0) (rep' : SlabRep h' slab')
    (ready : h'.slabReady = true) (others : ∀ b, b ≠ a → slab' b = slab b) (gone : slab' a = none) :
    ∃ owner', HeapRep { h' with pages := Memory.pFree a (pageSetKind a .none h.pages) } owner' slab' ∧
      (Memory.pFree a (pageSetKind a .none h.pages)).layout = h.pages.layout ∧
      ∀ kind order' ptr',
        BlockAt { h' with pages := Memory.pFree a (pageSetKind a .none h.pages) } owner' kind order' ptr' ↔
          BlockAt h owner kind order' ptr' ∧ ptr' ≠ a := by
  obtain ⟨untagged, blocks⟩ := heap.retag .none bound addr owned rep' ready others (by simp [gone]) (by simp)
  have tagged := (pagesOk_setKind heap.pages bound addr owned .none).1
  have layout : (pageSetKind a .none h.pages).layout = h.pages.layout := by rw [tagged]
  rcases untagged.pages.pFree a with ⟨-, null | notAllocated⟩ | ⟨owner', order', idx', done, ok⟩
  · exact absurd null nonnull
  · exact absurd owned (notAllocated idx order (by dsimp only; rw [layout]; exact addr))
  · have here : idx' = idx := by
      have addr' := done.addr
      dsimp only at addr'
      rw [layout] at addr'
      exact heap.pages.rep.layout_ok.indexToPa_inj addr' addr
    subst here
    obtain ⟨freed, blocks'⟩ := untagged.pFree done ok (by dsimp only; rw [tagged]; simp)
    refine ⟨owner', freed, done.kept.layout.trans layout, fun kind order'' ptr' => ?_⟩
    refine (blocks' kind order'' ptr').trans (and_congr_left fun different => ?_)
    rw [blocks, if_neg different]

end Blocks

end OrangeKernel.Slab
