import OrangeKernel.Slab.Run
import Mathlib.Algebra.Order.BigOperators.Group.Finset

set_option autoImplicit false

namespace OrangeKernel.Slab

open Machine Memory ByteMemory Intrusive AlignedBlock

def FreelistOf (mem : Mem) (a : Nat) (free : List Nat) : Prop :=
  ptrOf (getField .freelist a mem) = free.head? ∧ Chain (fun o => ptrOf (chunkNext o mem)) none free

theorem FreelistOf.unique {mem : Mem} {a : Nat} {left right : List Nat} (inLeft : FreelistOf mem a left)
    (inRight : FreelistOf mem a right) : left = right :=
  chain_suffix_unique inLeft.2 inRight.2 (inLeft.1.symm.trans inRight.1)

theorem SlabAt.freelistOf {array : CacheArray} {mem : Mem} {a : Nat} {s : SlabView} (slabAt : SlabAt array mem a s) :
    FreelistOf mem a s.free := by
  refine ⟨?_, slabAt.freelist.chain⟩
  rw [slabAt.freelist.head]
  exact ptrOf_encodePtr fun o first =>
    (slabAt.page.object_fits (slabAt.freelist.objects o (List.mem_of_mem_head? first))).1

def InuseOk (mem : Mem) (a : Nat) : SlabState → Prop
  | .slabPartial => 1 ≤ getField .inuse a mem ∧ getField .inuse a mem < getField .capacity a mem
  | .slabFull => getField .inuse a mem = getField .capacity a mem
  | .slabEmpty => getField .inuse a mem = 0

structure SlabOk (h : Heap) (c : ClassIdx) (st : SlabState) (a : Nat) : Prop where
  state : getField .state a h.mem = st.code
  cache : getField .cache a h.mem = cachePtr h.cacheArray c
  freelist : ∃ free, FreelistOf h.mem a free ∧ free.Nodup ∧ (∀ o ∈ free, IsObject c a o) ∧
    free.length = getField .capacity a h.mem - getField .inuse a h.mem
  inuse_le : getField .inuse a h.mem ≤ getField .capacity a h.mem
  capacity : getField .capacity a h.mem = slabCapacity c
  inuse : InuseOk h.mem a st

def slabInuse (h : Heap) (idx : Nat) : Nat :=
  if (h.pages.frames idx).kind = .slab then
    ((indexToPa h.pages.layout idx).map fun a => getField .inuse a h.mem).getD 0
  else 0

structure SlabInvariant (h : Heap) (lists : ClassIdx → SlabState → List Nat) : Prop where
  head : ∀ c st, ptrOf ((h.caches c).head st) = (lists c st).head?
  links : ∀ c st l a r, lists c st = l ++ a :: r →
    ptrOf (getField .next a h.mem) = r.head? ∧ ptrOf (getField .prev a h.mem) = l.getLast?
  nodup : ∀ c st, (lists c st).Nodup
  disjoint : ∀ c st c' st' a, a ∈ lists c st → a ∈ lists c' st' → c = c' ∧ st = st'
  slabs : ∀ c st, ∀ a ∈ lists c st, SlabOk h c st a
  one_empty : ∀ c, (lists c .slabEmpty).length ≤ 1
  listed : ∀ c st, ∀ a ∈ lists c st, ∃ idx < h.pages.layout.managedPageCount,
    indexToPa h.pages.layout idx = some a ∧ (h.pages.frames idx).kind = .slab
  kind_slab : ∀ idx < h.pages.layout.managedPageCount, (h.pages.frames idx).kind = .slab →
    ∃ c st, ∃ a ∈ lists c st, indexToPa h.pages.layout idx = some a
  kind_head : ∀ idx < h.pages.layout.managedPageCount, isAllocHeadTag (h.pages.frames idx).state = false →
    (h.pages.frames idx).kind = .none
  count : (h.objectAllocCount - h.objectFreeCount).toNat =
    ∑ idx ∈ Finset.range h.pages.layout.managedPageCount, slabInuse h idx

section Reading

variable {h : Heap} {owner : Nat → Owner} {slab : Nat → Option SlabView} (ok : HeapOk h owner slab)
include ok

theorem HeapOk.slabOk {c : ClassIdx} {st : SlabState} {a : Nat} {s : SlabView} (found : slab a = some s)
    (cls : s.cls = c) (listed : s.listed = some st) : SlabOk h c st a := by
  subst cls
  have slabAt := ok.heap.rep.slab_at a s found
  have count := slabAt.inuse
  have capacity := slabAt.capacity
  have filled := ok.filled a s found
  refine ⟨slabAt.state st listed, slabAt.cache, ⟨s.free, slabAt.freelistOf,
    chain_nodup slabAt.freelist.chain, slabAt.freelist.objects, by omega⟩, by omega, capacity, ?_⟩
  unfold SlabFilled at filled
  rw [listed] at filled
  cases st with
  | slabPartial =>
    dsimp only [InuseOk] at *
    omega
  | slabFull =>
    simp only [filled, List.length_nil] at count
    dsimp only [InuseOk]
    omega
  | slabEmpty =>
    dsimp only [InuseOk] at *
    omega

theorem HeapOk.slabInuse_eq {idx : Nat} (bound : idx < h.pages.layout.managedPageCount) :
    slabInuse h idx = inuseOf ((indexToPa h.pages.layout idx).bind slab) := by
  unfold slabInuse
  by_cases kind : (h.pages.frames idx).kind = .slab
  · obtain ⟨a, s, addr, found⟩ := ok.heap.kind_slab idx bound kind
    have count := (ok.heap.rep.slab_at a s found).inuse
    simp only [kind, if_true, addr, Option.map_some, Option.getD_some, Option.bind_some, found, inuseOf]
    omega
  · rw [if_neg kind]
    cases addr : indexToPa h.pages.layout idx with
    | none => rfl
    | some a =>
      have none := ok.heap.none_of_kind addr kind
      simp [none, inuseOf]

theorem HeapOk.inuse_small : inuseTotal h.pages.layout slab < 2 ^ 64 := by
  have small := ok.heap.pages.rep.layout_ok.small
  have each : ∀ idx ∈ Finset.range h.pages.layout.managedPageCount,
      inuseOf ((indexToPa h.pages.layout idx).bind slab) ≤ pageSize := by
    intro idx _
    cases (indexToPa h.pages.layout idx).bind slab with
    | none => simp [inuseOf]
    | some s =>
      have room := Nat.le_mul_of_pos_right (slabCapacity s.cls) (Nat.lt_of_lt_of_le (by decide) (class_bounds s.cls).1)
      have fits := (object_bounds s.cls).2.2.2.2
      simp only [inuseOf]
      omega
  have total := Finset.sum_le_card_nsmul _ _ _ each
  rw [Finset.card_range, Nat.nsmul_eq_mul] at total
  unfold inuseTotal
  unfold pageSize at total
  omega

theorem HeapOk.invariant : ∃ lists, SlabInvariant h lists := by
  choose lists head holds members using ok.heap.rep.lists
  have addr_ne : ∀ {c st a}, a ∈ lists c st → a ≠ 0 := by
    intro c st a member
    obtain ⟨s, found, -, -⟩ := (members c st a).mp member
    exact (ok.heap.rep.slab_at a s found).pos.ne'
  refine ⟨lists,
    { head := fun c st => ?_
      links := fun c st l a r split => ?_
      nodup := fun c st => (holds c st).nodup
      disjoint := fun c st c' st' a left right => ?_
      slabs := fun c st a member => ?_
      one_empty := fun c => ?_
      listed := fun c st a member => ?_
      kind_slab := fun idx bound kind => ?_
      kind_head := fun idx bound noHead => ?_
      count := ?_ }⟩
  · rw [head]
    exact ptrOf_encodePtr fun a first => addr_ne (List.mem_of_mem_head? first)
  · have linked := holds c st
    rw [split] at linked
    simpa only [slabLinks] using linked.at_middle
  · obtain ⟨s, found, rfl, listed⟩ := (members c st a).mp left
    obtain ⟨s', found', rfl, listed'⟩ := (members c' st' a).mp right
    obtain rfl := Option.some.inj (found.symm.trans found')
    exact ⟨rfl, Option.some.inj (listed.symm.trans listed')⟩
  · obtain ⟨s, found, cls, listed⟩ := (members c st a).mp member
    exact ok.slabOk found cls listed
  · by_contra two
    have nodup := (holds c .slabEmpty).nodup
    obtain ⟨a, b, rest, split⟩ : ∃ a b rest, lists c .slabEmpty = a :: b :: rest := by
      cases split : lists c .slabEmpty with
      | nil => simp [split] at two
      | cons a behind =>
        cases behind with
        | nil => simp [split] at two
        | cons b rest => exact ⟨a, b, rest, rfl⟩
    obtain ⟨s, found, cls, listed⟩ := (members c .slabEmpty a).mp (by simp [split])
    obtain ⟨t, found', cls', listed'⟩ := (members c .slabEmpty b).mp (by simp [split])
    have same := ok.one_empty a b s t found found' (cls.trans cls'.symm) listed listed'
    simp [split, same] at nodup
  · obtain ⟨s, found, -, -⟩ := (members c st a).mp member
    obtain ⟨idx, bound, addr, -, kind⟩ := ok.heap.slab_page a s found
    exact ⟨idx, bound, addr, kind⟩
  · obtain ⟨a, s, addr, found⟩ := ok.heap.kind_slab idx bound kind
    have filled := ok.filled a s found
    cases listed : s.listed with
    | none => simp [SlabFilled, listed] at filled
    | some st => exact ⟨s.cls, st, a, (members s.cls st a).mpr ⟨s, found, rfl, listed⟩, addr⟩
  · by_contra kind
    obtain ⟨order, owned⟩ := ok.heap.kind_head idx bound kind
    simp [isAllocHeadTag, state_of_allocated ok.heap.pages.rep bound owned] at noHead
  · rw [ok.count, UInt64.toNat_ofNat', Nat.mod_eq_of_lt ok.inuse_small]
    exact Finset.sum_congr rfl fun idx member => (ok.slabInuse_eq (Finset.mem_range.mp member)).symm

end Reading

theorem heapRun_slabInvariant {boot : BootInputs} {m : PageAllocator} (started : memoryInit boot = some m)
    (array : CacheArray) (mem : Mem) (ops : List HeapOp) :
    ∃ s, heapRun ops (heapStart m array mem) = some s ∧ ∃ lists, SlabInvariant s.heap lists := by
  obtain ⟨s, owner, slab, runs, session⟩ := heapRun_ok started array mem ops
  exact ⟨s, runs, session.ok.invariant⟩

def sampleCaches : CacheArray :=
  { base := 0x80002800
    nonnull := by decide
    fits := by decide }

theorem heapRun_slabInvariant_sampleBoot : ∃ m, memoryInit sampleBoot = some m ∧
    ∃ s, heapRun [.kmalloc 2000, .kmalloc 900, .pAlloc 2, .kfree 0x80004800, .kmalloc 5000]
        (heapStart m sampleCaches ⟨fun _ => 0⟩) = some s ∧ ∃ lists, SlabInvariant s.heap lists := by
  obtain ⟨m, started⟩ := sampleBoot_starts
  exact ⟨m, started, heapRun_slabInvariant started _ _ _⟩

end OrangeKernel.Slab
