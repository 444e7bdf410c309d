import OrangeKernel.Memory.Exact
import OrangeKernel.Slab.Safety

set_option autoImplicit false

namespace OrangeKernel.Slab

open Machine Memory ByteMemory Intrusive AlignedBlock

structure PassesChecks (c : ClassIdx) (h : Heap) : Prop where
  listed : (h.caches c).slabsPartial ≠ 0
  state : getField .state (h.caches c).slabsPartial h.mem = SlabState.slabPartial.code
  freelist : getField .freelist (h.caches c).slabsPartial h.mem ≠ 0
  room : getField .inuse (h.caches c).slabsPartial h.mem < getField .capacity (h.caches c).slabsPartial h.mem
  popped : (slabPopFree (h.caches c).slabsPartial h.mem).1 ≠ 0

theorem Prepared.passes {c : ClassIdx} {h h₁ : Heap} {owner owner₁ : Nat → Owner}
    {slab slab₁ : Nat → Option SlabView}
    {a : Nat} {s : SlabView} (prepared : Prepared c h owner slab h₁ owner₁ slab₁ a s) : PassesChecks c h₁ := by
  obtain ⟨o, rest, free⟩ := List.exists_cons_of_ne_nil prepared.stocked
  have slabAt := prepared.heap.rep.slab_at a s prepared.found
  have object := slabAt.freelist.objects o (by simp [free])
  have nonnull := (slabAt.page.object_fits object).1
  have head : getField .freelist a h₁.mem = o := by
    rw [slabAt.freelist.head, free]
    rfl
  have count := slabAt.inuse
  have pos := slabAt.pos
  rw [free, List.length_cons] at count
  constructor <;> rw [prepared.head]
  · exact pos.ne'
  · exact slabAt.state .slabPartial prepared.listed
  · rw [head]
    exact nonnull
  · rw [slabAt.capacity]
    omega
  · simp [slabPopFree, head, nonnull, pos.ne']

section Refusals

variable {h : Heap} {owner : Nat → Owner} {slab : Nat → Option SlabView} (ok : HeapOk h owner slab)
include ok

theorem HeapOk.refill_true {c : ClassIdx} (page : (pAlloc 1 h.pages).1 ≠ 0) : (kmallocRefillClass c h).1 = true := by
  rcases ok.heap.pages.pAlloc 1 with null | ⟨owner', idx, done, pagesOk, nonnull⟩
  · rw [null] at page
    exact absurd rfl page
  have layout : (pAlloc 1 h.pages).2.layout = h.pages.layout := done.kept.layout
  have slabPage := slabPage_of_addr pagesOk (layout.symm ▸ done.addr) nonnull
  have chunks := initHeader_capacity slabPage h.cacheArray c h.mem
  have positive := (object_bounds c).2.2.1
  unfold kmallocRefillClass
  dsimp only
  rw [if_neg page, ok.heap.rep.sizes c, chunks, if_neg (by omega)]

theorem HeapOk.refill_refused (c : ClassIdx) (none : (h.caches c).slabsPartial = 0) :
    kmallocRefillClass c h = (false, h) ↔ (pAlloc 1 h.pages).1 = 0 := by
  constructor
  · intro refused
    by_contra page
    have refilled := ok.refill_true (c := c) page
    rw [refused] at refilled
    cases refilled
  · intro null
    rcases ok.prepared_refill none with refused | ⟨h₁, owner₁, slab₁, a, s, refills, -⟩
    · exact refused
    · -- `p_alloc` answered null, and the refill returns at once.
      simp [kmallocRefillClass, null] at refills

def NoObject (c : ClassIdx) (h : Heap) : Prop :=
  (h.caches c).slabsPartial = 0 ∧ (h.caches c).slabsEmpty = 0 ∧ (pAlloc 1 h.pages).1 = 0

theorem HeapOk.ensurePartial_refused (c : ClassIdx) : Slab.ensurePartial c h = some (false, h) ↔ NoObject c h := by
  constructor
  · intro refused
    unfold Slab.ensurePartial at refused
    by_cases none : (h.caches c).slabsPartial = 0
    · rw [if_pos none] at refused
      by_cases nonempty : (h.caches c).slabsEmpty ≠ 0
      · rw [if_pos nonempty] at refused
        cases moved : cacheMoveEmptyToPartial c (h.caches c).slabsEmpty h <;> simp [moved] at refused
      · rw [if_neg nonempty] at refused
        exact ⟨none, not_not.mp nonempty, (ok.refill_refused c none).mp (Option.some.inj refused)⟩
    · rw [if_neg none] at refused
      simp at refused
  · rintro ⟨none, empty, null⟩
    unfold Slab.ensurePartial
    rw [if_pos none, if_neg (not_not.mpr empty), (ok.refill_refused c none).mpr null]

theorem HeapOk.kmallocSmall_null {size : Nat} {c : ClassIdx} (cls : sizeToClass size = some c) :
    Slab.kmallocSmall size h = some (0, h) ↔ NoObject c h := by
  rw [← ok.ensurePartial_refused c]
  unfold Slab.kmallocSmall
  rw [cls]
  rcases ok.ensurePartial c with refused | ⟨h₁, owner₁, slab₁, a, s, ready, prepared⟩
  · simp [refused]
  · obtain ⟨o, h₂, slab₂, takes, adds⟩ := prepared.adds ok
    have nonnull : o ≠ 0 := adds.nonnull
    simp [ready, takes, nonnull]

end Refusals

theorem kmallocLarge_null {h : Heap} {size : Nat} (fits : size ≤ 2 ^ 32) :
    (kmallocLarge size h).1 = 0 ↔ (pAlloc ((size + 4095) / 4096) h.pages).1 = 0 := by
  have notHuge : ¬ pageSize * 2 ^ maxOrder < size := by
    unfold pageSize maxOrder
    omega
  -- No more than 2^20 pages: the cast to `unsigned int` keeps the count.
  have narrow : wrap32 ((size + pageSize - 1) / pageSize) = (size + 4095) / 4096 := by
    unfold wrap32 pageSize
    omega
  unfold kmallocLarge
  rw [if_neg notHuge, narrow]
  dsimp only
  split
  next null => simp [null]
  next page => simp [page]

def Refused (size : Nat) (h : Heap) : Prop :=
  size = 0 ∨ 2 ^ 32 < size ∨
    (1 ≤ size ∧ size ≤ 2048 ∧ ∃ c, sizeToClass size = some c ∧ NoObject c h) ∨
    (2049 ≤ size ∧ size ≤ 2 ^ 32 ∧ (pAlloc ((size + 4095) / 4096) h.pages).1 = 0)

theorem HeapOk.kmalloc_null {h : Heap} {owner : Nat → Owner} {slab : Nat → Option SlabView}
    (ok : HeapOk h owner slab)
    (size : Nat) :
    ∃ ptr h', Slab.kmalloc size h = some (ptr, h') ∧ (ptr = 0 ↔ Refused size h) ∧ (ptr = 0 → h' = h) := by
  have limit : kmallocMaxSlabSize = 2048 := rfl
  rcases ok.kmalloc size with null | ⟨ptr, h', owner', slab', done, positive, adds⟩
  · refine ⟨0, h, null, iff_of_true rfl ?_, fun _ => rfl⟩
    by_cases zero : size = 0
    · exact .inl zero
    unfold Slab.kmalloc at null
    rw [if_neg (by simp [ok.heap.ready, zero])] at null
    by_cases small : size ≤ kmallocMaxSlabSize
    · rw [if_pos small] at null
      obtain ⟨c, cls, -⟩ := sizeToClass_smallest (Nat.pos_of_ne_zero zero) small
      exact .inr (.inr (.inl ⟨by omega, by omega, c, cls, (ok.kmallocSmall_null cls).mp null⟩))
    · rw [if_neg small] at null
      by_cases huge : 2 ^ 32 < size
      · exact .inr (.inl huge)
      · have answer := congrArg Prod.fst (Option.some.inj null)
        exact .inr (.inr (.inr ⟨by omega, by omega, (kmallocLarge_null (by omega)).mp answer⟩))
  · have nonnull : ptr ≠ 0 := by
      have pointer := adds.nonnull
      rwa [(requested_ptr size ptr).1] at pointer
    refine ⟨ptr, h', done, iff_of_false nonnull ?_, fun zero => absurd zero nonnull⟩
    unfold Slab.kmalloc at done
    rw [if_neg (by simp [ok.heap.ready, positive.ne'])] at done
    rintro (zero | huge | ⟨-, small, c, cls, none⟩ | ⟨large, fits, none⟩)
    · omega
    · rw [if_neg (by omega), Slab.kmallocLarge, if_pos (by unfold pageSize maxOrder; omega)] at done
      exact nonnull (congrArg Prod.fst (Option.some.inj done)).symm
    · rw [if_pos (by omega), (ok.kmallocSmall_null cls).mpr none] at done
      exact nonnull (congrArg Prod.fst (Option.some.inj done)).symm
    · rw [if_neg (by omega)] at done
      have answer := (kmallocLarge_null fits).mpr none
      rw [Option.some.inj done] at answer
      exact nonnull answer

theorem heapRun_kmallocNull {boot : BootInputs} {m : PageAllocator} (started : memoryInit boot = some m)
    (array : CacheArray) (mem : Mem) (ops : List HeapOp) :
    ∃ s, heapRun ops (heapStart m array mem) = some s ∧ ∀ size : UInt64,
      (∃ ptr h', kmalloc size.toNat s.heap = some (ptr, h') ∧ (ptr = 0 ↔ Refused size.toNat s.heap) ∧
        (ptr = 0 → h' = s.heap)) ∧
      (1 ≤ size.toNat → size.toNat ≤ 2048 → ∃ c ready h₁, sizeToClass size.toNat = some c ∧
        ensurePartial c s.heap = some (ready, h₁) ∧ (ready = true → PassesChecks c h₁)) := by
  obtain ⟨s, owner, slab, runs, session⟩ := heapRun_ok started array mem ops
  refine ⟨s, runs, fun size => ⟨session.ok.kmalloc_null size.toNat, fun positive small => ?_⟩⟩
  obtain ⟨c, cls, -⟩ := sizeToClass_smallest positive small
  rcases session.ok.ensurePartial c with refused | ⟨h₁, owner₁, slab₁, a, t, ready, prepared⟩
  · exact ⟨c, false, s.heap, cls, refused, nofun⟩
  · exact ⟨c, true, h₁, cls, ready, fun _ => prepared.passes⟩

theorem heapRun_kmallocNull_sampleBoot : ∃ m, memoryInit sampleBoot = some m ∧
    ∃ s, heapRun [.kmalloc 24, .pAlloc 3] (heapStart m sampleCaches ⟨fun _ => 0⟩) = some s ∧
      ∃ ptr h', kmalloc 0x100000001 s.heap = some (ptr, h') ∧ ptr = 0 ∧ h' = s.heap := by
  obtain ⟨m, started⟩ := sampleBoot_starts
  obtain ⟨s, runs, answers⟩ := heapRun_kmallocNull started sampleCaches ⟨fun _ => 0⟩ [.kmalloc 24, .pAlloc 3]
  obtain ⟨ptr, h', answered, null, kept⟩ := (answers 0x100000001).1
  have refused : ptr = 0 := null.mpr (.inr (.inl (by decide)))
  exact ⟨m, started, s, runs, ptr, h', answered, refused, kept refused⟩

end OrangeKernel.Slab
