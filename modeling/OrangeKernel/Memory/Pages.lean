import OrangeKernel.Memory.Boot
import OrangeKernel.Memory.Free

set_option autoImplicit false

namespace OrangeKernel.Memory

open Machine AlignedBlock Intrusive

theorem Owner.isFree_iff {o : Owner} : o.IsFree ↔ ∃ order head, o = .free order head := by
  cases o <;> simp [IsFree]

structure PagesOk (m : PageAllocator) (owner : Nat → Owner) : Prop where
  rep : Rep m owner
  settled : Settled m owner
  buddies : NoFreeBuddies m.layout owner
  ready : m.memoryReady = true
  boot : BootLayout m.layout
  reserved : ∀ p < m.layout.managedPageCount, owner p = .reserved ↔ pageReserved m.layout p = true

variable {layout : Layout}

theorem Spanned.isReserved {start stop : Nat} (spanned : Spanned layout.reserves start stop)
    {pa : Nat} (low : start ≤ pa) (high : pa < stop) : isReservedPa layout pa = true := by
  obtain ⟨r, member, before, after⟩ := spanned
  exact List.any_eq_true.mpr ⟨r, member, by simp; omega⟩

variable {m : PageAllocator} {owner : Nat → Owner}

theorem PagesOk.indexToPa_ne_zero (ok : PagesOk m owner) {idx : Nat}
    (bound : idx < m.layout.managedPageCount) (free : owner idx ≠ .reserved) :
    indexToPa m.layout idx ≠ some 0 := by
  intro zero
  apply free
  rw [ok.reserved idx bound, pageReserved, zero]
  exact ok.boot.zero.isReserved (Nat.le_refl 0) (by decide)

def SameReserved (owner owner' : Nat → Owner) : Prop :=
  ∀ q, owner' q = .reserved ↔ owner q = .reserved

variable {owner' : Nat → Owner}

theorem SameReserved.of_unchanged {q : Nat}
    (iff : (owner' q).IsFree ↔ (owner q).IsFree) (other : ¬ (owner q).IsFree → owner' q = owner q) :
    owner' q = .reserved ↔ owner q = .reserved := by
  by_cases free : (owner q).IsFree
  · obtain ⟨order, head, before⟩ := Owner.isFree_iff.mp free
    obtain ⟨order', head', after⟩ := Owner.isFree_iff.mp (iff.mpr free)
    simp [before, after]
  · rw [other free]

theorem Allocates.sameReserved {order head : Nat}
    (allocates : Allocates layout owner owner' order head) : SameReserved owner owner' := by
  intro q
  by_cases inside : Inside order head q
  · obtain ⟨k, h, before⟩ := Owner.isFree_iff.mp (allocates.was_free q inside)
    simp [allocates.now q inside, before]
  · exact SameReserved.of_unchanged (allocates.free_iff q inside) (allocates.other q inside)

theorem Frees.sameReserved {order head : Nat}
    (frees : Frees layout owner owner' order head) : SameReserved owner owner' := by
  intro q
  by_cases inside : Inside order head q
  · obtain ⟨k, h, after⟩ := Owner.isFree_iff.mp (frees.now_free q inside)
    simp [frees.was q inside, after]
  · exact SameReserved.of_unchanged (frees.free_iff q inside) (frees.other q inside)

theorem PagesOk.pAlloc (ok : PagesOk m owner) (pages : Nat) :
    Memory.pAlloc pages m = (0, m) ∨ ∃ owner' idx, AllocOk pages m owner (Memory.pAlloc pages m) owner' idx ∧
      PagesOk (Memory.pAlloc pages m).2 owner' ∧ (Memory.pAlloc pages m).1 ≠ 0 := by
  rcases pAlloc_spec pages ok.rep ok.ready with ⟨null, -⟩ | ⟨owner', idx, done⟩
  · exact Or.inl null
  have layout : (Memory.pAlloc pages m).2.layout = m.layout := done.kept.layout
  have bound := done.allocates.block.lt ok.rep.layout_ok (inside_start _ idx)
  refine Or.inr ⟨owner', idx, done, ?_, fun zero => ?_⟩
  · exact
      { rep := done.rep
        settled := done.allocates.settled layout ok.settled
        buddies := layout ▸ done.buddies ok.buddies
        ready := done.kept.ready.trans ok.ready
        boot := layout ▸ ok.boot
        reserved := by
          rw [layout]
          exact fun p inRange => (done.allocates.sameReserved p).trans (ok.reserved p inRange) }
  · have was := done.allocates.was_free idx (inside_start _ idx)
    have addr := done.addr
    rw [zero] at addr
    refine ok.indexToPa_ne_zero bound (fun reserved => ?_) addr
    rw [reserved] at was
    exact was

theorem PagesOk.pFree (ok : PagesOk m owner) (ptr : Nat) :
    (Memory.pFree ptr m = m ∧ NotAllocated ptr m owner) ∨
      ∃ owner' order idx, FreeOk ptr m owner (Memory.pFree ptr m) owner' order idx ∧
        PagesOk (Memory.pFree ptr m) owner' := by
  rcases pFree_spec ptr ok.rep ok.settled ok.ready with ignored | ⟨owner', order, idx, done⟩
  · exact Or.inl ignored
  have layout : (Memory.pFree ptr m).layout = m.layout := done.kept.layout
  refine Or.inr ⟨owner', order, idx, done, ?_⟩
  exact
    { rep := done.rep
      settled := done.frees.settled layout ok.settled
      buddies := layout ▸ done.buddies ok.buddies
      ready := done.kept.ready.trans ok.ready
      boot := layout ▸ ok.boot
      reserved := by
        rw [layout]
        exact fun p inRange => (done.frees.sameReserved p).trans (ok.reserved p inRange) }

theorem memoryInit_pagesOk {boot : BootInputs} (started : memoryInit boot = some m) :
    ∃ owner, PagesOk m owner ∧ (∀ p < m.layout.managedPageCount, Placed m.layout owner p) ∧
      ∀ p, (m.frames p).kind = .none := by
  obtain ⟨layout, bootLayout, rfl⟩ := memoryInit_spec started
  obtain ⟨owner, rep, kept, buddies, placed⟩ := buddyBuildInitialState_spec bootLayout.ok
  have same : (buddyBuildInitialState (buddySetupMetadata layout)).layout = layout := kept.layout
  refine ⟨owner, ?_, by rw [same]; exact placed, fun p => kept.kind p⟩
  exact
    { rep := rep.congr rfl rfl fun _ => ⟨rfl, rfl, rfl⟩
      settled := by
        intro p bound held
        have at' := placed p (same ▸ bound)
        unfold Placed at at'
        rw [held] at at'
        split at at' <;> simp [Owner.IsFree] at at'
      buddies := by rw [same]; exact buddies
      ready := rfl
      boot := by rw [same]; exact bootLayout
      reserved := by
        rw [same]
        intro p bound
        have at' := placed p bound
        unfold Placed at at'
        constructor
        · intro owned
          by_contra free
          rw [if_neg free, owned] at at'
          exact at'
        · intro reserved
          rwa [if_pos reserved] at at' }

end OrangeKernel.Memory
