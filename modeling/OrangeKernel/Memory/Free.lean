import OrangeKernel.Memory.Alloc

set_option autoImplicit false

namespace OrangeKernel.Memory

open Machine AlignedBlock Intrusive

variable {m : PageAllocator} {owner : Nat → Owner} {order : Nat} {p : Nat}

theorem free_of_tag (rep : Rep m owner) (bound : p < m.layout.managedPageCount) (owned : owner p ≠ .held)
    (state : (m.frames p).state = order) : owner p = .free order p := by
  have tag := rep.tag p bound owned
  rw [state] at tag
  unfold Owner.tag frameUsed frameBuddy frameAllocBase at tag
  cases o : owner p with
  | reserved => rw [o] at tag; simp at tag
  | held => exact absurd o owned
  | free k h =>
    rw [o] at tag
    by_cases atHead : p = h
    · have same : order = k := by simpa [atHead] using tag
      rw [same, atHead]
    · simp [atHead] at tag
  | allocated k h =>
    rw [o] at tag
    by_cases atHead : p = h <;> simp [atHead] at tag
    omega

theorem state_of_free (rep : Rep m owner) (bound : p < m.layout.managedPageCount) (owned : owner p = .free order p) :
    (m.frames p).state = order := by
  rw [rep.tag p bound (by simp [owned]), owned, Owner.tag, if_pos rfl]

theorem state_of_allocated (rep : Rep m owner) (bound : p < m.layout.managedPageCount)
    (owned : owner p = .allocated order p) :
    (m.frames p).state = frameAllocBase - order := by
  rw [rep.tag p bound (by simp [owned]), owned, Owner.tag, if_pos rfl]

theorem allocated_of_tag (rep : Rep m owner) (bound : p < m.layout.managedPageCount) (owned : owner p ≠ .held)
    (head : isAllocHeadTag (m.frames p).state = true) :
    owner p = .allocated (orderFromAllocTag (m.frames p).state) p := by
  have tag := rep.tag p bound owned
  have low : (m.frames p).state ≤ frameAllocBase := by simpa [isAllocHeadTag] using head
  rw [tag] at low ⊢
  unfold Owner.tag frameUsed frameBuddy frameAllocBase at low
  cases o : owner p with
  | reserved => simp [o] at low
  | held => exact absurd o owned
  | free k h =>
    rw [o] at low
    by_cases atHead : p = h <;> simp [atHead] at low
    omega
  | allocated k h =>
    rw [o] at low
    by_cases atHead : p = h
    · simp [Owner.tag, atHead, orderFromAllocTag, frameAllocBase]
    · simp [atHead] at low

variable {idx : Nat}

theorem buddy_halves {layout : Layout} (ok : layout.Ok) {buddy : Nat} (block : BlockOk layout order idx)
    (small : order < maxOrder) (found : buddyIndex layout idx order = some buddy)
    (buddyBlock : BlockOk layout order buddy) :
    BlockOk layout (order + 1) (if buddy < idx then buddy else idx) ∧
      ∀ q, Inside (order + 1) (if buddy < idx then buddy else idx) q ↔
        Inside order idx q ∨ Inside order buddy q := by
  obtain ⟨-, r, member, low, high, aligned⟩ := block
  have pos := Nat.two_pow_pos order
  have size : 2 ^ (order + 1) = 2 ^ order + 2 ^ order := by ring
  have contains : r.Contains idx := by unfold MemRegionInfo.Contains; omega
  rw [buddyIndex_eq ok order member contains] at found
  split at found
  · simp at found
  next inRegion =>
    cases found
    rcases left_or_right aligned with left | ⟨base, right, alignedBase⟩
    · rw [xor_of_left left] at inRegion buddyBlock ⊢
      have order' : ¬ r.firstIdx + (idx - r.firstIdx + 2 ^ order) < idx := by omega
      have start : r.firstIdx + (idx - r.firstIdx + 2 ^ order) = idx + 2 ^ order := by omega
      rw [if_neg order', start]
      refine ⟨⟨small, r, member, low, ?_, left⟩, fun q => inside_halves⟩
      obtain ⟨-, s, memberS, lowS, highS, -⟩ := buddyBlock
      have containsR : r.Contains (idx + 2 ^ order) := by unfold MemRegionInfo.Contains; omega
      have containsS : s.Contains (idx + 2 ^ order) := by unfold MemRegionInfo.Contains; omega
      obtain rfl := ok.region_unique member memberS containsR containsS
      omega
    · rw [right, xor_of_right alignedBase] at inRegion buddyBlock ⊢
      have order' : r.firstIdx + base < idx := by omega
      have start : idx = r.firstIdx + base + 2 ^ order := by omega
      rw [if_pos order']
      refine ⟨⟨small, r, member, by omega, by omega, ?_⟩, fun q => ?_⟩
      · rwa [Nat.add_sub_cancel_left]
      · rw [inside_halves, ← start, or_comm]

structure Merged (m : PageAllocator) (owner : Nat → Owner) (order idx : Nat)
    (result : Nat × Nat × PageAllocator) (owner' : Nat → Owner) : Prop where
  rep : Rep result.2.2 owner'
  kept : Kept m result.2.2
  block : BlockOk m.layout result.2.1 result.1
  grows : ∀ q, Inside order idx q → Inside result.2.1 result.1 q
  held : ∀ q, Inside result.2.1 result.1 q → owner' q = .held
  was_free : ∀ q, Inside result.2.1 result.1 q → ¬ Inside order idx q → (owner q).IsFree
  other : ∀ q, ¬ Inside result.2.1 result.1 q → owner' q = owner q
  busy : BuddyBusy m.layout owner' result.2.1 result.1
  buddies : NoFreeBuddies m.layout owner → NoFreeBuddies m.layout owner'

theorem mergeUp_stop (rep : Rep m owner) (block : BlockOk m.layout order idx)
    (held : ∀ q, Inside order idx q → owner q = .held) (busy : BuddyBusy m.layout owner order idx) :
    Merged m owner order idx (idx, order, m) owner where
  rep := rep
  kept := Kept.refl m
  block := block
  grows := fun _ inside => inside
  held := held
  was_free := fun _ inside outside => absurd inside outside
  other := fun _ _ => rfl
  busy := busy
  buddies := id

theorem mergeUp_spec (left : Nat) (rep : Rep m owner) (total : order + left = maxOrder)
    (block : BlockOk m.layout order idx) (held : ∀ q, Inside order idx q → owner q = .held)
    (only : ∀ p < m.layout.managedPageCount, owner p = .held → Inside order idx p) :
    ∃ owner', Merged m owner order idx (mergeUp left idx order m) owner' := by
  induction left generalizing m owner order idx with
  | zero =>
    refine ⟨owner, mergeUp_stop rep block held fun small => ?_⟩
    omega
  | succ left ih =>
    simp only [mergeUp]
    cases found : buddyIndex m.layout idx order with
    | none =>
      refine ⟨owner, mergeUp_stop rep block held fun _ buddy same => ?_⟩
      rw [found] at same
      simp at same
    | some buddy =>
      have small : order < maxOrder := by omega
      have tag : int16 order = order := int16_order block.1
      -- The buddy lies in the region, outside the held block.
      obtain ⟨-, r, member, low, high, aligned⟩ := id block
      have pos := Nat.two_pow_pos order
      have contains : r.Contains idx := by unfold MemRegionInfo.Contains; omega
      have known := buddyIndex_eq rep.layout_ok order member contains
      rw [found] at known
      split at known
      · simp at known
      next inRegion =>
      cases known
      have containsBuddy : r.Contains (r.firstIdx + ((idx - r.firstIdx) ^^^ 2 ^ order)) := by
        unfold MemRegionInfo.Contains
        omega
      have bound := rep.layout_ok.contains_lt member containsBuddy
      have outside : ¬ Inside order idx (r.firstIdx + ((idx - r.firstIdx) ^^^ 2 ^ order)) := by
        unfold Inside
        rcases left_or_right aligned with leftHalf | ⟨base, right, alignedBase⟩
        · rw [xor_of_left leftHalf]
          omega
        · rw [right, xor_of_right alignedBase]
          omega
      generalize r.firstIdx + ((idx - r.firstIdx) ^^^ 2 ^ order) = buddy at *
      have notHeld : owner buddy ≠ .held := fun isHeld => outside (only buddy bound isHeld)
      by_cases state : (m.frames buddy).state = order
      · have owned := free_of_tag rep bound notHeld state
        obtain ⟨removed, removes, kept, removedRep⟩ := rep.freelistRemove_free bound owned
        obtain ⟨buddyBlock, -, whole⟩ := rep.block buddy bound order buddy (by rw [owned]; rfl)
        obtain ⟨grown, halves⟩ := buddy_halves rep.layout_ok block small found buddyBlock
        have heldBoth : ∀ q, Inside (order + 1) (if buddy < idx then buddy else idx) q →
            assign owner order buddy .held q = .held := by
          intro q inside
          by_cases inBuddy : Inside order buddy q
          · exact assign_inside inBuddy
          · rw [assign_outside inBuddy]
            exact held q (((halves q).mp inside).resolve_right inBuddy)
        have onlyBoth : ∀ p < removed.layout.managedPageCount, assign owner order buddy .held p = .held →
            Inside (order + 1) (if buddy < idx then buddy else idx) p := by
          intro p inRange isHeld
          rw [kept.layout] at inRange
          apply (halves p).mpr
          by_cases inBuddy : Inside order buddy p
          · exact Or.inr inBuddy
          · rw [assign_outside inBuddy] at isHeld
            exact Or.inl (only p inRange isHeld)
        obtain ⟨owner', merged⟩ := ih removedRep (by omega) (kept.layout ▸ grown) heldBoth onlyBoth
        simp only [tag, state, ne_eq, not_true_eq_false, if_false, removes]
        refine ⟨owner', merged.rep, kept.trans merged.kept, kept.layout ▸ merged.block, ?_, merged.held,
          ?_, ?_, kept.layout ▸ merged.busy, ?_⟩
        · exact fun q inside => merged.grows q ((halves q).mpr (Or.inl inside))
        · intro q inside outsideQ
          by_cases inGrown : Inside (order + 1) (if buddy < idx then buddy else idx) q
          · rw [whole q (((halves q).mp inGrown).resolve_left outsideQ), owned]
            trivial
          · have free := merged.was_free q inside inGrown
            rwa [assign_outside fun inBuddy => inGrown ((halves q).mpr (Or.inr inBuddy))] at free
        · intro q outsideQ
          rw [merged.other q outsideQ]
          apply assign_outside
          exact fun inBuddy => outsideQ (merged.grows q ((halves q).mpr (Or.inr inBuddy)))
        · intro none
          have buddies := merged.buddies
          rw [kept.layout] at buddies
          exact buddies (noFreeBuddies_assign none id)
      · simp only [tag, ne_eq, state, not_false_eq_true, if_true]
        refine ⟨owner, mergeUp_stop rep block held fun _ other same => ?_⟩
        obtain rfl := Option.some.inj (found.symm.trans same)
        exact fun owned => state (state_of_free rep bound owned)

structure Frees (layout : Layout) (owner owner' : Nat → Owner) (order head : Nat) : Prop where
  block : BlockOk layout order head
  was : ∀ q, Inside order head q → owner q = .allocated order head
  now_free : ∀ q, Inside order head q → (owner' q).IsFree
  free_iff : ∀ q, ¬ Inside order head q → ((owner' q).IsFree ↔ (owner q).IsFree)
  other : ∀ q, ¬ Inside order head q → ¬ (owner q).IsFree → owner' q = owner q

theorem Frees.settled {m' : PageAllocator} {owner' : Nat → Owner} {head : Nat}
    (frees : Frees m.layout owner owner' order head) (layout : m'.layout = m.layout)
    (settled : Settled m owner) : Settled m' owner' := by
  intro p bound heldP
  rw [layout] at bound
  by_cases inside : Inside order head p
  · have free := frees.now_free p inside
    rw [heldP] at free
    exact free
  · by_cases free : (owner p).IsFree
    · have freeP := (frees.free_iff p inside).mpr free
      rw [heldP] at freeP
      exact freeP
    · exact settled p bound ((frees.other p inside free).symm.trans heldP)

structure FreeOk (ptr : Nat) (m : PageAllocator) (owner : Nat → Owner) (m' : PageAllocator)
    (owner' : Nat → Owner) (order idx : Nat) : Prop where
  nonnull : ptr ≠ 0
  addr : indexToPa m.layout idx = some ptr
  rep : Rep m' owner'
  kept : Kept { m with pageFreeCount := m.pageFreeCount + 1 } m'
  frees : Frees m.layout owner owner' order idx
  buddies : NoFreeBuddies m.layout owner → NoFreeBuddies m.layout owner'

def NotAllocated (ptr : Nat) (m : PageAllocator) (owner : Nat → Owner) : Prop :=
  ptr = 0 ∨ ∀ idx order, indexToPa m.layout idx = some ptr → owner idx ≠ .allocated order idx

theorem pFree_spec (ptr : Nat) (rep : Rep m owner)
    (settled : Settled m owner) (ready : m.memoryReady = true) :
    (pFree ptr m = m ∧ NotAllocated ptr m owner) ∨
      ∃ owner' order idx, FreeOk ptr m owner (pFree ptr m) owner' order idx := by
  by_cases zero : ptr = 0
  · exact Or.inl ⟨by simp [pFree, zero], Or.inl zero⟩
  have started : ¬ (m.memoryReady = false ∨ ptr = 0) := by simp [ready, zero]
  have mask : ptr &&& (pageSize - 1) = ptr % pageSize := Nat.and_two_pow_sub_one_eq_mod ptr 12
  unfold pFree
  rw [if_neg started, mask]
  by_cases aligned : ptr % pageSize = 0
  · rw [if_neg (not_not.mpr aligned)]
    cases found : paToIndex m.layout ptr with
    | none =>
      refine Or.inl ⟨rfl, Or.inr fun idx order addr => ?_⟩
      rw [rep.layout_ok.indexToPa_iff, found] at addr
      simp at addr
    | some idx =>
      have addr := rep.layout_ok.indexToPa_iff.mpr found
      obtain ⟨r, member, contains, -⟩ := rep.layout_ok.paToIndex_some found
      have bound := rep.layout_ok.contains_lt member contains
      by_cases head : isAllocHeadTag (m.frames idx).state = true
      · have owned := allocated_of_tag rep bound (settled idx bound) head
        generalize hOrder : orderFromAllocTag (m.frames idx).state = order at owned
        obtain ⟨block, -, whole⟩ := rep.block idx bound order idx (by rw [owned]; rfl)
        have heldRep := rep.hold_allocated bound owned
        obtain ⟨mergedOwner, merged⟩ := mergeUp_spec (maxOrder - order) heldRep
          (by have := block.1; omega) block (fun q inside => assign_inside inside) (by
            intro p inRange isHeld
            by_contra outside
            rw [assign_outside outside] at isHeld
            exact settled p inRange isHeld)
        right
        simp only [head, if_true, hOrder]
        generalize mergeUp (maxOrder - order) idx order m = result at merged
        obtain ⟨mergedIdx, mergedOrder, mergedState⟩ := result
        have released := merged.rep.release (merged.kept.layout.symm ▸ merged.block) merged.held
        have kept := (merged.kept.trans (blockMarkFree_kept mergedIdx mergedOrder _)).trans
          (freelistPush_kept mergedOrder mergedIdx _)
        refine ⟨assign mergedOwner mergedOrder mergedIdx (.free mergedOrder mergedIdx), order, idx, ?_⟩
        exact
          { nonnull := zero
            addr := addr
            rep := released.congr rfl rfl fun p => ⟨rfl, rfl, rfl⟩
            kept := ⟨kept.layout, kept.ready, kept.kind, kept.allocs, congrArg (· + 1) kept.frees⟩
            frees :=
              { block := block
                was := fun q inside => (whole q inside).trans owned
                now_free := by
                  intro q inside
                  rw [assign_inside (merged.grows q inside)]
                  trivial
                free_iff := by
                  intro q outside
                  by_cases inside : Inside mergedOrder mergedIdx q
                  · have free := merged.was_free q inside outside
                    rw [assign_outside outside] at free
                    rw [assign_inside inside]
                    exact iff_of_true trivial free
                  · rw [assign_outside inside, merged.other q inside, assign_outside outside]
                other := by
                  intro q outside notFree
                  have apart : ¬ Inside mergedOrder mergedIdx q := by
                    intro inside
                    have free := merged.was_free q inside outside
                    rw [assign_outside outside] at free
                    exact notFree free
                  rw [assign_outside apart, merged.other q apart, assign_outside outside] }
            buddies := fun none =>
              noFreeBuddies_release rep.layout_ok (merged.buddies (noFreeBuddies_assign none id)) merged.busy }
      · refine Or.inl ⟨by simp [head], Or.inr fun idx' order addr' owned => head ?_⟩
        rw [rep.layout_ok.indexToPa_iff, found] at addr'
        cases addr'
        rw [state_of_allocated rep bound owned]
        simp [isAllocHeadTag]
  · refine Or.inl ⟨by simp [aligned], Or.inr fun idx order addr => ?_⟩
    obtain ⟨r, member, -, rfl⟩ := rep.layout_ok.paToIndex_some (rep.layout_ok.indexToPa_iff.mp addr)
    exact absurd ((rep.layout_ok.region r member).addr_aligned idx) aligned

end OrangeKernel.Memory
