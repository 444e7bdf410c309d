import OrangeKernel.Memory.Rep
import Mathlib.Data.Nat.Log

set_option autoImplicit false

namespace OrangeKernel.Memory

open Machine AlignedBlock Intrusive

def Owner.IsFree : Owner → Prop
  | .free _ _ => True
  | .reserved | .allocated _ _ | .held => False

instance (o : Owner) : Decidable o.IsFree :=
  match o with
  | .free _ _ => .isTrue trivial
  | .reserved | .allocated _ _ | .held => .isFalse id

def NoFreeBuddies (layout : Layout) (owner : Nat → Owner) : Prop :=
  ∀ r ∈ layout.regions, ∀ order < maxOrder, ∀ start, 2 ^ (order + 1) ∣ start →
    start + 2 ^ order < r.pageCount →
    owner (r.firstIdx + start) = .free order (r.firstIdx + start) →
    owner (r.firstIdx + (start + 2 ^ order)) ≠ .free order (r.firstIdx + (start + 2 ^ order))

variable {left order : Nat}

theorem needOrderFrom_some {pages need : Nat}
    (found : needOrderFrom pages left order = some need) :
    order ≤ need ∧ need ≤ order + left ∧ pages ≤ 2 ^ need ∧
      ∀ smaller, order ≤ smaller → smaller < need → 2 ^ smaller < pages := by
  induction left generalizing order with
  | zero =>
    simp only [needOrderFrom] at found
    split at found
    · simp at found
    next enough =>
      cases found
      exact ⟨Nat.le_refl _, Nat.le_refl _, Nat.not_lt.mp enough, fun smaller low high => by omega⟩
  | succ left ih =>
    simp only [needOrderFrom] at found
    split at found
    next short =>
      obtain ⟨low, high, fits, minimal⟩ := ih found
      refine ⟨by omega, by omega, fits, fun smaller lowS highS => ?_⟩
      by_cases same : smaller = order
      · exact same ▸ short
      · exact minimal smaller (by omega) highS
    next enough =>
      cases found
      exact ⟨Nat.le_refl _, by omega, Nat.not_lt.mp enough, fun smaller low high => by omega⟩

theorem needOrderFrom_none {pages : Nat} (missing : needOrderFrom pages left order = none) :
    2 ^ (order + left) < pages := by
  induction left generalizing order with
  | zero =>
    simp only [needOrderFrom] at missing
    split at missing
    next short => exact short
    · simp at missing
  | succ left ih =>
    simp only [needOrderFrom] at missing
    split at missing
    · have rest := ih missing
      rwa [Nat.add_assoc, Nat.add_comm 1 left] at rest
    · simp at missing

theorem needOrder_eq (pages : Nat) :
    needOrder pages = if pages ≤ 2 ^ maxOrder then some (Nat.clog 2 pages) else none := by
  cases found : needOrder pages with
  | none =>
    have large := needOrderFrom_none found
    rw [Nat.zero_add] at large
    rw [if_neg (Nat.not_le.mpr large)]
  | some need =>
    obtain ⟨-, high, fits, minimal⟩ := needOrderFrom_some found
    have bound : pages ≤ 2 ^ maxOrder := fits.trans (Nat.pow_le_pow_right (by decide) (by omega))
    rw [if_pos bound]
    congr 1
    apply Nat.le_antisymm
    · by_contra less
      have below := minimal (Nat.clog 2 pages) (Nat.zero_le _) (by omega)
      have above := Nat.le_pow_clog (b := 2) (by decide) pages
      omega
    · exact Nat.clog_le_of_le_pow fits

variable {m : PageAllocator}

theorem findOrderFrom_some {found : Nat}
    (search : findOrderFrom m left order = some found) :
    order ≤ found ∧ found < order + left ∧ 0 ≤ m.freeLists found := by
  induction left generalizing order with
  | zero => simp [findOrderFrom] at search
  | succ left ih =>
    simp only [findOrderFrom] at search
    split at search
    · obtain ⟨low, high, nonempty⟩ := ih search
      exact ⟨by omega, by omega, nonempty⟩
    next nonempty =>
      cases search
      exact ⟨Nat.le_refl _, by omega, Int.not_lt.mp nonempty⟩

theorem findOrderFrom_none
    (search : findOrderFrom m left order = none) :
    ∀ k, order ≤ k → k < order + left → m.freeLists k < 0 := by
  induction left generalizing order with
  | zero => intro k low high; omega
  | succ left ih =>
    simp only [findOrderFrom] at search
    split at search
    next empty =>
      intro k low high
      by_cases same : k = order
      · exact same ▸ empty
      · exact ih search k (by omega) (by omega)
    · simp at search

variable {layout : Layout} {head : Nat}

theorem BlockOk.left_half (ok : BlockOk layout (order + 1) head) :
    BlockOk layout order head := by
  obtain ⟨small, r, member, low, high, aligned⟩ := ok
  have size : 2 ^ (order + 1) = 2 ^ order + 2 ^ order := by ring
  exact ⟨by omega, r, member, low, by omega, aligned_weaken (Nat.le_succ order) aligned⟩

theorem BlockOk.right_half (ok : BlockOk layout (order + 1) head) :
    BlockOk layout order (head + 2 ^ order) := by
  obtain ⟨small, r, member, low, high, aligned⟩ := ok
  have size : 2 ^ (order + 1) = 2 ^ order + 2 ^ order := by ring
  refine ⟨by omega, r, member, by omega, by omega, ?_⟩
  have shift : head + 2 ^ order - r.firstIdx = head - r.firstIdx + 2 ^ order := by omega
  rw [shift]
  exact aligned_right_half aligned

variable {owner : Nat → Owner}

theorem noFreeBuddies_assign {o : Owner}
    (none : NoFreeBuddies layout owner) (notFree : ¬ o.IsFree) :
    NoFreeBuddies layout (assign owner order head o) := by
  have kept : ∀ {p k}, assign owner order head o p = .free k p → owner p = .free k p := by
    intro p k owned
    by_cases inside : Inside order head p
    · rw [assign_inside inside] at owned
      exact absurd (owned ▸ trivial) notFree
    · rwa [assign_outside inside] at owned
  intro r member k small start aligned bound left right
  exact none r member k small start aligned bound (kept left) (kept right)

def BuddyBusy (layout : Layout) (owner : Nat → Owner) (order head : Nat) : Prop :=
  order < maxOrder → ∀ buddy, buddyIndex layout head order = some buddy →
    owner buddy ≠ .free order buddy

theorem buddyIndex_eq (ok : layout.Ok) {r : MemRegionInfo} {idx : Nat}
    (order : Nat) (member : r ∈ layout.regions) (contains : r.Contains idx) :
    buddyIndex layout idx order =
      if r.pageCount ≤ (idx - r.firstIdx) ^^^ 2 ^ order then none
      else some (r.firstIdx + ((idx - r.firstIdx) ^^^ 2 ^ order)) := by
  obtain ⟨rid, found, get⟩ := ok.findRegionByIndex_eq member contains
  simp [buddyIndex, found, get]

theorem noFreeBuddies_release (ok : layout.Ok)
    (none : NoFreeBuddies layout owner) (busy : BuddyBusy layout owner order head) :
    NoFreeBuddies layout (assign owner order head (.free order head)) := by
  -- A free head is the new block or an old one outside it.
  have source : ∀ {p k}, assign owner order head (.free order head) p = .free k p →
      (p = head ∧ k = order) ∨ (¬ Inside order head p ∧ owner p = .free k p) := by
    intro p k owned
    by_cases inside : Inside order head p
    · rw [assign_inside inside] at owned
      simp only [Owner.free.injEq] at owned
      exact Or.inl ⟨owned.2.symm, owned.1.symm⟩
    · exact Or.inr ⟨inside, by rwa [assign_outside inside] at owned⟩
  intro r member k small start aligned bound left right
  have pos := Nat.two_pow_pos k
  have containsLeft : r.Contains (r.firstIdx + start) := by unfold MemRegionInfo.Contains; omega
  have containsRight : r.Contains (r.firstIdx + (start + 2 ^ k)) := by
    unfold MemRegionInfo.Contains
    omega
  rcases source left with ⟨atLeft, rfl⟩ | ⟨-, oldLeft⟩ <;>
    rcases source right with ⟨atRight, sameOrder⟩ | ⟨-, oldRight⟩
  · omega
  · have buddy := buddyIndex_eq ok k member containsLeft
    rw [Nat.add_sub_cancel_left, xor_of_left aligned, if_neg (by omega), atLeft] at buddy
    exact busy small _ buddy oldRight
  · have buddy := buddyIndex_eq ok k member containsRight
    rw [Nat.add_sub_cancel_left, xor_of_right aligned, if_neg (by omega), atRight] at buddy
    exact busy (sameOrder ▸ small) _ (sameOrder ▸ buddy) (sameOrder ▸ oldLeft)
  · exact none r member k small start aligned bound oldLeft oldRight

structure Splits (owner owner' : Nat → Owner) (order need head : Nat) : Prop where
  kept : ∀ q, Inside need head q → owner' q = .held
  rest : ∀ q, Inside order head q → ¬ Inside need head q → (owner' q).IsFree
  other : ∀ q, ¬ Inside order head q → owner' q = owner q

theorem splitDown_spec {need idx : Nat} (steps : Nat)
    (rep : Rep m owner) (ok : BlockOk m.layout (need + steps) idx)
    (held : ∀ q, Inside (need + steps) idx q → owner q = .held) :
    ∃ owner', Rep (splitDown need idx steps m) owner' ∧ Kept m (splitDown need idx steps m) ∧
      Splits owner owner' (need + steps) need idx ∧
      (NoFreeBuddies m.layout owner → NoFreeBuddies m.layout owner') := by
  induction steps generalizing m owner with
  | zero =>
    exact ⟨owner, rep, Kept.refl m, ⟨held, fun q inside outside => absurd inside outside,
      fun q _ => rfl⟩, id⟩
  | succ steps ih =>
    have right : BlockOk m.layout (need + steps) (idx + 2 ^ (need + steps)) := ok.right_half
    have halves : ∀ {q}, Inside (need + (steps + 1)) idx q ↔
        Inside (need + steps) idx q ∨ Inside (need + steps) (idx + 2 ^ (need + steps)) q := inside_halves
    have heldRight : ∀ q, Inside (need + steps) (idx + 2 ^ (need + steps)) q → owner q = .held :=
      fun q inside => held q (halves.mpr (Or.inr inside))
    have released := rep.release right heldRight
    have heldLeft : ∀ q, Inside (need + steps) idx q →
        assign owner (need + steps) (idx + 2 ^ (need + steps))
          (.free (need + steps) (idx + 2 ^ (need + steps))) q = .held := by
      intro q inside
      rw [assign_outside fun insideRight => halves_apart inside insideRight]
      exact held q (halves.mpr (Or.inl inside))
    have marked := released.mark_held heldLeft
    obtain ⟨owner', rep', kept', splits, buddies⟩ := ih marked ok.left_half heldLeft
    refine ⟨owner', rep', ?_, ⟨splits.kept, ?_, ?_⟩, fun none => buddies ?_⟩
    · exact (((blockMarkFree_kept ..).trans (freelistPush_kept ..)).trans (blockMarkFree_kept ..)).trans kept'
    · intro q inside outside
      rcases halves.mp inside with left | insideRight
      · exact splits.rest q left outside
      · rw [splits.other q fun left => halves_apart left insideRight, assign_inside insideRight]
        trivial
    · intro q outside
      rw [splits.other q fun left => outside (halves.mpr (Or.inl left)),
        assign_outside fun insideRight => outside (halves.mpr (Or.inr insideRight))]
    · -- The buddy of the new right half is the left half, which is held.
      apply noFreeBuddies_release rep.layout_ok none
      intro small buddy found
      obtain ⟨-, r, member, low, high, aligned⟩ := ok
      have size : 2 ^ (need + steps + 1) = 2 ^ (need + steps) + 2 ^ (need + steps) := by ring
      rw [← Nat.add_assoc] at high aligned
      have contains : r.Contains (idx + 2 ^ (need + steps)) := by
        unfold MemRegionInfo.Contains
        omega
      have shift : idx + 2 ^ (need + steps) - r.firstIdx = idx - r.firstIdx + 2 ^ (need + steps) := by omega
      have known := buddyIndex_eq rep.layout_ok (need + steps) member contains
      rw [shift, xor_of_right aligned, found] at known
      split at known
      · simp at known
      · obtain rfl : buddy = r.firstIdx + (idx - r.firstIdx) := Option.some.inj known
        rw [Nat.add_sub_cancel' low, held idx (inside_start _ _)]
        simp

structure Allocates (layout : Layout) (owner owner' : Nat → Owner) (order head : Nat) : Prop where
  block : BlockOk layout order head
  was_free : ∀ q, Inside order head q → (owner q).IsFree
  now : ∀ q, Inside order head q → owner' q = .allocated order head
  free_iff : ∀ q, ¬ Inside order head q → ((owner' q).IsFree ↔ (owner q).IsFree)
  other : ∀ q, ¬ Inside order head q → ¬ (owner q).IsFree → owner' q = owner q

def Settled (m : PageAllocator) (owner : Nat → Owner) : Prop :=
  ∀ p < m.layout.managedPageCount, owner p ≠ .held

theorem Allocates.settled {m' : PageAllocator} {owner' : Nat → Owner}
    (allocates : Allocates m.layout owner owner' order head) (layout : m'.layout = m.layout)
    (settled : Settled m owner) : Settled m' owner' := by
  intro p bound heldP
  rw [layout] at bound
  by_cases inside : Inside order head p
  · simp [allocates.now p inside] at heldP
  · by_cases free : (owner p).IsFree
    · have freeP := (allocates.free_iff p inside).mpr free
      rw [heldP] at freeP
      exact freeP
    · exact settled p bound ((allocates.other p inside free).symm.trans heldP)

structure AllocOk (pages : Nat) (m : PageAllocator) (owner : Nat → Owner) (result : Nat × PageAllocator)
    (owner' : Nat → Owner) (idx : Nat) : Prop where
  pages_pos : 0 < pages
  pages_le : pages ≤ 2 ^ maxOrder
  addr : indexToPa m.layout idx = some result.1
  rep : Rep result.2 owner'
  kept : Kept { m with pageAllocCount := m.pageAllocCount + 1 } result.2
  allocates : Allocates m.layout owner owner' (Nat.clog 2 pages) idx
  buddies : NoFreeBuddies m.layout owner → NoFreeBuddies m.layout owner'

def AllocNone (pages : Nat) (m : PageAllocator) : Prop :=
  pages = 0 ∨ 2 ^ maxOrder < pages ∨
    ∀ order, Nat.clog 2 pages ≤ order → order ≤ maxOrder → m.freeLists order < 0

theorem pAlloc_spec (pages : Nat) (rep : Rep m owner)
    (ready : m.memoryReady = true) :
    (pAlloc pages m = (0, m) ∧ AllocNone pages m) ∨
      ∃ owner' idx, AllocOk pages m owner (pAlloc pages m) owner' idx := by
  by_cases zero : pages = 0
  · exact Or.inl ⟨by simp [pAlloc, zero], Or.inl zero⟩
  have started : ¬ (m.memoryReady = false ∨ pages = 0) := by simp [ready, zero]
  unfold pAlloc
  rw [if_neg started, needOrder_eq]
  by_cases fits : pages ≤ 2 ^ maxOrder
  · simp only [fits, if_true]
    cases search : findOrderFrom m (maxOrder + 1 - Nat.clog 2 pages) (Nat.clog 2 pages) with
    | none =>
      refine Or.inl ⟨rfl, Or.inr (Or.inr fun order low high => ?_)⟩
      exact findOrderFrom_none search order low (by omega)
    | some curOrder =>
      right
      obtain ⟨low, high, nonempty⟩ := findOrderFrom_some search
      obtain ⟨idx, first, bound, owned⟩ := rep.free_of_list (by omega) nonempty
      obtain ⟨ok, -, whole⟩ := rep.block idx bound curOrder idx (by rw [owned]; rfl)
      obtain ⟨popped, pop, poppedKept, poppedRep⟩ := rep.freelistPop_free bound owned first
      -- The popped block is split down to the order of the request.
      obtain ⟨steps, rfl⟩ : ∃ steps, curOrder = Nat.clog 2 pages + steps :=
        ⟨curOrder - Nat.clog 2 pages, by omega⟩
      have poppedOk : BlockOk popped.layout (Nat.clog 2 pages + steps) idx := poppedKept.layout ▸ ok
      obtain ⟨splitOwner, splitRep, splitKept, splits, splitBuddies⟩ :=
        splitDown_spec steps poppedRep poppedOk fun q inside => assign_inside inside
      have needOk : BlockOk m.layout (Nat.clog 2 pages) idx := by
        obtain ⟨small, r, member, lowIdx, highIdx, aligned⟩ := ok
        have size := Nat.pow_le_pow_right (show 0 < 2 by decide) (Nat.le_add_right (Nat.clog 2 pages) steps)
        exact ⟨by omega, r, member, lowIdx, by omega, aligned_weaken (Nat.le_add_right _ _) aligned⟩
      have layout : (splitDown (Nat.clog 2 pages) idx steps popped).layout = m.layout :=
        splitKept.layout.trans poppedKept.layout
      have finalRep := splitRep.allocate (layout.symm ▸ needOk) splits.kept
      have inner : ∀ {q}, Inside (Nat.clog 2 pages) idx q → Inside (Nat.clog 2 pages + steps) idx q := by
        intro q inside
        have size := Nat.pow_le_pow_right (show 0 < 2 by decide) (Nat.le_add_right (Nat.clog 2 pages) steps)
        exact ⟨inside.1, by have := inside.2; omega⟩
      have wasFree : ∀ q, Inside (Nat.clog 2 pages + steps) idx q → (owner q).IsFree := by
        intro q inside
        rw [whole q inside, owned]
        trivial
      have kept := (poppedKept.trans splitKept).trans (blockMarkAlloc_kept idx (Nat.clog 2 pages) _)
      refine ⟨assign splitOwner (Nat.clog 2 pages) idx (.allocated (Nat.clog 2 pages) idx), idx, ?_⟩
      obtain ⟨r, member, contains⟩ := rep.layout_ok.region_of_index bound
      have pa := rep.layout_ok.indexToPa_eq member contains
      have markedPa : indexToPa (blockMarkAlloc idx (Nat.clog 2 pages)
          (splitDown (Nat.clog 2 pages) idx steps popped)).layout idx = some (r.addr idx) := by
        rw [← pa, ← layout]
        rfl
      have stepsEq : Nat.clog 2 pages + steps - Nat.clog 2 pages = steps := by omega
      have nonneg : ¬ ((idx : Int) < 0) := by omega
      simp only [pop, nonneg, if_false, Int.toNat_natCast, stepsEq, markedPa]
      exact
        { pages_pos := Nat.pos_of_ne_zero zero
          pages_le := fits
          addr := pa
          rep := finalRep.congr rfl rfl fun p => ⟨rfl, rfl, rfl⟩
          kept := ⟨kept.layout, kept.ready, kept.kind, congrArg (· + 1) kept.allocs, kept.frees⟩
          allocates :=
            { block := needOk
              was_free := fun q inside => wasFree q (inner inside)
              now := fun q inside => assign_inside inside
              free_iff := by
                intro q outside
                rw [assign_outside outside]
                by_cases inside : Inside (Nat.clog 2 pages + steps) idx q
                · exact iff_of_true (splits.rest q inside outside) (wasFree q inside)
                · rw [splits.other q inside, assign_outside inside]
              other := by
                intro q outside notFree
                have apart : ¬ Inside (Nat.clog 2 pages + steps) idx q :=
                  fun inside => notFree (wasFree q inside)
                rw [assign_outside outside, splits.other q apart, assign_outside apart] }
          buddies := fun none => by
            have held : NoFreeBuddies m.layout (assign owner (Nat.clog 2 pages + steps) idx .held) :=
              noFreeBuddies_assign none id
            rw [poppedKept.layout] at splitBuddies
            exact noFreeBuddies_assign (splitBuddies held) id }
  · refine Or.inl ⟨?_, Or.inr (Or.inl (Nat.not_le.mp fits))⟩
    simp [fits]

end OrangeKernel.Memory
