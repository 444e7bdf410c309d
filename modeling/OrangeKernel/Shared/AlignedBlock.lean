import Mathlib.Data.Finset.Card
import Mathlib.Data.Nat.Bitwise
import Mathlib.Order.Interval.Finset.Nat
import Mathlib.Tactic.Ring

set_option autoImplicit false

namespace AlignedBlock

def Inside (order start p : Nat) : Prop :=
  start ≤ p ∧ p < start + 2 ^ order

instance (order start p : Nat) : Decidable (Inside order start p) :=
  inferInstanceAs (Decidable (_ ∧ _))

theorem inside_start (order start : Nat) : Inside order start start :=
  ⟨Nat.le_refl _, Nat.lt_add_of_pos_right (Nat.two_pow_pos order)⟩

variable {order start : Nat}

theorem inside_halves {p : Nat} :
    Inside (order + 1) start p ↔ Inside order start p ∨ Inside order (start + 2 ^ order) p := by
  have size : 2 ^ (order + 1) = 2 ^ order + 2 ^ order := by ring
  unfold Inside
  omega

theorem halves_apart {p : Nat} (left : Inside order start p)
    (right : Inside order (start + 2 ^ order) p) : False := by
  unfold Inside at left right
  omega

theorem aligned_weaken {larger : Nat} (le : order ≤ larger) (aligned : 2 ^ larger ∣ start) :
    2 ^ order ∣ start :=
  (Nat.pow_dvd_pow 2 le).trans aligned

theorem aligned_right_half (aligned : 2 ^ (order + 1) ∣ start) :
    2 ^ order ∣ start + 2 ^ order :=
  Nat.dvd_add (aligned_weaken (Nat.le_succ order) aligned) (Nat.dvd_refl _)

theorem nested {larger start' p : Nat} (le : order ≤ larger)
    (aligned : 2 ^ order ∣ start) (aligned' : 2 ^ larger ∣ start')
    (small : Inside order start p) (large : Inside larger start' p) :
    start' ≤ start ∧ start + 2 ^ order ≤ start' + 2 ^ larger := by
  obtain ⟨a, rfl⟩ := aligned
  obtain ⟨b, rfl⟩ := aligned_weaken le aligned'
  obtain ⟨n, size⟩ := Nat.pow_dvd_pow 2 le
  obtain ⟨smallLow, smallHigh⟩ := small
  obtain ⟨largeLow, largeHigh⟩ := large
  rw [size] at largeHigh ⊢
  have pos := Nat.two_pow_pos order
  have low : b ≤ a := by
    by_contra less
    have : 2 ^ order * (a + 1) ≤ 2 ^ order * b := Nat.mul_le_mul_left _ (by omega)
    rw [Nat.mul_add] at this
    omega
  have high : a + 1 ≤ b + n := by
    by_contra less
    have : 2 ^ order * (b + n) ≤ 2 ^ order * a := Nat.mul_le_mul_left _ (by omega)
    rw [Nat.mul_add] at this
    omega
  refine ⟨Nat.mul_le_mul_left _ low, ?_⟩
  have := Nat.mul_le_mul_left (2 ^ order) high
  rw [Nat.mul_add, Nat.mul_add] at this
  omega

theorem nested_same_order {start' p : Nat}
    (aligned : 2 ^ order ∣ start) (aligned' : 2 ^ order ∣ start')
    (left : Inside order start p) (right : Inside order start' p) : start = start' := by
  have forth := nested (Nat.le_refl order) aligned aligned' left right
  have back := nested (Nat.le_refl order) aligned' aligned right left
  omega

theorem xor_of_left (aligned : 2 ^ (order + 1) ∣ start) :
    start ^^^ 2 ^ order = start + 2 ^ order := by
  obtain ⟨q, rfl⟩ := aligned
  have shape : 2 ^ (order + 1) * q = (2 * q) <<< order := by
    rw [Nat.shiftLeft_eq]
    ring
  have one : 2 ^ order = 1 <<< order := by rw [Nat.shiftLeft_eq]; ring
  rw [shape, one, ← Nat.shiftLeft_xor_distrib, Nat.xor_one_of_even (even_two_mul q),
    Nat.shiftLeft_eq, Nat.shiftLeft_eq, Nat.shiftLeft_eq]
  ring

theorem xor_of_right (aligned : 2 ^ (order + 1) ∣ start) :
    (start + 2 ^ order) ^^^ 2 ^ order = start := by
  rw [← xor_of_left aligned, Nat.xor_assoc, Nat.xor_self, Nat.xor_zero]

theorem left_or_right (aligned : 2 ^ order ∣ start) :
    2 ^ (order + 1) ∣ start ∨ ∃ left, start = left + 2 ^ order ∧ 2 ^ (order + 1) ∣ left := by
  obtain ⟨m, rfl⟩ := aligned
  obtain ⟨q, even | odd⟩ := Nat.even_or_odd' m
  · exact Or.inl ⟨q, by rw [even]; ring⟩
  · exact Or.inr ⟨2 ^ (order + 1) * q, by rw [odd]; ring, Nat.dvd_mul_right _ _⟩

structure Canonical (cap : Nat) (tile : Nat → Nat → Prop) : Prop where
  order_le : ∀ {order start}, tile order start → order ≤ cap
  aligned : ∀ {order start}, tile order start → 2 ^ order ∣ start
  apart : ∀ {order start order' start' p}, tile order start → tile order' start' →
    Inside order start p → Inside order' start' p → order = order' ∧ start = start'
  merged : ∀ {order start}, order < cap → 2 ^ (order + 1) ∣ start →
    tile order start → ¬ tile order (start + 2 ^ order)

def Covered (tile : Nat → Nat → Prop) (p : Nat) : Prop :=
  ∃ order start, tile order start ∧ Inside order start p

variable {tile : Nat → Nat → Prop}

-- Otherwise its two halves would be tiles, or lie in smaller covered blocks, down to a pair that
-- should have been merged.
theorem Canonical.contained {cap : Nat} (canonical : Canonical cap tile) (bound : order ≤ cap)
    (aligned : 2 ^ order ∣ start)
    (covered : ∀ p, Inside order start p → Covered tile p) :
    ∃ order' start', tile order' start' ∧ order ≤ order' ∧ Inside order' start' start := by
  induction order generalizing start with
  | zero =>
    obtain ⟨order', start', isTile, inside⟩ := covered start (inside_start 0 start)
    exact ⟨order', start', isTile, Nat.zero_le _, inside⟩
  | succ order ih =>
    have alignedLeft := aligned_weaken (Nat.le_succ order) aligned
    have alignedRight := aligned_right_half aligned
    obtain ⟨k, s, isTile, le, inside⟩ := ih (by omega) alignedLeft
      fun p inside => covered p (inside_halves.mpr (Or.inl inside))
    obtain ⟨k', s', isTile', le', inside'⟩ := ih (by omega) alignedRight
      fun p inside => covered p (inside_halves.mpr (Or.inr inside))
    by_cases large : order + 1 ≤ k
    · exact ⟨k, s, isTile, large, inside⟩
    by_cases large' : order + 1 ≤ k'
    · refine ⟨k', s', isTile', large', ?_⟩
      -- The right half overlaps this tile, so the whole block is nested in it.
      have overlap : Inside (order + 1) start (start + 2 ^ order) :=
        inside_halves.mpr (Or.inr (inside_start _ _))
      have nest := nested large' aligned (canonical.aligned isTile') overlap inside'
      have size := Nat.two_pow_pos (order + 1)
      exact ⟨nest.1, by omega⟩
    obtain rfl : k = order := by omega
    obtain rfl : k' = k := by omega
    have same := nested_same_order (canonical.aligned isTile) alignedLeft inside (inside_start _ _)
    have same' := nested_same_order (canonical.aligned isTile') alignedRight inside' (inside_start _ _)
    subst same same'
    exact absurd isTile' (canonical.merged (by omega) aligned isTile)

theorem Canonical.unique {cap : Nat} {tile' : Nat → Nat → Prop}
    (canonical : Canonical cap tile) (canonical' : Canonical cap tile')
    (same : ∀ p, Covered tile p ↔ Covered tile' p) (isTile : tile order start) :
    tile' order start := by
  obtain ⟨k, s, isTile', le, inside⟩ := canonical'.contained (canonical.order_le isTile)
    (canonical.aligned isTile) fun p inside => (same p).mp ⟨order, start, isTile, inside⟩
  obtain ⟨k', s', isTile'', le', inside'⟩ := canonical.contained (canonical'.order_le isTile')
    (canonical'.aligned isTile') fun p inside => (same p).mpr ⟨k, s, isTile', inside⟩
  have nest := nested le' (canonical'.aligned isTile') (canonical.aligned isTile'') (inside_start _ _) inside'
  have reach : Inside k' s' start := ⟨nest.1.trans inside.1, inside.2.trans_le nest.2⟩
  obtain ⟨rfl, rfl⟩ := canonical.apart isTile isTile'' (inside_start _ _) reach
  obtain rfl : order = k := by omega
  obtain rfl := nested_same_order (canonical.aligned isTile) (canonical'.aligned isTile')
    (inside_start _ _) inside
  exact isTile'

theorem Canonical.not_buddy {cap : Nat} (canonical : Canonical cap tile)
    (less : order < cap) (isTile : tile order start) : ¬ tile order (start ^^^ 2 ^ order) := by
  rcases left_or_right (canonical.aligned isTile) with left | ⟨left, rfl, aligned⟩
  · rw [xor_of_left left]
    exact canonical.merged less left isTile
  · rw [xor_of_right aligned]
    exact fun buddy => canonical.merged less aligned buddy isTile

theorem Canonical.cons {cap order start stop : Nat} {blocks : List (Nat × Nat)}
    (canonical : Canonical cap fun k s => (k, s) ∈ blocks)
    (later : ∀ b ∈ blocks, start + 2 ^ order ≤ b.2 ∧ b.2 + 2 ^ b.1 ≤ stop) (small : order ≤ cap)
    (aligned : 2 ^ order ∣ start)
    (maximal : order < cap → 2 ^ (order + 1) ∣ start → stop < start + 2 ^ (order + 1)) :
    Canonical cap fun k s => (k, s) ∈ (order, start) :: blocks := by
  have pos := Nat.two_pow_pos order
  constructor
  · intro k s member
    rcases List.mem_cons.mp member with first | rest
    · cases first
      exact small
    · exact canonical.order_le rest
  · intro k s member
    rcases List.mem_cons.mp member with first | rest
    · cases first
      exact aligned
    · exact canonical.aligned rest
  · intro k s k' s' p member member' inside inside'
    unfold Inside at inside inside'
    rcases List.mem_cons.mp member with first | rest <;> rcases List.mem_cons.mp member' with first' | rest'
    · cases first
      cases first'
      exact ⟨rfl, rfl⟩
    · cases first
      have after := (later _ rest').1
      omega
    · cases first'
      have after := (later _ rest).1
      omega
    · exact canonical.apart rest rest' inside inside'
  · intro k s less even member member'
    rcases List.mem_cons.mp member with first | rest <;> rcases List.mem_cons.mp member' with first' | rest'
    · cases first
      simp only [Prod.mk.injEq] at first'
      omega
    · -- the right buddy would have been part of a larger first block
      cases first
      have within := (later _ rest').2
      have short := maximal less even
      rw [Nat.pow_succ] at short
      dsimp only at within
      omega
    · simp only [Prod.mk.injEq] at first'
      have after := (later _ rest).1
      dsimp only at after
      omega
    · exact canonical.merged less even rest rest'

theorem sum_sizes {blocks : List (Nat × Nat)}
    (apart : blocks.Pairwise fun b b' => ∀ p, Inside b.1 b.2 p → ¬ Inside b'.1 b'.2 p) (positions : Finset Nat)
    (cover : ∀ p, p ∈ positions ↔ ∃ b ∈ blocks, Inside b.1 b.2 p) :
    (blocks.map fun b => 2 ^ b.1).sum = positions.card := by
  induction blocks generalizing positions with
  | nil =>
    have empty : positions = ∅ := Finset.eq_empty_of_forall_notMem fun p member => by
      simpa using (cover p).mp member
    simp [empty]
  | cons b rest ih =>
    obtain ⟨first, later⟩ := List.pairwise_cons.mp apart
    have block : ∀ p, p ∈ Finset.Ico b.2 (b.2 + 2 ^ b.1) ↔ Inside b.1 b.2 p := by
      intro p
      rw [Finset.mem_Ico, Inside]
    have subset : Finset.Ico b.2 (b.2 + 2 ^ b.1) ⊆ positions := by
      intro p member
      exact (cover p).mpr ⟨b, List.mem_cons_self, (block p).mp member⟩
    have tail := ih later (positions \ Finset.Ico b.2 (b.2 + 2 ^ b.1)) fun p => by
      rw [Finset.mem_sdiff, block, cover]
      constructor
      · rintro ⟨⟨b', member, inside⟩, outside⟩
        rcases List.mem_cons.mp member with rfl | inRest
        · exact absurd inside outside
        · exact ⟨b', inRest, inside⟩
      · rintro ⟨b', member, inside⟩
        exact ⟨⟨b', List.mem_cons_of_mem _ member, inside⟩, fun both => first b' member p both inside⟩
    have size : (Finset.Ico b.2 (b.2 + 2 ^ b.1)).card = 2 ^ b.1 := by simp
    have total := Finset.card_sdiff_add_card_eq_card subset
    rw [List.map_cons, List.sum_cons, tail]
    omega
end AlignedBlock
