import OrangeKernel.Memory.Init

set_option autoImplicit false

namespace OrangeKernel.Memory

open Machine

theorem alignDown_page {v : Nat} (bound : v < 2 ^ 64) : alignDown v pageSize = v / pageSize * pageSize :=
  alignDown_two_pow (k := 12) bound (by decide)

theorem alignUp_page {v : Nat} (bound : v + (pageSize - 1) < 2 ^ 64) :
    alignUp v pageSize = (v + (pageSize - 1)) / pageSize * pageSize :=
  alignUp_two_pow (k := 12) (by decide) bound

theorem reserveEnd_ge {start size : Nat} (bound : start + size ≤ maxU64) :
    start + size ≤ reserveEnd start size := by
  have fits : wrap64 (start + size) = start + size := wrap64_of_lt (by unfold maxU64 at bound; omega)
  have forward : ¬ start + size < start := by omega
  simp only [reserveEnd, fits, forward, if_false]
  split
  · exact bound
  next low => exact (alignUp_isLeast (k := 12) (by decide) (Nat.not_lt.mp low)).1.1

theorem memoryReserve_covers {reserves : List ReserveRange} {start size : Nat} (pos : 0 < size)
    (bound : start + size ≤ maxU64) (room : reserves.length < maxReserves) :
    ∃ r, memoryReserve start size reserves = reserves ++ [r] ∧ r.start ≤ start ∧ start + size ≤ r.stop := by
  have lower : alignDown start pageSize ≤ start := Nat.and_le_left
  have upper := reserveEnd_ge bound
  unfold memoryReserve
  rw [if_neg (Nat.ne_of_gt pos), if_neg (by omega), if_neg (Nat.not_le.mpr room)]
  exact ⟨_, rfl, lower, upper⟩

def Clear (reserves : List ReserveRange) (size p : Nat) : Prop :=
  ∀ r ∈ reserves, r.stop ≤ p ∨ p + size ≤ r.start

def places (reserves : List ReserveRange) (size align low top : Nat) : Set Nat :=
  {p | low ≤ p ∧ align ∣ p ∧ p + size ≤ top ∧ Clear reserves size p}

def First (s : Set Nat) : Option Nat → Prop
  | none => ∀ x, x ∉ s
  | some q => IsLeast s q

def pending (reserves : List ReserveRange) (p : Nat) : Nat :=
  reserves.countP fun r => p < r.stop

theorem pending_lt {reserves : List ReserveRange} {r : ReserveRange} (member : r ∈ reserves) {p p' : Nat}
    (ahead : p < r.stop) (passed : r.stop ≤ p') : pending reserves p' < pending reserves p := by
  have le : ∀ rest : List ReserveRange, pending rest p' ≤ pending rest p := by
    intro rest
    apply List.countP_mono_left
    intro s _ counted
    simp only [decide_eq_true_eq] at counted ⊢
    omega
  obtain ⟨before, after, rfl⟩ := List.append_of_mem member
  have left := le before
  have right := le after
  unfold pending at left right ⊢
  simp only [List.countP_append, List.countP_cons, decide_eq_true_eq, if_pos ahead,
    if_neg (Nat.not_lt.mpr passed)]
  omega

section

variable {reserves : List ReserveRange} {size k p : Nat}

theorem places_skip {r : ReserveRange} (member : r ∈ reserves) (overlap : p < r.stop ∧ r.start < p + size)
    (top : Nat) : places reserves size (2 ^ k) r.stop top = places reserves size (2 ^ k) p top := by
  ext x
  constructor
  · rintro ⟨later, rest⟩
    exact ⟨by omega, rest⟩
  · rintro ⟨later, aligned, inside, clear⟩
    have after : r.stop ≤ x := by
      have apart := clear r member
      omega
    exact ⟨after, aligned, inside, clear⟩

theorem places_mono {low top top' : Nat} (le : top ≤ top') :
    places reserves size (2 ^ k) low top ⊆ places reserves size (2 ^ k) low top' :=
  fun _ place => ⟨place.1, place.2.1, Nat.le_trans place.2.2.1 le, place.2.2.2⟩

variable (small : k ≤ 64)
include small

theorem places_alignUp {low : Nat} (room : low ≤ maxU64 - (2 ^ k - 1)) (top : Nat) :
    places reserves size (2 ^ k) (alignUp low (2 ^ k)) top = places reserves size (2 ^ k) low top := by
  have next := alignUp_isLeast small room
  ext x
  constructor
  · rintro ⟨later, rest⟩
    exact ⟨Nat.le_trans next.1.1 later, rest⟩
  · rintro ⟨later, rest⟩
    exact ⟨next.2 ⟨later, rest.1⟩, rest⟩

theorem places_high {low x : Nat} (high : maxU64 - (2 ^ k - 1) < low) :
    x ∉ places reserves size (2 ^ k) low maxU64 := by
  rintro ⟨later, aligned, inside, -⟩
  have beyond := two_pow_64_le_of_dvd small high later aligned
  unfold maxU64 at inside
  omega

-- Every move leaves a reservation behind.
theorem skipReserved_spec (bytes : size < 2 ^ 64) (fuel : Nat) (bound : p < 2 ^ 64) (aligned : 2 ^ k ∣ p)
    (enough : pending reserves p < fuel) :
    ∃ answer, skipReserved size (2 ^ k) reserves fuel p = some answer ∧
      First (places reserves size (2 ^ k) p maxU64) answer := by
  induction fuel generalizing p with
  | zero => exact absurd enough (Nat.not_lt_zero _)
  | succ fuel ih =>
    unfold skipReserved
    dsimp only
    split
    next wraps =>
      refine ⟨none, rfl, fun x place => ?_⟩
      have inside := place.2.2.1
      have later := place.1
      unfold maxU64 at inside
      unfold wrap64 at wraps
      omega
    next fits =>
    have stop : wrap64 (p + size) = p + size := by
      unfold wrap64 at *
      omega
    rw [stop]
    split
    next found =>
      refine ⟨some p, rfl, ⟨Nat.le_refl p, aligned, ?_, fun r member => ?_⟩, fun x place => place.1⟩
      · have := wrap64_lt (p + size)
        unfold maxU64
        omega
      · have apart := List.find?_eq_none.mp found r member
        simp only [rangesOverlap, Bool.and_eq_true, decide_eq_true_eq] at apart
        omega
    next r found =>
      have member := List.mem_of_find?_eq_some found
      have overlap := List.find?_some found
      simp only [rangesOverlap, Bool.and_eq_true, decide_eq_true_eq] at overlap
      split
      next high =>
        rw [← places_skip member overlap]
        exact ⟨none, rfl, fun x => places_high small high⟩
      next room =>
        have next := alignUp_isLeast small (Nat.not_lt.mp room)
        have fewer := pending_lt member overlap.1 next.1.1
        obtain ⟨answer, ends, first⟩ := ih (alignUp_lt _ _) next.1.2 (by omega)
        rw [places_alignUp small (Nat.not_lt.mp room), places_skip member overlap] at first
        exact ⟨answer, ends, first⟩

theorem startupAlloc_first {range : StartupRange} (positive : 0 < size) (bytes : size < 2 ^ 64)
    (below : range.stop ≤ maxU64) (ready : range.ready = false → range.stop ≤ range.cur) :
    First (places reserves size (2 ^ k) range.cur range.stop)
      ((startupAlloc size (2 ^ k) range reserves).map Prod.fst) := by
  have power : 2 ^ k &&& (2 ^ k - 1) = 0 := by rw [Nat.and_two_pow_sub_one_eq_mod, Nat.mod_self]
  have step : (if 2 ^ k = 0 then 16 else 2 ^ k) = 2 ^ k := if_neg (Nat.two_pow_pos k).ne'
  unfold startupAlloc
  split
  next off =>
    rintro x ⟨later, -, inside, -⟩
    have := ready (off.resolve_right (Nat.ne_of_gt positive))
    omega
  simp only [step, power, ne_eq, not_true_eq_false, if_false]
  split
  next high => exact fun x place => places_high small high (places_mono below place)
  next room =>
    have next := alignUp_isLeast small (Nat.not_lt.mp room)
    have ahead : pending reserves (alignUp range.cur (2 ^ k)) < reserves.length + 1 :=
      Nat.lt_succ_of_le List.countP_le_length
    obtain ⟨answer, ends, first⟩ :=
      skipReserved_spec small bytes (reserves.length + 1) (alignUp_lt _ _) next.1.2 ahead
    rw [places_alignUp small (Nat.not_lt.mp room)] at first
    rw [ends]
    cases answer with
    | none => exact fun x place => first x (places_mono below place)
    | some q =>
      obtain ⟨⟨later, aligned, inside, clear⟩, least⟩ := first
      have stop : wrap64 (q + size) = q + size := wrap64_of_lt (by unfold maxU64 at inside; omega)
      simp only [Option.join_some, stop]
      split
      next outside =>
        intro x place
        have := least (places_mono below place)
        have := place.2.2.1
        omega
      next fits => exact ⟨⟨later, aligned, by omega, clear⟩, fun x place => least (places_mono below place)⟩

end

theorem startupAlloc_spec {size align p : Nat} {range range' : StartupRange} {reserves reserves' : List ReserveRange}
    (found : startupAlloc size align range reserves = some (p, range', reserves')) :
    0 < size ∧ wrap64 (p + size) ≤ range.stop ∧ p ≤ wrap64 (p + size) ∧
      range' = { range with cur := wrap64 (p + size) } ∧ reserves' = memoryReserve p size reserves := by
  unfold startupAlloc at found
  split at found
  · simp at found
  next started =>
  dsimp only at found
  generalize (if align = 0 then 16 else align) = step at found
  split at found
  · simp at found
  split at found
  · simp at found
  split at found
  · simp at found
  next q _ =>
  split at found
  · simp at found
  next fits =>
  obtain ⟨rfl, rfl, rfl⟩ := by simpa using found
  exact ⟨by omega, by omega, by omega, rfl, rfl⟩

theorem startupAllocatorInit_spec (base size : UInt64) :
    pageSize ≤ (startupAllocatorInit base.toNat size.toNat).cur ∧
      (startupAllocatorInit base.toNat size.toNat).stop ≤ maxU64 ∧
      ((startupAllocatorInit base.toNat size.toNat).ready = false →
        (startupAllocatorInit base.toNat size.toNat).stop ≤ (startupAllocatorInit base.toNat size.toNat).cur) := by
  have bound := wrap64_lt (base.toNat + size.toNat)
  simp only [startupAllocatorInit, decide_eq_false_iff_not, Nat.not_lt]
  refine ⟨?_, ?_, id⟩
  · split <;> omega
  · unfold maxU64
    split <;> omega

theorem clear_iff {reserves : List ReserveRange} {size p : Nat} (positive : 0 < size)
    (nonempty : ∀ r ∈ reserves, r.start < r.stop) :
    Clear reserves size p ↔
      ∀ r ∈ reserves, ∀ x, p ≤ x → x < p + size → ¬ (r.start ≤ x ∧ x < r.stop) := by
  refine forall₂_congr fun r member => ?_
  have some := nonempty r member
  constructor
  · intro apart x low high
    omega
  · intro apart
    -- the first byte, or the first byte of the reservation, would be in both
    have first := apart p (Nat.le_refl p) (by omega)
    have other := apart r.start
    omega

theorem startupAlloc_firstFit (base bytes cur size : UInt64) (k : Nat) (reserves : List ReserveRange) (small : k < 64)
    (positive : 0 < size.toNat) (few : reserves.length ≤ 63)
    (reserved : ∀ r ∈ reserves, r.start < r.stop ∧ r.stop < 2 ^ 64)
    (inside : (startupAllocatorInit base.toNat bytes.toNat).cur ≤ cur.toNat) :
    let range := { startupAllocatorInit base.toNat bytes.toNat with cur := cur.toNat }
    let fitting := {p | cur.toNat ≤ p ∧ 2 ^ k ∣ p ∧ p + size.toNat ≤ range.stop ∧
      ∀ r ∈ reserves, ∀ x, p ≤ x → x < p + size.toNat → ¬ (r.start ≤ x ∧ x < r.stop)}
    (cur.toNat ≤ maxU64 - (2 ^ k - 1) → ∃ answer, skipReserved size.toNat (2 ^ k) reserves (reserves.length + 1)
      (alignUp cur.toNat (2 ^ k)) = some answer) ∧
    (∀ p range' reserves', startupAlloc size.toNat (2 ^ k) range reserves = some (p, range', reserves') →
      IsLeast fitting p ∧ p ≠ 0 ∧ range' = { range with cur := p + size.toNat } ∧
        ∃ r, reserves' = reserves ++ [r] ∧ r.start ≤ p ∧ p + size.toNat ≤ r.stop) ∧
    (startupAlloc size.toNat (2 ^ k) range reserves = none ↔ ¬ ∃ p, p ∈ fitting) := by
  intro range fitting
  obtain ⟨low, below, ready⟩ := startupAllocatorInit_spec base bytes
  have same : fitting = places reserves size.toNat (2 ^ k) range.cur range.stop := by
    ext p
    have clear := @clear_iff reserves size.toNat p positive fun r member => (reserved r member).1
    exact and_congr_right' (and_congr_right' (and_congr_right' clear.symm))
  have first : First fitting ((startupAlloc size.toNat (2 ^ k) range reserves).map Prod.fst) := by
    rw [same]
    exact startupAlloc_first small.le positive size.toNat_lt below fun off => (ready off).trans inside
  refine ⟨fun room => ?_, fun p range' reserves' found => ?_, ?_⟩
  · have next := alignUp_isLeast small.le room
    obtain ⟨answer, ends, -⟩ := skipReserved_spec small.le size.toNat_lt (reserves.length + 1)
      (alignUp_lt cur.toNat (2 ^ k)) next.1.2 (Nat.lt_succ_of_le List.countP_le_length)
    exact ⟨answer, ends⟩
  · obtain ⟨-, -, -, moved, table⟩ := startupAlloc_spec found
    rw [found] at first
    have least : IsLeast fitting p := first
    obtain ⟨later, -, ends, -⟩ := least.1
    have bound : p + size.toNat ≤ maxU64 := Nat.le_trans ends below
    have stop : wrap64 (p + size.toNat) = p + size.toNat := wrap64_of_lt (by unfold maxU64 at bound; omega)
    rw [stop] at moved
    obtain ⟨r, added, covers⟩ := memoryReserve_covers positive bound (Nat.lt_succ_of_le few)
    unfold pageSize at low
    exact ⟨least, by omega, moved, r, by rw [table, added], covers⟩
  · cases answer : startupAlloc size.toNat (2 ^ k) range reserves with
    | none =>
      rw [answer] at first
      refine iff_of_true rfl ?_
      rintro ⟨p, fits⟩
      exact first p fits
    | some placed =>
      rw [answer] at first
      exact iff_of_false (by simp) fun none => none ⟨placed.1, first.1⟩

theorem startupAlloc_firstFit_skips :
    startupAlloc 32 16 { startupAllocatorInit 4096 8192 with cur := 4100 }
      [⟨5000, 6001⟩, ⟨4096, 5000⟩, ⟨6010, 6020⟩] ≠ none := by
  have all :=
    startupAlloc_firstFit 4096 8192 4100 32 4 [⟨5000, 6001⟩, ⟨4096, 5000⟩, ⟨6010, 6020⟩] (by decide)
    (by decide) (by decide) (by decide) (by decide)
  intro null
  refine all.2.2.mp null ⟨6032, by decide, by decide, by decide, ?_⟩
  intro r member x low high
  simp only [List.mem_cons, List.not_mem_nil, or_false] at member
  rcases member with rfl | rfl | rfl <;> (dsimp only; simp only [UInt64.reduceToNat] at high; omega)

end OrangeKernel.Memory
