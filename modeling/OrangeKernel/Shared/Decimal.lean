import Mathlib.Algebra.Order.Floor.Semifield
import Mathlib.Data.Rat.Floor

set_option autoImplicit false

namespace DecimalText

def IsDigit (c : UInt8) : Prop := 48 ≤ c ∧ c ≤ 57

instance (c : UInt8) : Decidable (IsDigit c) := inferInstanceAs (Decidable (_ ∧ _))

def digit (c : UInt8) : Nat := c.toNat - 48

variable {c : UInt8}

theorem IsDigit.lt (isDigit : IsDigit c) : digit c < 10 := by
  have high : c.toNat ≤ 57 := UInt8.le_iff_toNat_le.mp isDigit.2
  unfold digit
  omega

def point : UInt8 := 46

theorem IsDigit.not_point (isDigit : IsDigit c) : c ≠ point := by
  rintro rfl
  exact absurd isDigit.1 (by decide)

theorem IsDigit.in_range (isDigit : IsDigit c) : ¬ (c < 48 ∨ 57 < c) := by
  rintro (low | high)
  · exact UInt8.not_le.mpr low isDigit.1
  · exact UInt8.not_le.mpr high isDigit.2

theorem not_digit (other : ¬ IsDigit c) : c < 48 ∨ 57 < c := by
  by_contra within
  rw [not_or, UInt8.not_lt, UInt8.not_lt] at within
  exact other within

def extend (n : Nat) (ds : List UInt8) : Nat := ds.foldl (fun m c => m * 10 + digit c) n

theorem extend_nil (n : Nat) : extend n [] = n := List.foldl_nil

theorem extend_cons (n : Nat) (c : UInt8) (rest : List UInt8) :
    extend n (c :: rest) = extend (n * 10 + digit c) rest := List.foldl_cons

theorem le_extend (n : Nat) (ds : List UInt8) : n ≤ extend n ds := by
  induction ds generalizing n with
  | nil => exact Nat.le_refl n
  | cons c rest ih =>
    have more := ih (n * 10 + digit c)
    rw [extend_cons]
    omega

theorem IsDigit.next_lt (isDigit : IsDigit c) {n j : Nat} (below : n < 10 ^ j) :
    n * 10 + digit c < 10 ^ (j + 1) := by
  have least := isDigit.lt
  rw [Nat.pow_succ]
  omega

theorem extend_lt {ds : List UInt8} (digits : ∀ c ∈ ds, IsDigit c) {n j : Nat} (below : n < 10 ^ j) :
    extend n ds < 10 ^ (j + ds.length) := by
  induction ds generalizing n j with
  | nil => exact below
  | cons c rest ih =>
    obtain ⟨first, others⟩ := List.forall_mem_cons.mp digits
    rw [extend_cons, List.length_cons, ← Nat.add_assoc, Nat.add_right_comm]
    exact ih others (first.next_lt below)

def spelled (whole : List UInt8) : (fraction : Option (List UInt8)) → List UInt8
  | none => whole
  | some frac => whole ++ point :: frac

structure Decimal (places : Nat) where
  whole : List UInt8
  fraction : Option (List UInt8)
  digits : ∀ c ∈ whole ++ fraction.getD [], IsDigit c
  nonempty : whole ++ fraction.getD [] ≠ []
  short : (fraction.getD []).length ≤ places

variable {places : Nat}

def Decimal.text (d : Decimal places) : List UInt8 := spelled d.whole d.fraction

theorem Decimal.text_ne (d : Decimal places) : d.text ≠ [] := by
  have some := d.nonempty
  unfold text spelled
  split
  next same => simpa [same] using some
  · simp

theorem Decimal.fraction_lt (d : Decimal places) :
    extend 0 (d.fraction.getD []) < 10 ^ (d.fraction.getD []).length := by
  have small := extend_lt (List.forall_mem_append.mp d.digits).2 (Nat.pow_pos (by decide) : 0 < 10 ^ 0)
  rwa [Nat.zero_add] at small

-- Missing parts read as 0.
def Decimal.value (d : Decimal places) : ℚ :=
  extend 0 d.whole + extend 0 (d.fraction.getD []) / 10 ^ (d.fraction.getD []).length

theorem Decimal.floor_mul (d : Decimal places) (f : Nat) :
    ⌊d.value * f⌋₊ =
      extend 0 d.whole * f + extend 0 (d.fraction.getD []) * f / 10 ^ (d.fraction.getD []).length := by
  have split : d.value * f = ((extend 0 (d.fraction.getD []) * f : ℕ) : ℚ) /
    (10 ^ (d.fraction.getD []).length : ℕ) +
      (extend 0 d.whole * f : ℕ) := by
    unfold value
    push_cast
    ring
  rw [split, Nat.floor_add_natCast (by positivity), Nat.floor_div_eq_div, Nat.add_comm]

theorem Decimal.floor_value (d : Decimal places) : ⌊d.value⌋₊ = extend 0 d.whole := by
  have floor := d.floor_mul 1
  rwa [Nat.cast_one, mul_one, Nat.mul_one, Nat.mul_one, Nat.div_eq_of_lt d.fraction_lt, Nat.add_zero] at floor

theorem Decimal.whole_le_floor_mul (d : Decimal places) {f : Nat} (positive : 0 < f) :
    extend 0 d.whole ≤ ⌊d.value * f⌋₊ := by
  rw [d.floor_mul]
  exact (Nat.le_mul_of_pos_right _ positive).trans (Nat.le_add_right _ _)

end DecimalText
