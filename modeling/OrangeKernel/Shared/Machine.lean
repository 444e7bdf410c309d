import Mathlib.Data.Nat.Bitwise
import Mathlib.Order.Bounds.Defs
import Mathlib.Tactic.Ring

set_option autoImplicit false

namespace Machine

def maxU64 : Nat := 2 ^ 64 - 1

def wrap32 (n : Nat) : Nat := n % 2 ^ 32

def wrap64 (n : Nat) : Nat := n % 2 ^ 64

def int16 (x : Int) : Int := x.bmod (2 ^ 16)

def int32 (x : Int) : Int := x.bmod (2 ^ 32)

theorem wrap64_of_lt {n : Nat} (bound : n < 2 ^ 64) : wrap64 n = n :=
  Nat.mod_eq_of_lt bound

theorem wrap32_of_lt {n : Nat} (bound : n < 2 ^ 32) : wrap32 n = n :=
  Nat.mod_eq_of_lt bound

theorem wrap64_lt (n : Nat) : wrap64 n < 2 ^ 64 :=
  Nat.mod_lt _ (by decide)

theorem int16_of_small {x : Int} (low : -2 ^ 15 ≤ x) (high : x < 2 ^ 15) : int16 x = x := by
  unfold int16
  apply Int.bmod_eq_of_le <;> omega

theorem int32_of_small {x : Int} (low : -2 ^ 31 ≤ x) (high : x < 2 ^ 31) : int32 x = x := by
  unfold int32
  apply Int.bmod_eq_of_le <;> omega

-- `v & ~(a - 1)` on 64-bit words.
def alignDown (v a : Nat) : Nat := v &&& (maxU64 - (a - 1))

def alignUp (v a : Nat) : Nat := alignDown (wrap64 (v + (a - 1))) a

theorem alignDown_two_pow {v k : Nat} (bound : v < 2 ^ 64) (small : k ≤ 64) :
    alignDown v (2 ^ k) = v / 2 ^ k * 2 ^ k := by
  have mask : maxU64 - (2 ^ k - 1) = (2 ^ (64 - k) - 1) <<< k := by
    rw [Nat.shiftLeft_eq, Nat.sub_mul, ← Nat.pow_add, Nat.sub_add_cancel small]
    have := Nat.two_pow_pos k
    unfold maxU64
    omega
  apply Nat.eq_of_testBit_eq
  intro i
  rw [alignDown, mask, Nat.testBit_and, Nat.testBit_shiftLeft, Nat.testBit_two_pow_sub_one,
    Nat.testBit_mul_two_pow, Nat.testBit_div_two_pow]
  by_cases low : k ≤ i
  · by_cases high : i < 64
    · have inside : i - k < 64 - k := by omega
      simp [low, inside]
    · have zero : v.testBit i = false :=
        Nat.testBit_lt_two_pow (bound.trans_le (Nat.pow_le_pow_right (by decide) (by omega)))
      simp [low, zero]
  · simp [low]

theorem alignUp_two_pow {v k : Nat} (small : k ≤ 64) (bound : v + (2 ^ k - 1) < 2 ^ 64) :
    alignUp v (2 ^ k) = (v + (2 ^ k - 1)) / 2 ^ k * 2 ^ k := by
  rw [alignUp, wrap64_of_lt bound, alignDown_two_pow bound small]

theorem alignUp_lt (v a : Nat) : alignUp v a < 2 ^ 64 :=
  Nat.and_le_left.trans_lt (wrap64_lt _)

theorem alignUp_isLeast {v k : Nat} (small : k ≤ 64) (bound : v ≤ maxU64 - (2 ^ k - 1)) :
    IsLeast {x | v ≤ x ∧ 2 ^ k ∣ x} (alignUp v (2 ^ k)) := by
  have positive := Nat.two_pow_pos k
  have fits : 2 ^ k ≤ 2 ^ 64 := Nat.pow_le_pow_right (by decide) small
  rw [alignUp_two_pow small (by unfold maxU64 at bound; omega)]
  refine ⟨⟨?_, Nat.dvd_mul_left _ _⟩, ?_⟩
  · have remainder := Nat.mod_lt (v + (2 ^ k - 1)) positive
    have whole := Nat.div_add_mod' (v + (2 ^ k - 1)) (2 ^ k)
    omega
  · rintro x ⟨later, q, rfl⟩
    rw [Nat.mul_comm]
    refine Nat.mul_le_mul_left _ ?_
    rw [← Nat.lt_succ_iff, Nat.div_lt_iff_lt_mul positive, Nat.succ_mul, Nat.mul_comm]
    omega

theorem two_pow_64_le_of_dvd {v x k : Nat} (small : k ≤ 64) (high : maxU64 - (2 ^ k - 1) < v) (later : v ≤ x)
    (aligned : 2 ^ k ∣ x) : 2 ^ 64 ≤ x := by
  obtain ⟨q, rfl⟩ := aligned
  have positive := Nat.two_pow_pos k
  have split : 2 ^ 64 = 2 ^ k * 2 ^ (64 - k) := by rw [← Nat.pow_add, Nat.add_sub_cancel' small]
  have more : 2 ^ k * (2 ^ (64 - k) - 1) < 2 ^ k * q := by
    rw [Nat.mul_sub, ← split]
    unfold maxU64 at high
    omega
  rw [split]
  refine Nat.mul_le_mul_left _ ?_
  have := Nat.lt_of_mul_lt_mul_left more
  omega

def padding (n : Nat) : Nat := (4 - n % 4) % 4

-- `(n + 3) & ~3` on words below `bound`.
def roundUp4 (bound n : Nat) : Nat := (n + 3) % bound / 4 * 4

theorem roundUp4_eq {bound n : Nat} (small : n + 3 < bound) : roundUp4 bound n = n + padding n := by
  rw [roundUp4, Nat.mod_eq_of_lt small, padding]
  omega

theorem roundUp4_bounds {bound n : Nat} (small : n + 3 < bound) :
    n ≤ roundUp4 bound n ∧ roundUp4 bound n < n + 4 := by
  rw [roundUp4_eq small, padding]
  omega

theorem padding_aligns (n : Nat) : (n + padding n) % 4 = 0 := by
  rw [padding]
  omega

end Machine
