import Mathlib.Logic.Basic

set_option autoImplicit false

namespace WordMask

def has (mask : UInt32) (i : Nat) : Bool := mask.toBitVec.getLsbD i

@[simp] theorem has_zero (i : Nat) : has 0 i = false := by
  simp [has]

@[simp] theorem has_or (x y : UInt32) (i : Nat) : has (x ||| y) i = (has x i || has y i) := by
  simp [has]

@[simp] theorem has_and (x y : UInt32) (i : Nat) : has (x &&& y) i = (has x i && has y i) := by
  simp [has]

theorem has_not (x : UInt32) {i : Nat} (within : i < 32) : has (~~~x) i = !has x i := by
  simp [has, within]

theorem has_bit {i : Nat} (within : i < 32) (j : Nat) : has (1 <<< UInt32.ofNat i) j = decide (i = j) := by
  have shifted : has (1 <<< UInt32.ofNat i) j = (decide (j < 32) && !decide (j < i) && decide (j - i = 0)) := by
    simp [has, UInt32.toBitVec_shiftLeft, BitVec.getLsbD_one, Nat.mod_eq_of_lt within]
  rw [shifted, Bool.eq_iff_iff]
  simp only [Bool.and_eq_true, Bool.not_eq_true', decide_eq_true_eq, decide_eq_false_iff_not]
  omega

theorem eq_zero_iff (mask : UInt32) : mask = 0 ↔ ∀ i, has mask i = false := by
  constructor
  · rintro rfl i
    exact has_zero i
  · intro clear
    apply UInt32.toBitVec_inj.mp
    apply BitVec.eq_of_getLsbD_eq
    intro i _
    simpa [has] using clear i

theorem and_eq_zero_iff {mask : UInt32} {i : Nat} (within : i < 32) :
    mask &&& (1 <<< UInt32.ofNat i) = 0 ↔ has mask i = false := by
  rw [eq_zero_iff]
  constructor
  · intro clear
    simpa [has_bit within] using clear i
  · intro clear j
    by_cases here : i = j
    · subst here
      simp [clear]
    · simp [has_bit within, here]

end WordMask
