import Mathlib.Algebra.Group.Nat.Defs
import Mathlib.Tactic.NormNum
import Mathlib.Tactic.Ring

set_option autoImplicit false

namespace BigEndian

def be32 (v : UInt32) : List UInt8 := [(v >>> 24).toUInt8, (v >>> 16).toUInt8, (v >>> 8).toUInt8, v.toUInt8]

@[simp] theorem be32_length (v : UInt32) : (be32 v).length = 4 := rfl

theorem byte_toNat (v k : UInt32) : (v >>> k).toUInt8.toNat = v.toNat / 2 ^ (k.toNat % 32) % 256 := by
  rw [UInt32.toNat_toUInt8, UInt32.toNat_shiftRight, Nat.shiftRight_eq_div_pow]

theorem be32_inj {u v : UInt32} (same : be32 u = be32 v) : u = v := by
  simp only [be32, List.cons.injEq, and_true] at same
  obtain ⟨top, second, third, last⟩ := same
  have top := congrArg UInt8.toNat top
  have second := congrArg UInt8.toNat second
  have third := congrArg UInt8.toNat third
  have last := congrArg UInt8.toNat last
  rw [byte_toNat, byte_toNat] at top second third
  rw [UInt32.toNat_toUInt8, UInt32.toNat_toUInt8] at last
  have uBound := u.toNat_lt
  have vBound := v.toNat_lt
  apply UInt32.toNat_inj.mp
  change u.toNat / 2 ^ 24 % 256 = v.toNat / 2 ^ 24 % 256 at top
  change u.toNat / 2 ^ 16 % 256 = v.toNat / 2 ^ 16 % 256 at second
  change u.toNat / 2 ^ 8 % 256 = v.toNat / 2 ^ 8 % 256 at third
  change u.toNat % 256 = v.toNat % 256 at last
  omega

theorem be32_of_bytes {b0 b1 b2 b3 : UInt8} {v : UInt32}
    (spells : v.toNat = ((b0.toNat * 256 + b1.toNat) * 256 + b2.toNat) * 256 + b3.toNat) :
    be32 v = [b0, b1, b2, b3] := by
  have bound0 := b0.toNat_lt
  have bound1 := b1.toNat_lt
  have bound2 := b2.toNat_lt
  have bound3 := b3.toNat_lt
  simp only [be32, List.cons.injEq, and_true]
  refine ⟨?_, ?_, ?_, ?_⟩ <;> apply UInt8.toNat_inj.mp
  · rw [byte_toNat, spells]
    change _ / 2 ^ 24 % 256 = _
    omega
  · rw [byte_toNat, spells]
    change _ / 2 ^ 16 % 256 = _
    omega
  · rw [byte_toNat, spells]
    change _ / 2 ^ 8 % 256 = _
    omega
  · rw [UInt32.toNat_toUInt8, spells]
    omega

theorem and_byteMask (x k : Nat) : x &&& (255 * 2 ^ k) = x / 2 ^ k % 256 * 2 ^ k := by
  have mask : 255 * 2 ^ k = (2 ^ 8 - 1) <<< k := by
    rw [Nat.shiftLeft_eq]
    norm_num
  have digit : x / 2 ^ k % 256 * 2 ^ k = ((x >>> k) &&& (2 ^ 8 - 1)) <<< k := by
    rw [Nat.and_two_pow_sub_one_eq_mod, Nat.shiftRight_eq_div_pow, Nat.shiftLeft_eq]
  rw [mask, digit]
  apply Nat.eq_of_testBit_eq
  intro i
  simp only [Nat.testBit_and, Nat.testBit_shiftLeft, Nat.testBit_shiftRight]
  by_cases le : k ≤ i <;> simp [le]

theorem or_bytes {a b c d : Nat} (second : b < 256) (third : c < 256) (last : d < 256) :
    2 ^ 24 * a ||| 2 ^ 16 * b ||| 2 ^ 8 * c ||| d = a * 2 ^ 24 + b * 2 ^ 16 + c * 2 ^ 8 + d := by
  have low := Nat.two_pow_add_eq_or_of_lt (i := 8) last c
  have middle := Nat.two_pow_add_eq_or_of_lt (i := 16) (by omega : 2 ^ 8 * c + d < 2 ^ 16) b
  have high := Nat.two_pow_add_eq_or_of_lt (i := 24) (by omega : 2 ^ 16 * b + (2 ^ 8 * c + d) < 2 ^ 24) a
  rw [Nat.or_assoc, Nat.or_assoc, ← low, ← middle, ← high]
  omega

def number (w : List UInt8) : Nat := w.foldl (fun value b => value * 256 + b.toNat) 0

theorem number_from (start : Nat) (w : List UInt8) :
    w.foldl (fun value b => value * 256 + b.toNat) start = start * 256 ^ w.length + number w := by
  induction w generalizing start with
  | nil => simp [number]
  | cons b w ih =>
    have front : number (b :: w) = b.toNat * 256 ^ w.length + number w := by
      rw [number, List.foldl_cons, ih, Nat.zero_mul, Nat.zero_add]
    rw [List.foldl_cons, ih, front, List.length_cons, pow_succ]
    ring

theorem number_append (v w : List UInt8) : number (v ++ w) = number v * 256 ^ w.length + number w := by
  rw [number, List.foldl_append, number_from]
  rfl

theorem number_be32 (v : UInt32) : number (be32 v) = v.toNat := by
  have bound := v.toNat_lt
  simp only [number, be32, List.foldl_cons, List.foldl_nil]
  rw [byte_toNat, byte_toNat, byte_toNat, UInt32.toNat_toUInt8]
  change (((0 * 256 + v.toNat / 2 ^ 24 % 256) * 256 + v.toNat / 2 ^ 16 % 256) * 256 + v.toNat / 2 ^ 8 % 256) * 256 +
    v.toNat % 256 = v.toNat
  omega

theorem shift_or_cell (value : Nat) {c : Nat} (small : c < 2 ^ 32) :
    (UInt64.ofNat value <<< 32) ||| UInt64.ofNat c = UInt64.ofNat (value * 2 ^ 32 + c) := by
  apply UInt64.toNat_inj.mp
  rw [UInt64.toNat_or, UInt64.toNat_shiftLeft, UInt64.toNat_ofNat', UInt64.toNat_ofNat', UInt64.toNat_ofNat']
  change (value % 2 ^ 64) <<< 32 % 2 ^ 64 ||| c % 2 ^ 64 = _
  have low : c % 2 ^ 64 = c := Nat.mod_eq_of_lt (by omega)
  have high : (value % 2 ^ 64) <<< 32 % 2 ^ 64 = 2 ^ 32 * (value % 2 ^ 32) := by
    rw [Nat.shiftLeft_eq]
    omega
  rw [low, high, ← Nat.two_pow_add_eq_or_of_lt small]
  omega

end BigEndian
