import Mathlib.Algebra.Order.Ring.Nat
import Mathlib.Data.Nat.ModEq
import Mathlib.Tactic.Ring

set_option autoImplicit false

namespace Wire

def word : List UInt8 → Nat
  | [] => 0
  | b :: rest => b.toNat + 256 * word rest

def digits : (width value : Nat) → List UInt8
  | 0, _ => []
  | width + 1, value => UInt8.ofNat value :: digits width (value / 256)

@[simp] theorem digits_length (width value : Nat) : (digits width value).length = width := by
  induction width generalizing value with
  | zero => rfl
  | succ width ih => simp [digits, ih]

theorem word_lt (bytes : List UInt8) : word bytes < 256 ^ bytes.length := by
  induction bytes with
  | nil => simp [word]
  | cons b rest ih =>
    have low := b.toNat_lt
    simp only [word, List.length_cons, Nat.pow_succ]
    omega

theorem word_digits {width value : Nat} (fits : value < 256 ^ width) : word (digits width value) = value := by
  induction width generalizing value with
  | zero =>
    rw [Nat.pow_zero] at fits
    simp only [digits, word]
    omega
  | succ width ih =>
    have rest : value / 256 < 256 ^ width := by
      rw [Nat.pow_succ] at fits
      exact Nat.div_lt_of_lt_mul (by rwa [Nat.mul_comm] at fits)
    simp only [digits, word, ih rest, UInt8.toNat_ofNat']
    omega

theorem digits_word (bytes : List UInt8) : digits bytes.length (word bytes) = bytes := by
  induction bytes with
  | nil => rfl
  | cons b rest ih =>
    have low := b.toNat_lt
    have first : UInt8.ofNat (b.toNat + 256 * word rest) = b := by
      apply UInt8.toNat_inj.mp
      rw [UInt8.toNat_ofNat']
      omega
    have others : (b.toNat + 256 * word rest) / 256 = word rest := by omega
    simp only [List.length_cons, digits, word, first, others, ih]

theorem eq_digits_append_iff {width value : Nat} (fits : value < 256 ^ width) {bytes rest : List UInt8} :
    bytes = digits width value ++ rest ↔
      width ≤ bytes.length ∧ word (bytes.take width) = value ∧ bytes.drop width = rest := by
  constructor
  · rintro rfl
    simp [word_digits fits]
  · rintro ⟨long, spells, rfl⟩
    have whole := digits_word (bytes.take width)
    rw [List.length_take_of_le long, spells] at whole
    rw [whole, List.take_append_drop]

theorem shifted_lt {b k : Nat} (byte : b < 256) (small : k ≤ 24) : b <<< k < 2 ^ 32 := by
  have power : 2 ^ k ≤ 2 ^ 24 := Nat.pow_le_pow_right (by decide) small
  rw [Nat.shiftLeft_eq]
  exact (Nat.mul_le_mul (Nat.le_of_lt_succ byte) power).trans_lt (by decide)

theorem or_bytes {a b c : Nat} (first : a < 256) (second : b < 256) (third : c < 256) (d : Nat) :
    a ||| b <<< 8 ||| c <<< 16 ||| d <<< 24 = a + 256 * (b + 256 * (c + 256 * d)) := by
  simp only [Nat.shiftLeft_eq, Nat.mul_comm _ (2 ^ _)]
  rw [Nat.or_comm a, ← Nat.two_pow_add_eq_or_of_lt (i := 8) first, Nat.or_comm _ (2 ^ 16 * c),
    ← Nat.two_pow_add_eq_or_of_lt (i := 16) (by omega), Nat.or_comm _ (2 ^ 24 * d),
    ← Nat.two_pow_add_eq_or_of_lt (i := 24) (by omega)]
  omega

def total (bytes : List UInt8) : Nat := (bytes.map UInt8.toNat).sum

@[simp] theorem total_cons (b : UInt8) (rest : List UInt8) : total (b :: rest) = b.toNat + total rest := rfl

@[simp] theorem total_append (first second : List UInt8) : total (first ++ second) = total first + total second := by
  simp [total]

def OneOff (sent received : List UInt8) : Prop :=
  ∃ before a b after, sent = before ++ a :: after ∧ received = before ++ b :: after ∧ a ≠ b

variable {sent received : List UInt8}

theorem OneOff.length (off : OneOff sent received) : received.length = sent.length := by
  obtain ⟨before, a, b, after, rfl, rfl, -⟩ := off
  simp

theorem OneOff.ne (off : OneOff sent received) : received ≠ sent := by
  obtain ⟨before, a, b, after, rfl, rfl, other⟩ := off
  intro same
  exact other (List.cons.inj (List.append_cancel_left same)).1.symm

theorem OneOff.append {first second : List UInt8} (off : OneOff (first ++ second) received) :
    (∃ wrong, received = wrong ++ second ∧ OneOff first wrong) ∨
      ∃ wrong, received = first ++ wrong ∧ OneOff second wrong := by
  obtain ⟨before, a, b, after, split, rfl, other⟩ := off
  rcases List.append_eq_append_iff.mp split with ⟨mid, rfl, rfl⟩ | ⟨mid, rfl, tail⟩
  · exact .inr ⟨mid ++ b :: after, by simp, mid, a, b, after, rfl, rfl, other⟩
  · cases mid with
    | nil => exact .inr ⟨b :: after, by simp, [], a, b, after, by simpa using tail.symm, rfl, other⟩
    | cons c mid =>
      obtain ⟨rfl, rfl⟩ := List.cons.inj tail
      exact .inl ⟨before ++ b :: mid, by simp, before, a, b, mid, rfl, rfl, other⟩

theorem OneOff.total_mod (off : OneOff sent received) {m : Nat} (byte : 256 ≤ m) :
    total received % m ≠ total sent % m := by
  obtain ⟨before, a, b, after, rfl, rfl, other⟩ := off
  intro same
  have aByte := a.toNat_lt
  have bByte := b.toNat_lt
  have apart : a.toNat ≠ b.toNat := fun equal => other (UInt8.toNat_inj.mp equal)
  simp only [total_append, total_cons] at same
  have moved : Nat.ModEq m (b.toNat + total after) (a.toNat + total after) := Nat.ModEq.add_left_cancel' _ same
  have shifted : b.toNat % m = a.toNat % m := Nat.ModEq.add_right_cancel' _ moved
  rw [Nat.mod_eq_of_lt (by omega), Nat.mod_eq_of_lt (by omega)] at shifted
  exact apart shifted.symm

end Wire
