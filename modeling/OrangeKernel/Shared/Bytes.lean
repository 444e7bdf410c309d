import Mathlib.Algebra.Order.Ring.Nat
import Mathlib.Tactic.Ring

set_option autoImplicit false

namespace ByteMemory

structure Mem where
  byte : Nat → UInt8

def load : (width addr : Nat) → Mem → Nat
  | 0, _, _ => 0
  | width + 1, addr, mem => (mem.byte addr).toNat + 256 * load width (addr + 1) mem

def store (width addr value : Nat) (mem : Mem) : Mem :=
  { byte := fun x => if addr ≤ x ∧ x < addr + width then UInt8.ofNat (value / 256 ^ (x - addr)) else mem.byte x }

def fill (addr size : Nat) (value : UInt8) (mem : Mem) : Mem :=
  { byte := fun x => if addr ≤ x ∧ x < addr + size then value else mem.byte x }

def copyBytes (dst src : Nat) : (left i : Nat) → Mem → Mem
  | 0, _, mem => mem
  | left + 1, i, mem => copyBytes dst src left (i + 1) (store 1 (dst + i) (load 1 (src + i) mem) mem)

def copyBytesBack (dst src : Nat) : (left : Nat) → Mem → Mem
  | 0, mem => mem
  | left + 1, mem => copyBytesBack dst src left (store 1 (dst + left) (load 1 (src + left) mem) mem)

def bytesAt (addr size : Nat) (mem : Mem) : List UInt8 := (List.range size).map fun i => mem.byte (addr + i)

def place : (addr : Nat) → (bytes : List UInt8) → Mem → Mem
  | _, [], mem => mem
  | addr, b :: rest, mem => place (addr + 1) rest (store 1 addr b.toNat mem)

theorem load_lt (width addr : Nat) (mem : Mem) : load width addr mem < 256 ^ width := by
  induction width generalizing addr with
  | zero => simp [load]
  | succ width ih =>
    have low := (mem.byte addr).toNat_lt
    have high := ih (addr + 1)
    simp only [load, Nat.pow_succ]
    omega

variable {width addr : Nat} {mem : Mem}

theorem load_congr {mem' : Mem}
    (same : ∀ x, addr ≤ x → x < addr + width → mem'.byte x = mem.byte x) :
    load width addr mem' = load width addr mem := by
  induction width generalizing addr with
  | zero => rfl
  | succ width ih =>
    have first := same addr (Nat.le_refl _) (by omega)
    have rest : load width (addr + 1) mem' = load width (addr + 1) mem :=
      ih fun x low high => same x (by omega) (by omega)
    simp only [load, first, rest]

theorem store_outside {value x : Nat} (outside : x < addr ∨ addr + width ≤ x) :
    (store width addr value mem).byte x = mem.byte x := by
  simp only [store]
  rw [if_neg (by omega)]

theorem fill_outside {size x : Nat} {value : UInt8} (outside : x < addr ∨ addr + size ≤ x) :
    (fill addr size value mem).byte x = mem.byte x := by
  simp only [fill]
  rw [if_neg (by omega)]

theorem load_store_apart {width' addr' value : Nat}
    (apart : addr + width ≤ addr' ∨ addr' + width' ≤ addr) :
    load width addr (store width' addr' value mem) = load width addr mem :=
  load_congr fun x low high => store_outside (by omega)

theorem load_fill_apart {size addr' : Nat} {value : UInt8}
    (apart : addr + width ≤ addr' ∨ addr' + size ≤ addr) :
    load width addr (fill addr' size value mem) = load width addr mem :=
  load_congr fun x low high => fill_outside (by omega)

theorem load_store_from (width offset addr value : Nat) (mem : Mem) :
    load width (addr + offset) (store (offset + width) addr value mem) = value / 256 ^ offset % 256 ^ width := by
  induction width generalizing offset with
  | zero => simp [load, Nat.mod_one]
  | succ width ih =>
    have next := ih (offset + 1)
    have inside : addr ≤ addr + offset ∧ addr + offset < addr + (offset + (width + 1)) := by omega
    have byte : ((store (offset + (width + 1)) addr value mem).byte (addr + offset)).toNat =
      value / 256 ^ offset % 256 := by
      simp only [store, inside, and_self, if_true, Nat.add_sub_cancel_left, UInt8.toNat_ofNat']
    rw [show offset + 1 + width = offset + (width + 1) by omega, ← Nat.add_assoc, Nat.pow_succ,
      ← Nat.div_div_eq_div_mul] at next
    rw [load, byte, next, Nat.pow_succ, Nat.mul_comm (256 ^ width), Nat.mod_mul]

theorem load_store (width addr value : Nat) (mem : Mem) :
    load width addr (store width addr value mem) = value % 256 ^ width := by
  simpa using load_store_from width 0 addr value mem

theorem load_digit (width addr : Nat) (mem : Mem) {i : Nat} (inside : i < width) :
    load width addr mem / 256 ^ i % 256 = (mem.byte (addr + i)).toNat := by
  induction width generalizing addr i with
  | zero => omega
  | succ width ih =>
    have low := (mem.byte addr).toNat_lt
    cases i with
    | zero =>
      simp only [load, Nat.pow_zero, Nat.div_one, Nat.add_zero]
      omega
    | succ i =>
      have rest := ih (addr + 1) (show i < width by omega)
      rw [load, Nat.pow_succ', ← Nat.div_div_eq_div_mul, Nat.add_mul_div_left _ _ (by decide),
        Nat.div_eq_of_lt low, Nat.zero_add, rest, show addr + 1 + i = addr + (i + 1) by omega]

theorem store_load (width addr : Nat) (mem : Mem) : store width addr (load width addr mem) mem = mem := by
  cases mem with
  | mk byte =>
    unfold store
    congr 1
    funext x
    split
    next inside =>
      have digit := load_digit width addr ⟨byte⟩ (show x - addr < width by omega)
      rw [show addr + (x - addr) = x by omega] at digit
      apply UInt8.toNat_inj.mp
      rw [UInt8.toNat_ofNat']
      exact digit
    · rfl

theorem copyByte_byte (dst src : Nat) (mem : Mem) (y : Nat) :
    (store 1 dst (load 1 src mem) mem).byte y = if y = dst then mem.byte src else mem.byte y := by
  by_cases here : y = dst
  · simp [store, load, here]
  · rw [store_outside (by omega), if_neg here]

theorem copyBytes_byte (dst src left i : Nat) (mem : Mem) (ahead : dst ≤ src ∨ src + left ≤ dst) (x : Nat) :
    (copyBytes dst src left i mem).byte x =
      if dst + i ≤ x ∧ x < dst + i + left then mem.byte (src + (x - dst)) else mem.byte x := by
  induction left generalizing i mem with
  | zero => rw [copyBytes, if_neg (by omega)]
  | succ left ih =>
    rw [copyBytes, ih (i + 1) _ (by omega)]
    by_cases rest : dst + (i + 1) ≤ x ∧ x < dst + (i + 1) + left
    · -- what is still to be read has not been written
      rw [if_pos rest, if_pos (by omega), copyByte_byte, if_neg (by omega)]
    · rw [if_neg rest, copyByte_byte]
      by_cases here : x = dst + i
      · rw [if_pos here, if_pos (by omega), here, Nat.add_sub_cancel_left]
      · rw [if_neg here, if_neg (by omega)]

theorem copyBytesBack_byte (dst src left : Nat) (mem : Mem) (behind : src ≤ dst ∨ dst + left ≤ src) (x : Nat) :
    (copyBytesBack dst src left mem).byte x =
      if dst ≤ x ∧ x < dst + left then mem.byte (src + (x - dst)) else mem.byte x := by
  induction left generalizing mem with
  | zero => rw [copyBytesBack, if_neg (by omega)]
  | succ left ih =>
    rw [copyBytesBack, ih _ (by omega)]
    by_cases rest : dst ≤ x ∧ x < dst + left
    · rw [if_pos rest, if_pos (by omega), copyByte_byte, if_neg (by omega)]
    · rw [if_neg rest, copyByte_byte]
      by_cases here : x = dst + left
      · rw [if_pos here, if_pos (by omega), here, Nat.add_sub_cancel_left]
      · rw [if_neg here, if_neg (by omega)]

@[simp] theorem bytesAt_length (addr size : Nat) (mem : Mem) : (bytesAt addr size mem).length = size := by
  simp [bytesAt]

theorem bytesAt_congr {addr' size : Nat} {mem' : Mem}
    (same : ∀ i < size, mem'.byte (addr' + i) = mem.byte (addr + i)) :
    bytesAt addr' size mem' = bytesAt addr size mem :=
  List.map_congr_left fun i inside => same i (List.mem_range.mp inside)

theorem bytesAt_eq {bytes : List UInt8}
    (holds : ∀ i (h : i < bytes.length), mem.byte (addr + i) = bytes[i]) :
    bytesAt addr bytes.length mem = bytes := by
  apply List.ext_getElem (bytesAt_length _ _ _)
  intro i _ inside
  simp only [bytesAt, List.getElem_map, List.getElem_range]
  exact holds i inside

theorem place_outside {bytes : List UInt8} {x : Nat}
    (outside : x < addr ∨ addr + bytes.length ≤ x) : (place addr bytes mem).byte x = mem.byte x := by
  induction bytes generalizing addr mem with
  | nil => rfl
  | cons b rest ih =>
    rw [List.length_cons] at outside
    rw [place, ih (by omega), store_outside (by omega)]

theorem place_byte (addr : Nat) (bytes : List UInt8) (mem : Mem) {i : Nat} (inside : i < bytes.length) :
    (place addr bytes mem).byte (addr + i) = bytes[i] := by
  induction bytes generalizing addr mem i with
  | nil => simp at inside
  | cons b rest ih =>
    rw [place]
    cases i with
    | zero =>
      rw [place_outside (by omega)]
      simp [store]
    | succ i =>
      have next := ih (addr + 1) (store 1 addr b.toNat mem) (Nat.lt_of_succ_lt_succ inside)
      rw [show addr + (i + 1) = addr + 1 + i by omega, next, List.getElem_cons_succ]

end ByteMemory
