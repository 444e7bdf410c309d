import Mathlib.Data.List.Forall2
import OrangeKernel.Cpio.Archive
import OrangeKernel.Shared.Answers

set_option autoImplicit false

-- The digits of a number may be in either case. What the reader ignores and the padding may be any
-- bytes.

namespace OrangeKernel.Cpio

open ByteScan Machine
open Fdt (Text)

def nibbles (n : Nat) : List Nat :=
  [n / 2 ^ 28 % 16, n / 2 ^ 24 % 16, n / 2 ^ 20 % 16, n / 2 ^ 16 % 16, n / 2 ^ 12 % 16, n / 2 ^ 8 % 16,
    n / 2 ^ 4 % 16, n % 16]

def lowerDigit (n : Nat) : UInt8 := if n < 10 then UInt8.ofNat (0x30 + n) else UInt8.ofNat (0x61 + (n - 10))

def upperDigit (n : Nat) : UInt8 := if n < 10 then UInt8.ofNat (0x30 + n) else UInt8.ofNat (0x41 + (n - 10))

def HexOf (n : Nat) (digits : List UInt8) : Prop :=
  List.Forall₂ (fun nibble c => c = lowerDigit nibble ∨ c = upperDigit nibble) (nibbles n) digits

theorem HexOf.length {n : Nat} {digits : List UInt8} (hex : HexOf n digits) : digits.length = 8 :=
  (List.Forall₂.length_eq hex).symm

theorem hexOf_lower (n : Nat) : HexOf n ((nibbles n).map lowerDigit) := by
  rw [HexOf, List.forall₂_map_right_iff]
  exact List.forall₂_same.mpr fun _ _ => .inl rfl

theorem nibbles_lt {n nibble : Nat} (mem : nibble ∈ nibbles n) : nibble < 16 := by
  simp only [nibbles, List.mem_cons, List.not_mem_nil, or_false] at mem
  omega

theorem nibbles_fold {n : Nat} (small : n < 2 ^ 32) : (nibbles n).foldl (fun v nibble => v * 16 + nibble) 0 = n := by
  have next : ∀ k, n / 2 ^ (k + 4) * 16 + n / 2 ^ k % 16 = n / 2 ^ k := by
    intro k
    rw [Nat.pow_add, ← Nat.div_div_eq_div_mul]
    exact Nat.div_add_mod' (n / 2 ^ k) 16
  have first : 0 * 16 + n / 2 ^ 28 % 16 = n / 2 ^ 28 := by omega
  simp only [nibbles, List.foldl]
  rw [first, next 24, next 20, next 16, next 12, next 8, next 4]
  exact Nat.div_add_mod' n 16

theorem nibbles_of_fold {values : List Nat} (length : values.length = 8) (small : ∀ n ∈ values, n < 16) :
    values.foldl (fun v n => v * 16 + n) 0 < 2 ^ 32 ∧ nibbles (values.foldl (fun v n => v * 16 + n) 0) = values := by
  rcases values with
    _ | ⟨a, _ | ⟨b, _ | ⟨c, _ | ⟨d, _ | ⟨e, _ | ⟨f, _ | ⟨g, _ | ⟨h, _ | ⟨i, rest⟩⟩⟩⟩⟩⟩⟩⟩⟩
  case cons.cons.cons.cons.cons.cons.cons.cons.nil =>
    simp only [List.forall_mem_cons] at small
    obtain ⟨sa, sb, sc, sd, se, sf, sg, sh, -⟩ := small
    simp only [nibbles, List.foldl]
    refine ⟨by omega, ?_⟩
    simp only [List.cons.injEq, and_true]
    refine ⟨?_, ?_, ?_, ?_, ?_, ?_, ?_, ?_⟩ <;> omega
  all_goals simp only [List.length_cons, List.length_nil] at length
  all_goals omega

abbrev Field := { bytes : List UInt8 // bytes.length = 8 }

def zeroField : Field := ⟨List.replicate 8 0x30, rfl⟩

structure Newc where
  name : Text
  data : List UInt8
  mode : UInt32
  nameFits : name.chars.length + 1 < 2 ^ 32
  dataFits : data.length < 2 ^ 32
  modeDigits : { digits : List UInt8 // HexOf mode.toNat digits }
  filesizeDigits : { digits : List UInt8 // HexOf data.length digits }
  namesizeDigits : { digits : List UInt8 // HexOf (name.chars.length + 1) digits }
  ino : Field
  uid : Field
  gid : Field
  nlink : Field
  mtime : Field
  devmajor : Field
  devminor : Field
  rdevmajor : Field
  rdevminor : Field
  check : Field
  namePad : { bytes : List UInt8 // bytes.length = padding (headerSize + (name.chars.length + 1)) }
  dataPad : { bytes : List UInt8 // bytes.length = padding data.length }

def Newc.header (r : Newc) : List UInt8 :=
  cpioNewcMagic ++ r.ino.1 ++ r.modeDigits.1 ++ r.uid.1 ++ r.gid.1 ++ r.nlink.1 ++ r.mtime.1 ++ r.filesizeDigits.1 ++
    r.devmajor.1 ++ r.devminor.1 ++ r.rdevmajor.1 ++ r.rdevminor.1 ++ r.namesizeDigits.1 ++ r.check.1

def Newc.bytes (r : Newc) : List UInt8 := r.header ++ r.name.bytes ++ r.namePad.1 ++ r.data ++ r.dataPad.1

def archive (entries : List Newc) (trailer : Newc) (trailing : List UInt8) : List UInt8 :=
  entries.flatMap Newc.bytes ++ (trailer.bytes ++ trailing)

def plainRecord (name : Text) (data : List UInt8) (mode : UInt32) (nameFits : name.chars.length + 1 < 2 ^ 32)
    (dataFits : data.length < 2 ^ 32) : Newc where
  name := name
  data := data
  mode := mode
  nameFits := nameFits
  dataFits := dataFits
  modeDigits := ⟨_, hexOf_lower mode.toNat⟩
  filesizeDigits := ⟨_, hexOf_lower data.length⟩
  namesizeDigits := ⟨_, hexOf_lower (name.chars.length + 1)⟩
  ino := zeroField
  uid := zeroField
  gid := zeroField
  nlink := zeroField
  mtime := zeroField
  devmajor := zeroField
  devminor := zeroField
  rdevmajor := zeroField
  rdevminor := zeroField
  check := zeroField
  namePad := ⟨List.replicate _ 0, List.length_replicate⟩
  dataPad := ⟨List.replicate _ 0, List.length_replicate⟩

variable {bytes : List UInt8}

section Layout

variable (r : Newc)

theorem Newc.header_length : r.header.length = headerSize := by
  simp only [Newc.header, List.length_append, r.modeDigits.2.length, r.filesizeDigits.2.length,
    r.namesizeDigits.2.length, r.ino.2, r.uid.2, r.gid.2, r.nlink.2, r.mtime.2, r.devmajor.2, r.devminor.2,
    r.rdevmajor.2, r.rdevminor.2, r.check.2]
  rfl

theorem Newc.header_fields {cur : Nat} (holds : Holds bytes cur r.header) :
    Holds bytes cur cpioNewcMagic ∧ Holds bytes (cur + cMode) r.modeDigits.1 ∧
      Holds bytes (cur + cFilesize) r.filesizeDigits.1 ∧ Holds bytes (cur + cNamesize) r.namesizeDigits.1 := by
  have uptoNamesize := holds.left
  have uptoFilesize := uptoNamesize.left.left.left.left.left
  have uptoMode := uptoFilesize.left.left.left.left.left
  refine ⟨uptoMode.left.left, uptoMode.behind ?_, uptoFilesize.behind ?_, uptoNamesize.behind ?_⟩
  all_goals
    simp only [List.length_append, r.modeDigits.2.length, r.filesizeDigits.2.length, r.ino.2, r.uid.2, r.gid.2,
      r.nlink.2, r.mtime.2, r.devmajor.2, r.devminor.2, r.rdevmajor.2, r.rdevminor.2]
    rfl

def Newc.dataAt : Nat := align4 (headerSize + (r.name.chars.length + 1))

theorem Newc.dataAt_eq : r.dataAt = (r.header ++ r.name.bytes ++ r.namePad.1).length := by
  have small := r.nameFits
  rw [Newc.dataAt, align4, roundUp4_eq (by simp only [headerSize]; omega)]
  simp only [List.length_append, r.header_length, r.namePad.2, Text.bytes_length]

theorem Newc.bytes_length : r.bytes.length = r.dataAt + align4 r.data.length := by
  have small := r.dataFits
  rw [align4, roundUp4_eq (by omega), r.dataAt_eq]
  simp only [Newc.bytes, List.length_append, r.dataPad.2]
  omega

end Layout

def Newc.call (r : Newc) (start : Nat) : Call where
  name := start + headerSize
  data := start + r.dataAt
  size := UInt32.ofNat r.data.length
  mode := r.mode

structure Describes (bytes : List UInt8) (call : Call) (r : Newc) : Prop where
  name : Holds bytes call.name r.name.bytes
  data : Holds bytes call.data r.data
  size : call.size.toNat = r.data.length
  mode : call.mode = r.mode

theorem Newc.call_describes {r : Newc} {start : Nat} (holds : Holds bytes start r.bytes) :
    Describes bytes (r.call start) r := by
  have nameHolds := holds.left.left.left.right
  have dataHolds := holds.left.right
  rw [r.header_length] at nameHolds
  rw [← r.dataAt_eq] at dataHolds
  exact ⟨nameHolds, dataHolds, UInt32.toNat_ofNat_of_lt' r.dataFits, rfl⟩

def callsFrom : (start : Nat) → List Newc → List Call
  | _, [] => []
  | start, r :: rest => r.call start :: callsFrom (start + r.bytes.length) rest

theorem callsFrom_describe {after : List UInt8} {entries : List Newc} {start : Nat}
    (holds : Holds bytes start (entries.flatMap Newc.bytes ++ after)) :
    List.Forall₂ (Describes bytes) (callsFrom start entries) entries := by
  induction entries generalizing start with
  | nil => exact .nil
  | cons r rest ih =>
    rw [List.flatMap_cons, List.append_assoc] at holds
    exact .cons (Newc.call_describes holds.left) (ih holds.right)

end OrangeKernel.Cpio
