import OrangeKernel.Boot.Bundle

set_option autoImplicit false

namespace OrangeKernel.Boot

open ByteMemory Wire
open Memory (Board)

theorem bind_apply {α β : Type} (x : Load α) (f : α → Load β) (s : Loader) :
    (x >>= f) s = (x s).bind fun r => f r.1 r.2 := rfl

theorem send_bind {β : Type} (output : Output) (f : Unit → Load β) (s : Loader) :
    (uartSend output >>= f) s = f () { s with sent := s.sent ++ [output] } := rfl

theorem modify_bind {β : Type} (g : Loader → Loader) (f : Unit → Load β) (s : Loader) :
    ((modify g : Load Unit) >>= f) s = f () (g s) := rfl

theorem get_bind {β : Type} (f : Loader → Load β) (s : Loader) : ((get : Load Loader) >>= f) s = f s s := rfl

theorem pure_apply {α : Type} (a : α) (s : Loader) : (pure a : Load α) s = some (a, s) := rfl

theorem offset_toNat {addr i : UInt64} (fits : addr.toNat + i.toNat < 2 ^ 64) :
    (addr + i).toNat = addr.toNat + i.toNat := by
  rw [UInt64.toNat_add, Nat.mod_eq_of_lt fits]

theorem recvFrom_eq (dst : UInt64) (left : Nat) (i : UInt64) (s : Loader)
    (fits : dst.toNat + i.toNat + left < 2 ^ 64) :
    recvFrom dst left i s = if left ≤ s.line.length then
      some ((), { s with
        line := s.line.drop left
        mem := place (dst.toNat + i.toNat) (s.line.take left) s.mem })
      else none := by
  induction left generalizing i s with
  | zero => rfl
  | succ left ih =>
    have here := offset_toNat (by omega : dst.toNat + i.toNat < 2 ^ 64)
    have next : (i + 1).toNat = i.toNat + 1 := offset_toNat (i := 1) (by change i.toNat + 1 < 2 ^ 64; omega)
    unfold recvFrom
    rw [bind_apply]
    cases line : s.line with
    | nil => simp [uartRecv, line]
    | cons b rest =>
      have first : uartRecv s = some (b, { s with line := rest }) := by simp [uartRecv, line]
      rw [first, Option.bind_some, bind_apply]
      change (recvFrom dst left (i + 1) _) = _
      rw [ih (i + 1) _ (by omega)]
      simp [next, here, place, Nat.add_assoc]

variable {size : UInt64}

theorem recvBytes_eq {dst : UInt64} (s : Loader) (fits : dst.toNat + size.toNat < 2 ^ 64) :
    recvBytes dst size s = if size.toNat ≤ s.line.length then
      some ((), { s with
        line := s.line.drop size.toNat
        mem := place dst.toNat (s.line.take size.toNat) s.mem })
      else none := by
  have whole := recvFrom_eq dst size.toNat 0 s (by simpa using fits)
  rw [UInt64.toNat_zero, Nat.add_zero] at whole
  exact whole

theorem shift64_toNat (b : UInt8) {k : UInt64} (small : k.toNat ≤ 24) :
    (b.toUInt64 <<< k).toNat = b.toNat <<< k.toNat := by
  have fits := shifted_lt b.toNat_lt small
  rw [UInt64.toNat_shiftLeft, Nat.mod_eq_of_lt (by omega : k.toNat < 64), UInt8.toNat_toUInt64,
    Nat.mod_eq_of_lt (by omega)]

theorem shift32_toNat (b : UInt8) {k : UInt32} (small : k.toNat ≤ 24) :
    (b.toUInt32 <<< k).toNat = b.toNat <<< k.toNat := by
  have fits := shifted_lt b.toNat_lt small
  rw [UInt32.toNat_shiftLeft, Nat.mod_eq_of_lt (by omega : k.toNat < 32), UInt8.toNat_toUInt32,
    Nat.mod_eq_of_lt fits]

theorem recvU32Le_eq (s : Loader) : recvU32Le s = if 4 ≤ s.line.length then
    some (UInt64.ofNat (word (s.line.take 4)), { s with line := s.line.drop 4 }) else none := by
  unfold recvU32Le
  simp only [bind_apply]
  rcases line : s.line with _ | ⟨b0, _ | ⟨b1, _ | ⟨b2, _ | ⟨b3, rest⟩⟩⟩⟩
  · simp [uartRecv, line]
  · simp [uartRecv, line]
  · simp [uartRecv, line]
  · simp [uartRecv, line]
  · have value : b0.toUInt64 ||| b1.toUInt64 <<< 8 ||| b2.toUInt64 <<< 16 ||| b3.toUInt64 <<< 24 =
        UInt64.ofNat (word [b0, b1, b2, b3]) := by
      have whole := or_bytes b0.toNat_lt b1.toNat_lt b2.toNat_lt b3.toNat
      have bound : word [b0, b1, b2, b3] < 256 ^ 4 := word_lt _
      apply UInt64.toNat_inj.mp
      rw [UInt64.toNat_or, UInt64.toNat_or, UInt64.toNat_or, shift64_toNat b1 (by decide),
        shift64_toNat b2 (by decide), shift64_toNat b3 (by decide), UInt8.toNat_toUInt64,
        UInt64.toNat_ofNat_of_lt' (bound.trans (by decide))]
      exact whole
    simp only [uartRecv, line, Option.bind_some, value]
    rfl

theorem bytesAt_succ (addr size : Nat) (mem : Mem) :
    bytesAt addr (size + 1) mem = mem.byte addr :: bytesAt (addr + 1) size mem := by
  simp [bytesAt, List.range_succ_eq_map, Function.comp_def, Nat.add_assoc, Nat.add_comm 1]

theorem loadU32Le_eq {p : UInt64} (mem : Mem) (fits : p.toNat + 4 ≤ 2 ^ 64) :
    (loadU32Le p mem).toNat = word (bytesAt p.toNat 4 mem) := by
  have second : (p + 1).toNat = p.toNat + 1 := offset_toNat (i := 1) (by change p.toNat + 1 < 2 ^ 64; omega)
  have third : (p + 2).toNat = p.toNat + 2 := offset_toNat (i := 2) (by change p.toNat + 2 < 2 ^ 64; omega)
  have fourth : (p + 3).toNat = p.toNat + 3 := offset_toNat (i := 3) (by change p.toNat + 3 < 2 ^ 64; omega)
  unfold loadU32Le
  rw [second, third, fourth, UInt32.toNat_or, UInt32.toNat_or, UInt32.toNat_or, shift32_toNat _ (by decide),
    shift32_toNat _ (by decide), shift32_toNat _ (by decide), UInt8.toNat_toUInt32]
  exact or_bytes (mem.byte _).toNat_lt (mem.byte _).toNat_lt (mem.byte _).toNat_lt _

theorem checksumFrom_eq (data : UInt64) (mem : Mem) (left : Nat) (i sum : UInt64)
    (fits : data.toNat + i.toNat + left < 2 ^ 64) (small : sum.toNat < 0x100000000) :
    (checksumFrom data mem left i sum).toNat =
      (sum.toNat + total (bytesAt (data.toNat + i.toNat) left mem)) % 0x100000000 := by
  induction left generalizing i sum with
  | zero => exact (Nat.mod_eq_of_lt small).symm
  | succ left ih =>
    have here := offset_toNat (by omega : data.toNat + i.toNat < 2 ^ 64)
    have next : (i + 1).toNat = i.toNat + 1 := offset_toNat (i := 1) (by change i.toNat + 1 < 2 ^ 64; omega)
    have byte := (mem.byte (data.toNat + i.toNat)).toNat_lt
    have added : ((sum + (mem.byte (data + i).toNat).toUInt64) &&& 0xffffffff).toNat =
        (sum.toNat + (mem.byte (data.toNat + i.toNat)).toNat) % 0x100000000 := by
      rw [UInt64.toNat_and, UInt64.toNat_add, UInt8.toNat_toUInt64, here, Nat.mod_eq_of_lt (by omega)]
      exact Nat.and_two_pow_sub_one_eq_mod _ 32
    rw [checksumFrom, ih _ _ (by omega) (by rw [added]; exact Nat.mod_lt _ (by decide)), added, next, bytesAt_succ,
      total_cons, Nat.mod_add_mod, Nat.add_assoc, Nat.add_assoc]

theorem checksumBytes_eq {data : UInt64} (mem : Mem) (fits : data.toNat + size.toNat < 2 ^ 64) :
    (checksumBytes data size mem).toNat = sum32 (bytesAt data.toNat size.toNat mem) := by
  have whole := checksumFrom_eq data mem size.toNat 0 0 (by simpa using fits) (by decide)
  rw [UInt64.toNat_zero, Nat.add_zero, Nat.zero_add] at whole
  exact whole

theorem copyBytes_move (dst src size : UInt64) (mem : Mem) (x : Nat) : (copyBytes dst src size mem).byte x =
    if dst.toNat ≤ x ∧ x < dst.toNat + size.toNat then mem.byte (src.toNat + (x - dst.toNat)) else mem.byte x := by
  unfold copyBytes
  split
  next lower =>
    have below := UInt64.lt_iff_toNat_lt.mp lower
    exact copyBytes_byte dst.toNat src.toNat size.toNat 0 mem (.inl below.le) x
  next notLower =>
    split
    next higher =>
      have above := UInt64.lt_iff_toNat_lt.mp higher
      exact copyBytesBack_byte dst.toNat src.toNat size.toNat mem (.inl above.le) x
    next notHigher =>
      have same : dst.toNat = src.toNat := by
        rw [UInt64.lt_iff_toNat_lt] at notLower notHigher
        omega
      split
      next inside => rw [← same, Nat.add_sub_cancel' inside.1]
      · rfl

theorem uartLoadImagePayload_runs {dst maxSize : UInt64} (loadAddr size expectedSum : UInt64) (s : Loader)
    (fits : dst.toNat + maxSize.toNat < 2 ^ 64) :
    if (size ≠ 0 ∧ size ≤ maxSize) ∧ size.toNat ≤ s.line.length ∧
        checksumBytes dst size (place dst.toNat (s.line.take size.toNat) s.mem) = expectedSum then
      ∃ sent, uartLoadImagePayload dst maxSize loadAddr size expectedSum none s = some (0, { s with
        line := s.line.drop size.toNat
        mem := place dst.toNat (s.line.take size.toNat) s.mem
        sent := sent })
    else ∀ s', uartLoadImagePayload dst maxSize loadAddr size expectedSum none s ≠ some (0, s') := by
  unfold uartLoadImagePayload
  simp only [uartSendString, uartSendDec, uartSendHex]
  by_cases bad : size = 0 ∨ size > maxSize
  · rw [if_pos bad, if_neg (by grind)]
    simp only [send_bind, pure_apply]
    simp
  · have small : size.toNat ≤ maxSize.toNat := UInt64.le_iff_toNat_le.mp (by grind)
    rw [if_neg bad]
    simp only [send_bind]
    rw [bind_apply, recvBytes_eq _ (by omega)]
    dsimp only
    by_cases arrives : size.toNat ≤ s.line.length
    · rw [if_pos arrives, Option.bind_some, get_bind]
      dsimp only
      by_cases right : checksumBytes dst size (place dst.toNat (s.line.take size.toNat) s.mem) = expectedSum
      · rw [if_pos ⟨by grind, arrives, right⟩, if_neg (not_not.mpr right)]
        exact ⟨_, rfl⟩
      · rw [if_neg (fun all => right all.2.2), if_pos right]
        simp only [send_bind, pure_apply]
        simp
    · rw [if_neg arrives, if_neg (fun all => arrives all.2.1)]
      simp

structure Holds (addr : Nat) (payload : List UInt8) (mem : Mem) : Prop where
  byte : ∀ i (inside : i < payload.length), mem.byte (addr + i) = payload[i]

variable {payload : List UInt8} {mem : Mem}

theorem Holds.range {addr : Nat} (holds : Holds addr payload mem) {off n : Nat}
    (inside : off + n ≤ payload.length) : bytesAt (addr + off) n mem = (payload.drop off).take n := by
  have length : ((payload.drop off).take n).length = n := by simp; omega
  have equal : bytesAt (addr + off) ((payload.drop off).take n).length mem = (payload.drop off).take n := by
    refine bytesAt_eq fun i small => ?_
    rw [Nat.add_assoc, holds.byte (off + i) (by omega)]
    simp
  rwa [length] at equal

structure Unpackable (bundle size : UInt64) (mem : Mem) : Prop where
  long : ¬ size < 16
  layout : ¬ (loadU32Le bundle mem = 0 ∨ (loadU32Le bundle mem).toUInt64 > uartBootMaxSize ∨
    loadU32Le (bundle + 4) mem = 0 ∨ (loadU32Le (bundle + 4) mem).toUInt64 > uartInitrdMaxSize ∨
    16 + (loadU32Le bundle mem).toUInt64 + (loadU32Le (bundle + 4) mem).toUInt64 ≠ size)
  sums : ¬ (checksumBytes (bundle + 16) (loadU32Le bundle mem).toUInt64 mem ≠
    (loadU32Le (bundle + 8) mem).toUInt64 ∨
    checksumBytes (bundle + 16 + (loadU32Le bundle mem).toUInt64) (loadU32Le (bundle + 4) mem).toUInt64 mem ≠
      (loadU32Le (bundle + 12) mem).toUInt64)

structure Fields (bundle : UInt64) (payload : List UInt8) (mem : Mem) : Prop where
  kernelSize : (loadU32Le bundle mem).toNat = word (payload.take 4)
  initrdSize : (loadU32Le (bundle + 4) mem).toNat = word ((payload.drop 4).take 4)
  kernelSum : (loadU32Le (bundle + 8) mem).toNat = word ((payload.drop 8).take 4)
  initrdSum : (loadU32Le (bundle + 12) mem).toNat = word ((payload.drop 12).take 4)

variable {bundle : UInt64}

theorem Holds.fields (holds : Holds bundle.toNat payload mem)
    (long : 16 ≤ payload.length) (fits : bundle.toNat + payload.length < 2 ^ 64) : Fields bundle payload mem := by
  have field : ∀ off : UInt64, off.toNat + 4 ≤ 16 →
      (loadU32Le (bundle + off) mem).toNat = word ((payload.drop off.toNat).take 4) := by
    intro off inside
    have here := offset_toNat (by omega : bundle.toNat + off.toNat < 2 ^ 64)
    rw [loadU32Le_eq mem (by omega), here, holds.range (by omega)]
  have first := field 0 (by decide)
  rw [UInt64.add_zero] at first
  exact ⟨first, field 4 (by decide), field 8 (by decide), field 12 (by decide)⟩

theorem Fields.layout (fields : Fields bundle payload mem) (length : size.toNat = payload.length) :
    ¬ (loadU32Le bundle mem = 0 ∨ (loadU32Le bundle mem).toUInt64 > uartBootMaxSize ∨
      loadU32Le (bundle + 4) mem = 0 ∨ (loadU32Le (bundle + 4) mem).toUInt64 > uartInitrdMaxSize ∨
      16 + (loadU32Le bundle mem).toUInt64 + (loadU32Le (bundle + 4) mem).toUInt64 ≠ size) ↔
    (1 ≤ word (payload.take 4) ∧ word (payload.take 4) ≤ 16 * 1024 * 1024) ∧
      (1 ≤ word ((payload.drop 4).take 4) ∧ word ((payload.drop 4).take 4) ≤ 64 * 1024 * 1024) ∧
      16 + word (payload.take 4) + word ((payload.drop 4).take 4) = payload.length := by
  have kernelBound := (loadU32Le bundle mem).toNat_lt
  have initrdBound := (loadU32Le (bundle + 4) mem).toNat_lt
  have needed : (16 + (loadU32Le bundle mem).toUInt64 + (loadU32Le (bundle + 4) mem).toUInt64).toNat =
      16 + (loadU32Le bundle mem).toNat + (loadU32Le (bundle + 4) mem).toNat := by
    rw [UInt64.toNat_add, UInt64.toNat_add, UInt32.toNat_toUInt64, UInt32.toNat_toUInt64]
    change ((16 + _) % 2 ^ 64 + _) % 2 ^ 64 = _
    omega
  have kernelMax : uartBootMaxSize.toNat = 16 * 1024 * 1024 := by decide
  have initrdMax : uartInitrdMaxSize.toNat = 64 * 1024 * 1024 := by decide
  simp only [ne_eq, gt_iff_lt, UInt64.lt_iff_toNat_lt, ← UInt32.toNat_inj, ← UInt64.toNat_inj, needed,
    UInt32.toNat_toUInt64, UInt32.toNat_zero, kernelMax, initrdMax, fields.kernelSize, fields.initrdSize, length]
  omega

theorem Holds.image_sum {addr : Nat} (holds : Holds addr payload mem)
    (fits : addr + payload.length < 2 ^ 64) {src : UInt64} {off : Nat} (start : src.toNat = addr + off) (size : UInt32)
    (inside : off + size.toNat ≤ payload.length) (sum : UInt32) :
    checksumBytes src size.toUInt64 mem = sum.toUInt64 ↔ sum.toNat = sum32 ((payload.drop off).take size.toNat) := by
  have bound : src.toNat + size.toUInt64.toNat < 2 ^ 64 := by
    rw [UInt32.toNat_toUInt64]
    omega
  have computed := checksumBytes_eq mem bound
  rw [UInt32.toNat_toUInt64, start, holds.range inside] at computed
  rw [← UInt64.toNat_inj, computed, UInt32.toNat_toUInt64, eq_comm]

theorem exists_images {k i : Nat} (kernelSize : 1 ≤ k ∧ k ≤ 16 * 1024 * 1024)
    (initrdSize : 1 ≤ i ∧ i ≤ 64 * 1024 * 1024) (whole : 16 + k + i = payload.length) :
    Sized ((payload.drop 16).take k) ((payload.drop (16 + k)).take i) ∧
      ((payload.drop 16).take k).length = k ∧ ((payload.drop (16 + k)).take i).length = i ∧
      payload.drop 16 = (payload.drop 16).take k ++ (payload.drop (16 + k)).take i := by
  have kernelLength : ((payload.drop 16).take k).length = k := by simp; omega
  have initrdLength : ((payload.drop (16 + k)).take i).length = i := by simp; omega
  have rest : (payload.drop (16 + k)).take i = payload.drop (16 + k) := List.take_of_length_le (by simp; omega)
  refine ⟨⟨by rwa [kernelLength], by rwa [initrdLength]⟩, kernelLength, initrdLength, ?_⟩
  rw [rest, ← List.drop_drop, List.take_append_drop]

theorem Holds.images (holds : Holds bundle.toNat payload mem)
    (fits : bundle.toNat + payload.length < 2 ^ 64) (fields : Fields bundle payload mem)
    (whole : 16 + word (payload.take 4) + word ((payload.drop 4).take 4) = payload.length) :
    (checksumBytes (bundle + 16) (loadU32Le bundle mem).toUInt64 mem = (loadU32Le (bundle + 8) mem).toUInt64 ↔
      word ((payload.drop 8).take 4) = sum32 ((payload.drop 16).take (word (payload.take 4)))) ∧
    (checksumBytes (bundle + 16 + (loadU32Le bundle mem).toUInt64) (loadU32Le (bundle + 4) mem).toUInt64 mem =
        (loadU32Le (bundle + 12) mem).toUInt64 ↔
      word ((payload.drop 12).take 4) =
        sum32 ((payload.drop (16 + word (payload.take 4))).take (word ((payload.drop 4).take 4)))) := by
  have kernelSrc : (bundle + 16).toNat = bundle.toNat + 16 :=
    offset_toNat (i := 16) (by change bundle.toNat + 16 < 2 ^ 64; omega)
  have initrdSrc : (bundle + 16 + (loadU32Le bundle mem).toUInt64).toNat =
      bundle.toNat + (16 + word (payload.take 4)) := by
    rw [offset_toNat (by rw [UInt32.toNat_toUInt64, kernelSrc, fields.kernelSize]; omega), kernelSrc,
      UInt32.toNat_toUInt64, fields.kernelSize, Nat.add_assoc]
  have kernel := holds.image_sum fits kernelSrc (loadU32Le bundle mem) (by rw [fields.kernelSize]; omega)
    (loadU32Le (bundle + 8) mem)
  have initrd := holds.image_sum fits initrdSrc (loadU32Le (bundle + 4) mem) (by rw [fields.initrdSize]; omega)
    (loadU32Le (bundle + 12) mem)
  rw [fields.kernelSum, fields.kernelSize] at kernel
  rw [fields.initrdSum, fields.initrdSize] at initrd
  exact ⟨kernel, initrd⟩

theorem unpackable_iff
    (holds : Holds bundle.toNat payload mem) (length : size.toNat = payload.length)
    (fits : bundle.toNat + payload.length < 2 ^ 64) :
    Unpackable bundle size mem ↔ ∃ kernel initrd, Sized kernel initrd ∧ payload = payloadOf kernel initrd := by
  have isLong : ¬ size < 16 ↔ 16 ≤ payload.length := by
    rw [UInt64.lt_iff_toNat_lt, length]
    exact not_lt
  constructor
  · intro right
    have long := isLong.mp right.long
    have fields := holds.fields long fits
    obtain ⟨kernelSize, initrdSize, whole⟩ := (fields.layout length).mp right.layout
    obtain ⟨kernelSum, initrdSum⟩ := holds.images fits fields whole
    obtain ⟨kernelRight, initrdRight⟩ := not_or.mp right.sums
    obtain ⟨sized, kernelLength, initrdLength, contents⟩ := exists_images kernelSize initrdSize whole
    exact ⟨_, _, sized, (payloadOf_iff sized).mpr ⟨long, kernelLength.symm, initrdLength.symm,
      kernelSum.mp (not_not.mp kernelRight), initrdSum.mp (not_not.mp initrdRight), contents⟩⟩
  · rintro ⟨kernel, initrd, sized, isPayload⟩
    obtain ⟨long, kernelSize, initrdSize, kernelSum, initrdSum, contents⟩ := (payloadOf_iff sized).mp isPayload
    have fields := holds.fields long fits
    have whole : 16 + word (payload.take 4) + word ((payload.drop 4).take 4) = payload.length := by
      rw [kernelSize, initrdSize, isPayload, payloadOf_length]
    obtain ⟨kernelCheck, initrdCheck⟩ := holds.images fits fields whole
    refine ⟨isLong.mpr long,
      (fields.layout length).mpr ⟨kernelSize ▸ sized.kernel, initrdSize ▸ sized.initrd, whole⟩,
      not_or.mpr ⟨not_not.mpr (kernelCheck.mpr ?_), not_not.mpr (initrdCheck.mpr ?_)⟩⟩
    · rw [kernelSum, kernelSize, contents, List.take_left]
    · rw [initrdSum, kernelSize, initrdSize, ← List.drop_drop, contents, List.drop_left, List.take_length]

theorem initrd_inRange (board : Board) {size : UInt32} (small : ¬ size.toUInt64 > uartInitrdMaxSize) :
    (uartInitrdLoadAddr board + size.toUInt64).toNat = (uartInitrdLoadAddr board).toNat + size.toNat := by
  have bound : size.toUInt64.toNat ≤ uartInitrdMaxSize.toNat := by
    rw [gt_iff_lt, UInt64.lt_iff_toNat_lt] at small
    omega
  have room : (uartInitrdLoadAddr board).toNat + uartInitrdMaxSize.toNat < 2 ^ 64 := by cases board <;> decide
  rw [offset_toNat (by omega), UInt32.toNat_toUInt64]

theorem unpackBundle_runs (board : Board) (size : UInt64) (s : Loader) :
    (Unpackable (uartBootLoadAddr board) size s.mem →
      ∃ sent, unpackBundle board size s = some (true, { s with
        mem := copyBytes (uartInitrdLoadAddr board)
          (uartBootLoadAddr board + 16 + (loadU32Le (uartBootLoadAddr board) s.mem).toUInt64)
          (loadU32Le (uartBootLoadAddr board + 4) s.mem).toUInt64
          (copyBytes (uartBootLoadAddr board) (uartBootLoadAddr board + 16)
            (loadU32Le (uartBootLoadAddr board) s.mem).toUInt64 s.mem)
        initrdStart := uartInitrdLoadAddr board
        initrdEnd := uartInitrdLoadAddr board + (loadU32Le (uartBootLoadAddr board + 4) s.mem).toUInt64
        sent := sent })) ∧
    ∀ s', unpackBundle board size s = some (true, s') → Unpackable (uartBootLoadAddr board) size s.mem := by
  unfold unpackBundle
  simp only [uartSendString, uartSendDec]
  constructor
  · intro right
    have inRange := initrd_inRange board fun large => right.layout (.inr (.inr (.inr (.inl large))))
    rw [if_neg right.long]
    simp only [get_bind]
    rw [if_neg right.layout]
    simp only [get_bind]
    rw [if_neg right.sums]
    simp only [modify_bind, get_bind]
    rw [if_neg (by rw [UInt64.lt_iff_toNat_lt, inRange]; omega)]
    simp only [send_bind]
    exact ⟨_, rfl⟩
  · intro s' accepted
    split at accepted
    next short =>
      simp only [send_bind, pure_apply] at accepted
      simp at accepted
    next long =>
      simp only [get_bind] at accepted
      split at accepted
      next bad =>
        simp only [send_bind, pure_apply] at accepted
        simp at accepted
      next layout =>
        simp only [get_bind] at accepted
        split at accepted
        next bad =>
          simp only [send_bind, pure_apply] at accepted
          simp at accepted
        next sums => exact ⟨long, layout, sums⟩

theorem handOff_runs (board : Board) (s : Loader) :
    ∃ sent, handOff board s =
      some
        (⟨uartBootLoadAddr board, s.bootHartid, s.dtb, s.initrdStart, s.initrdEnd⟩, { s with sent := sent }) := by
  unfold handOff
  simp only [uartSendString, uartSendHex, send_bind, get_bind]
  split
  · simp only [send_bind, get_bind]
    exact ⟨_, rfl⟩
  · simp only [send_bind, get_bind]
    exact ⟨_, rfl⟩

theorem recvHeader_eq {β : Type} (f : UInt64 → UInt64 → UInt64 → Load β) (s : Loader) :
    (recvU32Le >>= fun magic => recvU32Le >>= fun size => recvU32Le >>= fun sum => f magic size sum) s =
      if 12 ≤ s.line.length then
        f (.ofNat (word (s.line.take 4))) (.ofNat (word ((s.line.drop 4).take 4)))
          (.ofNat (word ((s.line.drop 8).take 4))) { s with line := s.line.drop 12 }
      else none := by
  simp only [bind_apply, recvU32Le_eq]
  by_cases first : 4 ≤ s.line.length
  · rw [if_pos first, Option.bind_some]
    dsimp only
    by_cases second : 4 ≤ (s.line.drop 4).length
    · rw [if_pos second, Option.bind_some]
      dsimp only
      rw [List.drop_drop]
      by_cases third : 4 ≤ (s.line.drop 8).length
      · rw [if_pos third, Option.bind_some, if_pos (by rw [List.length_drop] at third; omega), List.drop_drop]
      · rw [if_neg third, Option.bind_none, if_neg (by rw [List.length_drop] at third; omega)]
    · rw [if_neg second, Option.bind_none, if_neg (by rw [List.length_drop] at second; omega)]
  · rw [if_neg first, Option.bind_none, if_neg (by omega)]

theorem payload_placed (addr : Nat) (payload : List UInt8) (mem : Mem) :
    Holds addr payload (place addr payload mem) := ⟨fun _ inside => place_byte addr payload mem inside⟩

theorem load_room (board : Board) : (uartBootLoadAddr board).toNat + uartBootBundleMaxSize.toNat < 2 ^ 64 := by
  cases board <;> decide

theorem checksum_placed (board : Board) (length : size.toNat = payload.length)
    (bounded : size ≤ uartBootBundleMaxSize) (mem : Mem) :
    (checksumBytes (uartBootLoadAddr board) size (place (uartBootLoadAddr board).toNat payload mem)).toNat =
      sum32 payload := by
  have room := load_room board
  have small := UInt64.le_iff_toNat_le.mp bounded
  have whole := bytesAt_eq (payload_placed (uartBootLoadAddr board).toNat payload mem).byte
  rw [checksumBytes_eq _ (by omega), length, whole]

def unpacked (board : Board) (payload : List UInt8) (s : Loader) : Loader :=
  let bundle := uartBootLoadAddr board
  let mem := place bundle.toNat payload s.mem
  { s with
    mem := copyBytes (uartInitrdLoadAddr board) (bundle + 16 + (loadU32Le bundle mem).toUInt64)
      (loadU32Le (bundle + 4) mem).toUInt64 (copyBytes bundle (bundle + 16) (loadU32Le bundle mem).toUInt64 mem)
    initrdStart := uartInitrdLoadAddr board
    initrdEnd := uartInitrdLoadAddr board + (loadU32Le (bundle + 4) mem).toUInt64 }

theorem receiveBundle_runs (board : Board) (size expectedSum : UInt64) (s : Loader) :
    (∀ payload rest, s.line = payload ++ rest → size.toNat = payload.length → size ≠ 0 →
      size ≤ uartBootBundleMaxSize → expectedSum.toNat = sum32 payload →
      Unpackable (uartBootLoadAddr board) size (place (uartBootLoadAddr board).toNat payload s.mem) →
      ∃ sent, receiveBundle board size expectedSum s =
        some (true, { unpacked board payload s with line := rest, sent := sent })) ∧
    ∀ s', receiveBundle board size expectedSum s = some (true, s') →
      ∃ payload rest, s.line = payload ++ rest ∧ size.toNat = payload.length ∧ size ≠ 0 ∧
        size ≤ uartBootBundleMaxSize ∧ expectedSum.toNat = sum32 payload ∧
        Unpackable (uartBootLoadAddr board) size (place (uartBootLoadAddr board).toNat payload s.mem) := by
  have loads := uartLoadImagePayload_runs (uartBootLoadAddr board) size expectedSum s (load_room board)
  unfold receiveBundle
  rw [bind_apply]
  constructor
  · intro payload rest line length nonzero bounded sum right
    have taken : s.line.take size.toNat = payload := by rw [line, length, List.take_left]
    have left : s.line.drop size.toNat = rest := by rw [line, length, List.drop_left]
    have summed : checksumBytes (uartBootLoadAddr board) size
        (place (uartBootLoadAddr board).toNat payload s.mem) = expectedSum :=
      UInt64.toNat_inj.mp ((checksum_placed board length bounded s.mem).trans sum.symm)
    rw [taken, left, if_pos ⟨⟨nonzero, bounded⟩, by rw [length, line, List.length_append]; omega, summed⟩]
      at loads
    obtain ⟨said, loads⟩ := loads
    obtain ⟨sent, unpacks⟩ := (unpackBundle_runs board size { s with
      line := rest
      mem := place (uartBootLoadAddr board).toNat payload s.mem
      sent := said }).1 right
    rw [loads, Option.bind_some, if_neg (not_not.mpr rfl)]
    exact ⟨sent, unpacks⟩
  · intro s' accepted
    split at loads
    next checked =>
      obtain ⟨⟨nonzero, bounded⟩, arrives, summed⟩ := checked
      obtain ⟨said, loads⟩ := loads
      have length : size.toNat = (s.line.take size.toNat).length := (List.length_take_of_le arrives).symm
      rw [loads, Option.bind_some, if_neg (not_not.mpr rfl)] at accepted
      refine ⟨s.line.take size.toNat, s.line.drop size.toNat, (List.take_append_drop _ _).symm, length, nonzero,
        bounded, ?_, (unpackBundle_runs board size _).2 s' accepted⟩
      rw [← summed, checksum_placed board length bounded]
    next wrong =>
      -- the other answer of the first function ends the command
      obtain ⟨answer, first, goes⟩ := Option.bind_eq_some_iff.mp accepted
      by_cases zero : answer.1 = 0
      · have loaded : answer = (0, answer.2) := Prod.ext zero rfl
        exact absurd (loaded ▸ first) (loads answer.2)
      · rw [if_pos zero, pure_apply] at goes
        simp at goes

theorem bootLoadAndJump_jumps (board : Board) (s : Loader) {rest : List UInt8}
    (line : s.line = headerOf payload ++ payload ++ rest) (positive : 0 < payload.length)
    (bounded : payload.length ≤ uartBootBundleMaxSize.toNat)
    (right : Unpackable (uartBootLoadAddr board) (UInt64.ofNat payload.length)
      (place (uartBootLoadAddr board).toNat payload s.mem)) :
    ∃ sent, bootLoadAndJump board s = some (some ⟨uartBootLoadAddr board, s.bootHartid, s.dtb,
      (unpacked board payload s).initrdStart, (unpacked board payload s).initrdEnd⟩,
      { unpacked board payload s with line := rest, sent := sent }) := by
  have max : uartBootBundleMaxSize.toNat = 83886096 := by decide
  obtain ⟨long, magic, size, sum, contents⟩ := (headerOf_iff (by omega)).mp line
  have number : (UInt64.ofNat payload.length).toNat = payload.length :=
    UInt64.toNat_ofNat_of_lt' (Nat.lt_of_le_of_lt bounded (by decide))
  have summed : (UInt64.ofNat (sum32 payload)).toNat = sum32 payload :=
    UInt64.toNat_ofNat_of_lt' ((sum32_lt payload).trans (by decide))
  have small : UInt64.ofNat payload.length ≤ uartBootBundleMaxSize := UInt64.le_iff_toNat_le.mpr (by omega)
  have nonzero : UInt64.ofNat payload.length ≠ 0 := by
    intro zero
    rw [zero, UInt64.toNat_zero] at number
    omega
  obtain ⟨said, receives⟩ := (receiveBundle_runs board (.ofNat payload.length) (.ofNat (sum32 payload)) { s with
    line := s.line.drop 12
    sent := s.sent ++ [.string "UART loader ready for kernel+initrd bundle\n"] ++
      [.string "send header <magic,size,checksum> then payload\n"] }).1 payload rest contents number nonzero small
    summed right
  obtain ⟨sent, hands⟩ := handOff_runs board { unpacked board payload s with line := rest, sent := said }
  refine ⟨sent, ?_⟩
  unfold bootLoadAndJump
  simp only [uartSendString, uartSendHex, send_bind]
  rw [recvHeader_eq]
  dsimp only
  rw [if_pos long, if_pos (by rw [magic]; rfl), size, sum, bind_apply, receives, Option.bind_some]
  change (handOff board >>= _) { unpacked board payload s with line := rest, sent := said } = _
  rw [bind_apply, hands]
  rfl

theorem word_toNat (bytes : List UInt8) (n : Nat) :
    (UInt64.ofNat (word ((bytes.drop n).take 4))).toNat = word ((bytes.drop n).take 4) := by
  have bound := word_lt ((bytes.drop n).take 4)
  have short : ((bytes.drop n).take 4).length ≤ 4 := List.length_take_le _ _
  have small : word ((bytes.drop n).take 4) < 256 ^ 4 :=
    bound.trans_le (Nat.pow_le_pow_right (by decide) short)
  exact UInt64.toNat_ofNat_of_lt' (small.trans (by decide))

theorem bootLoadAndJump_received {board : Board} {s s' : Loader} {jump : Jump}
    (accepted : bootLoadAndJump board s = some (some jump, s')) :
    ∃ payload rest, s.line = headerOf payload ++ payload ++ rest ∧
      payload.length ≤ uartBootBundleMaxSize.toNat ∧
      Unpackable (uartBootLoadAddr board) (UInt64.ofNat payload.length)
        (place (uartBootLoadAddr board).toNat payload s.mem) := by
  have max : uartBootBundleMaxSize.toNat = 83886096 := by decide
  unfold bootLoadAndJump at accepted
  simp only [uartSendString, uartSendHex, send_bind] at accepted
  rw [recvHeader_eq] at accepted
  dsimp only at accepted
  split at accepted
  next long =>
    split at accepted
    next magic =>
      rw [bind_apply] at accepted
      obtain ⟨⟨received, after⟩, receives, goes⟩ := Option.bind_eq_some_iff.mp accepted
      cases received with
      | false => simp [pure_apply] at goes
      | true =>
        obtain ⟨payload, rest, contents, length, -, bounded, sum, right⟩ :=
          (receiveBundle_runs board _ _ _).2 after receives
        have small := UInt64.le_iff_toNat_le.mp bounded
        have spells := word_toNat s.line 0
        rw [List.drop_zero, magic] at spells
        rw [word_toNat] at length sum
        rw [length] at right
        rw [word_toNat] at small
        refine ⟨payload, rest, (headerOf_iff (by omega)).mpr ⟨long, spells.symm, length, sum, contents⟩, by omega,
          right⟩
    · simp only [send_bind, pure_apply] at accepted
      simp at accepted
  · simp at accepted

theorem load_below (board : Board) :
    (uartBootLoadAddr board).toNat + uartBootBundleMaxSize.toNat ≤ (uartInitrdLoadAddr board).toNat := by
  cases board <;> decide

theorem unpacked_images (board : Board) {kernel initrd : List UInt8} (sized : Sized kernel initrd) (s : Loader) :
    bytesAt (uartBootLoadAddr board).toNat kernel.length (unpacked board (payloadOf kernel initrd) s).mem = kernel ∧
    bytesAt (uartInitrdLoadAddr board).toNat initrd.length (unpacked board (payloadOf kernel initrd) s).mem = initrd ∧
    (unpacked board (payloadOf kernel initrd) s).initrdEnd = uartInitrdLoadAddr board + UInt64.ofNat initrd.length := by
  have max : uartBootBundleMaxSize.toNat = 83886096 := by decide
  have room := load_room board
  have below := load_below board
  have kernelMax := sized.kernel
  have initrdMax := sized.initrd
  have length := payloadOf_length kernel initrd
  obtain ⟨long, kernelSize, initrdSize, -, -, contents⟩ := (payloadOf_iff sized).mp rfl
  have holds := payload_placed (uartBootLoadAddr board).toNat (payloadOf kernel initrd) s.mem
  have fields := holds.fields long (by omega)
  have kernelLength := fields.kernelSize.trans kernelSize
  have initrdLength := fields.initrdSize.trans initrdSize
  unfold unpacked
  dsimp only
  generalize place (uartBootLoadAddr board).toNat (payloadOf kernel initrd) s.mem =
    mem at holds kernelLength initrdLength ⊢
  have kernelSrc : (uartBootLoadAddr board + 16).toNat = (uartBootLoadAddr board).toNat + 16 :=
    offset_toNat (i := 16) (by change (uartBootLoadAddr board).toNat + 16 < 2 ^ 64; omega)
  have initrdSrc : (uartBootLoadAddr board + 16 + (loadU32Le (uartBootLoadAddr board) mem).toUInt64).toNat =
      (uartBootLoadAddr board).toNat + (16 + kernel.length) := by
    rw [offset_toNat (by rw [UInt32.toNat_toUInt64, kernelSrc, kernelLength]; omega), kernelSrc,
      UInt32.toNat_toUInt64, kernelLength, Nat.add_assoc]
  refine ⟨?_, ?_, ?_⟩
  · have source : bytesAt ((uartBootLoadAddr board).toNat + 16) kernel.length mem = kernel := by
      rw [holds.range (by omega), contents, List.take_left]
    refine (bytesAt_congr fun i inside => ?_).trans source
    rw [copyBytes_move, if_neg (by omega), copyBytes_move, UInt32.toNat_toUInt64, kernelLength,
      if_pos (by omega), kernelSrc, Nat.add_sub_cancel_left]
  · have source : bytesAt ((uartBootLoadAddr board).toNat + (16 + kernel.length)) initrd.length mem = initrd := by
      rw [holds.range (by omega), ← List.drop_drop, contents, List.drop_left, List.take_length]
    refine (bytesAt_congr fun i inside => ?_).trans source
    rw [copyBytes_move, UInt32.toNat_toUInt64, initrdLength, if_pos (by omega), initrdSrc, Nat.add_sub_cancel_left,
      copyBytes_move, UInt32.toNat_toUInt64, kernelLength, if_neg (by omega)]
  · congr 1
    apply UInt64.toNat_inj.mp
    rw [UInt32.toNat_toUInt64, initrdLength, UInt64.toNat_ofNat_of_lt' (Nat.lt_of_le_of_lt initrdMax.2 (by decide))]

theorem placed_unpackable (board : Board) (bounded : payload.length ≤ uartBootBundleMaxSize.toNat)
    (mem : Mem) :
    Unpackable (uartBootLoadAddr board) (UInt64.ofNat payload.length)
      (place (uartBootLoadAddr board).toNat payload mem) ↔
      ∃ kernel initrd, Sized kernel initrd ∧ payload = payloadOf kernel initrd := by
  have room := load_room board
  refine unpackable_iff (payload_placed _ _ _) ?_ (by omega)
  exact UInt64.toNat_ofNat_of_lt' (Nat.lt_of_le_of_lt bounded (by decide))

theorem bootLoadAndJump_accepts {board : Board} {s s' : Loader} {jump : Jump}
    (accepted : bootLoadAndJump board s = some (some jump, s')) :
    ∃ kernel initrd rest, Sized kernel initrd ∧
      s.line = headerOf (payloadOf kernel initrd) ++ payloadOf kernel initrd ++ rest := by
  obtain ⟨payload, rest, line, bounded, right⟩ := bootLoadAndJump_received accepted
  obtain ⟨kernel, initrd, sized, rfl⟩ := (placed_unpackable board bounded s.mem).mp right
  exact ⟨kernel, initrd, rest, sized, line⟩

theorem bootLoadAndJump_bundle (board : Board) {kernel initrd : List UInt8} (sized : Sized kernel initrd) :
    ∃ bundle, buildBundle kernel initrd = some bundle ∧
      (∀ s rest, s.line = bundle.header ++ bundle.payload ++ rest → ∃ s',
        bootLoadAndJump board s = some (some ⟨uartBootLoadAddr board, s.bootHartid, s.dtb, uartInitrdLoadAddr board,
          uartInitrdLoadAddr board + UInt64.ofNat initrd.length⟩, s') ∧ s'.line = rest ∧
        bytesAt (uartBootLoadAddr board).toNat kernel.length s'.mem = kernel ∧
        bytesAt (uartInitrdLoadAddr board).toNat initrd.length s'.mem = initrd) ∧
      (uartInitrdLoadAddr board + UInt64.ofNat initrd.length).toNat =
        (uartInitrdLoadAddr board).toNat + initrd.length ∧
      ∀ stream, OneOff (bundle.header ++ bundle.payload) stream → ∀ s further, s.line = stream ++ further →
        ∀ jump s', bootLoadAndJump board s ≠ some (some jump, s') := by
  have max : uartBootBundleMaxSize.toNat = 83886096 := by decide
  have kernelMax := sized.kernel
  have initrdMax := sized.initrd
  have length := payloadOf_length kernel initrd
  have bounded : (payloadOf kernel initrd).length ≤ uartBootBundleMaxSize.toNat := by omega
  refine ⟨_, buildBundle_sized sized, fun s rest line => ?_, ?_,
    fun stream off s further line jump s' accepted => ?_⟩
  · obtain ⟨kernelAt, initrdAt, ends⟩ := unpacked_images board sized s
    obtain ⟨sent, jumps⟩ := bootLoadAndJump_jumps board s line (by omega) bounded
      ((placed_unpackable board bounded s.mem).mpr ⟨kernel, initrd, sized, rfl⟩)
    rw [ends] at jumps
    exact ⟨_, jumps, rfl, kernelAt, initrdAt⟩
  · have small : (UInt64.ofNat initrd.length).toNat = initrd.length :=
      UInt64.toNat_ofNat_of_lt' (Nat.lt_of_le_of_lt initrdMax.2 (by decide))
    have room : (uartInitrdLoadAddr board).toNat + 64 * 1024 * 1024 < 2 ^ 64 := by cases board <;> decide
    rw [offset_toNat (by omega), small]
  · obtain ⟨kernel', initrd', rest, sized', accepts⟩ := bootLoadAndJump_accepts accepted
    exact bundle_apart sized sized' off (line.symm.trans accepts)

def sampleKernel : List UInt8 := [0x13, 0x00, 0x00, 0x00]

def sampleInitrd : List UInt8 := [0x30, 0x37]

def sampleLoader (line : List UInt8) : Loader where
  line := line
  sent := []
  mem := ⟨fun _ => 0⟩
  bootHartid := 1
  dtb := 0x90000000
  initrdStart := 0
  initrdEnd := 0

theorem bootLoadAndJump_bundle_sample :
    Sized sampleKernel sampleInitrd ∧ ∃ bundle, buildBundle sampleKernel sampleInitrd = some bundle ∧
      (∃ s', bootLoadAndJump .qemu (sampleLoader (bundle.header ++ bundle.payload ++ [0xff])) =
        some (some ⟨0x82000000, 1, 0x90000000, 0x88000000, 0x88000002⟩, s') ∧
        bytesAt 0x82000000 4 s'.mem = sampleKernel ∧ bytesAt 0x88000000 2 s'.mem = sampleInitrd) ∧
      ∃ stream, OneOff (bundle.header ++ bundle.payload) stream ∧
        ∀ jump s', bootLoadAndJump .qemu (sampleLoader stream) ≠ some (some jump, s') := by
  have sized : Sized sampleKernel sampleInitrd := ⟨by decide, by decide⟩
  obtain ⟨bundle, built, loads, -, rejects⟩ := bootLoadAndJump_bundle .qemu sized
  obtain ⟨s', jumps, -, kernelAt, initrdAt⟩ :=
    loads (sampleLoader (bundle.header ++ bundle.payload ++ [0xff])) [0xff] rfl
  have first : (buildBundle sampleKernel sampleInitrd).map (fun b => (b.header ++ b.payload).head?) =
      some (some 0x42) := by
    decide +kernel
  rw [built] at first
  obtain ⟨tail, begins⟩ := List.head?_eq_some_iff.mp (Option.some.inj first)
  have off : OneOff (bundle.header ++ bundle.payload) (0x43 :: tail) :=
    ⟨[], 0x42, 0x43, tail, begins, rfl, by decide⟩
  exact ⟨sized, bundle, built, ⟨s', jumps, kernelAt, initrdAt⟩, _, off,
    rejects _ off (sampleLoader (0x43 :: tail)) [] (List.append_nil _).symm⟩

end OrangeKernel.Boot
