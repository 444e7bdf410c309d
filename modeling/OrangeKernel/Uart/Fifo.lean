import OrangeKernel.Uart.Port

set_option autoImplicit false

namespace OrangeKernel.Uart

def pushBatch (buf : Nat → UInt8) (size : UInt32) (rb : Ringbuf) : Int × Ringbuf :=
  if ringbufCapacity - rb.count < size then (-1, rb) else (0, pushFrom buf size.toNat 0 rb)

theorem uartWriteAsync_batch (buf : Nat → UInt8) (size : UInt32) {p : Port} (enabled : p.irqEnabled = true) :
    uartWriteAsync (some buf) size p =
      let queued := { p with txBuf := (pushBatch buf size p.txBuf).2 }
      ((pushBatch buf size p.txBuf).1,
        if (pushBatch buf size p.txBuf).1 = 0 ∧ size ≠ 0 then uartTxUnmask queued else queued) := by
  by_cases full : ringbufCapacity - p.txBuf.count < size
  · simp [uartWriteAsync, pushBatch, full]
  · simp [uartWriteAsync, pushBatch, enabled, full]

variable {rb : Ringbuf}

theorem pushFrom_contents (buf : Nat → UInt8) (left i : Nat) (ring : rb.Ok)
    (room : rb.size + left ≤ 128) :
    (pushFrom buf left i rb).Ok ∧
      (pushFrom buf left i rb).contents = rb.contents ++ (List.range' i left).map buf := by
  induction left generalizing i rb with
  | zero => exact ⟨ring, by simp [pushFrom]⟩
  | succ left ih =>
    cases push : ringbufPush (buf i) rb with
    | none =>
      have full := ringbufPush_none push
      omega
    | some pushed =>
      obtain ⟨okAfter, contents, -⟩ := ringbufPush_contents ring push
      have grown := (ringbufPush_size ring.count_le push).1
      obtain ⟨okLast, all⟩ := ih (i + 1) okAfter (by omega)
      refine ⟨by simpa [pushFrom, push] using okLast, ?_⟩
      simp [pushFrom, push, all, contents, List.range'_succ]

theorem Ringbuf.Ok.tooLarge_iff (ok : rb.Ok) (size : UInt32) :
    ringbufCapacity - rb.count < size ↔ 128 < rb.size + size.toNat := by
  have within : rb.count.toNat ≤ 128 := ok.count_le
  rw [UInt32.lt_iff_toNat_lt, UInt32.toNat_sub_of_le _ _ (UInt32.le_iff_toNat_le.mpr within)]
  simp only [ringbufCapacity, UInt32.reduceToNat, Ringbuf.size]
  omega

theorem Ringbuf.Ok.batch (ok : rb.Ok) (buf : Nat → UInt8) (size : UInt32) :
    128 < rb.size + size.toNat ∧ pushBatch buf size rb = (-1, rb) ∨
      rb.size + size.toNat ≤ 128 ∧ (pushBatch buf size rb).1 = 0 ∧ (pushBatch buf size rb).2.Ok ∧
        (pushBatch buf size rb).2.contents = rb.contents ++ (List.range size.toNat).map buf := by
  by_cases large : ringbufCapacity - rb.count < size
  · exact Or.inl ⟨(ok.tooLarge_iff size).mp large, by rw [pushBatch, if_pos large]⟩
  · have room : rb.size + size.toNat ≤ 128 := Nat.not_lt.mp fun more => large ((ok.tooLarge_iff size).mpr more)
    rw [pushBatch, if_neg large, List.range_eq_range']
    exact Or.inr ⟨room, rfl, pushFrom_contents buf size.toNat 0 ok room⟩

inductive RingCall where
  | init
  | push (c : UInt8)
  | pop
  | batch (buf : Nat → UInt8) (size : UInt32)

abbrev RingReply := Int × Option UInt8

def ringCall (rb : Ringbuf) : RingCall → RingReply × Ringbuf
  | .init => ((0, none), ringbufInit rb)
  | .push c =>
    match ringbufPush c rb with
    | none => ((-1, none), rb)
    | some pushed => ((0, none), pushed)
  | .pop =>
    match ringbufPop rb with
    | none => ((-1, none), rb)
    | some (c, popped) => ((0, some c), popped)
  | .batch buf size => (((pushBatch buf size rb).1, none), (pushBatch buf size rb).2)

def queueCall (q : List UInt8) : RingCall → RingReply × List UInt8
  | .init => ((0, none), [])
  | .push c => if q.length = 128 then ((-1, none), q) else ((0, none), q ++ [c])
  | .pop =>
    match q with
    | [] => ((-1, none), [])
    | c :: rest => ((0, some c), rest)
  | .batch buf size =>
    if 128 < q.length + size.toNat then ((-1, none), q)
    else ((0, none), q ++ (List.range size.toNat).map buf)

def replies {S : Type} (call : S → RingCall → RingReply × S) : List RingCall → S → List RingReply × S
  | [], s => ([], s)
  | c :: cs, s => ((call s c).1 :: (replies call cs (call s c).2).1, (replies call cs (call s c).2).2)

theorem Ringbuf.length_contents (rb : Ringbuf) : rb.contents.length = rb.size :=
  CircularWindow.length_window _ _ _ _

theorem Ringbuf.Ok.call (ok : rb.Ok) (c : RingCall) :
    (ringCall rb c).2.Ok ∧ ((ringCall rb c).1, (ringCall rb c).2.contents) = queueCall rb.contents c := by
  have length := rb.length_contents
  cases c with
  | init => exact ⟨ringbufInit_ok rb, rfl⟩
  | push c =>
    cases push : ringbufPush c rb with
    | none => simp [ringCall, queueCall, push, ok, length, ringbufPush_none push]
    | some pushed =>
      obtain ⟨okAfter, contents, room⟩ := ringbufPush_contents ok push
      simp [ringCall, queueCall, push, okAfter, contents, length, Nat.ne_of_lt room]
  | pop =>
    cases pop : ringbufPop rb with
    | none => simp [ringCall, queueCall, pop, ok, Ringbuf.contents_eq_nil.mpr (ringbufPop_none pop)]
    | some taken =>
      obtain ⟨okAfter, contents⟩ := ringbufPop_contents ok pop
      simp [ringCall, queueCall, pop, okAfter, contents]
  | batch buf size =>
    rcases ok.batch buf size with ⟨large, refused⟩ | ⟨room, accepted, okAfter, contents⟩
    · simp [ringCall, queueCall, refused, ok, length, large]
    · simp [ringCall, queueCall, accepted, okAfter, contents, length, Nat.not_lt.mpr room]

theorem Ringbuf.Ok.replies (ok : rb.Ok) (calls : List RingCall) :
    (Uart.replies ringCall calls rb).2.Ok ∧
      ((Uart.replies ringCall calls rb).1, (Uart.replies ringCall calls rb).2.contents) =
        Uart.replies queueCall calls rb.contents := by
  induction calls generalizing rb with
  | nil => exact ⟨ok, rfl⟩
  | cons c calls ih =>
    obtain ⟨okAfter, same⟩ := ok.call c
    obtain ⟨okLast, rest⟩ := ih okAfter
    refine ⟨okLast, ?_⟩
    simp only [Uart.replies, ← same, ← rest]

theorem ringbuf_refines_queue (rb : Ringbuf) (calls : List RingCall) :
    let ring := (replies ringCall calls (ringbufInit rb)).2
    (ring.head.toNat < 128 ∧ ring.tail.toNat < 128 ∧ ring.count.toNat ≤ 128 ∧
        ring.head.toNat = (ring.tail.toNat + ring.count.toNat) % 128) ∧
      ((replies ringCall calls (ringbufInit rb)).1, ring.contents) = replies queueCall calls [] ∧
      ∀ buf size, (pushBatch buf size ring).1 = 0 ∧ size.toNat ≤ 128 - ring.contents.length ∧
          (pushBatch buf size ring).2.contents = ring.contents ++ (List.range size.toNat).map buf ∨
        pushBatch buf size ring = (-1, ring) ∧ 128 - ring.contents.length < size.toNat := by
  intro ring
  obtain ⟨ok, same⟩ : ring.Ok ∧ _ := (ringbufInit_ok rb).replies calls
  refine ⟨⟨?_, ok.tail_lt, ok.count_le, ok.head_eq⟩, same, fun buf size => ?_⟩
  · rw [ok.head_eq]
    exact Nat.mod_lt _ (by decide)
  · have bound := ok.count_le
    rw [Ringbuf.length_contents]
    rcases ok.batch buf size with ⟨large, refused⟩ | ⟨room, accepted, -, contents⟩
    · exact Or.inr ⟨refused, by omega⟩
    · exact Or.inl ⟨accepted, by omega, contents⟩

end OrangeKernel.Uart
