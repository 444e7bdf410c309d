import OrangeKernel.Shared.EventLog
import OrangeKernel.Uart.Fifo
import OrangeKernel.Uart.Line

set_option autoImplicit false

namespace OrangeKernel.Uart

open Irq EventLog

def thrBytes (log : List Mmio) : List UInt8 :=
  log.filterMap fun
    | .thr c => some c
    | _ => none

def rbrBytes (log : List Mmio) : List UInt8 :=
  log.filterMap fun
    | .rbr c held => if held = 128 then none else some c
    | _ => none

def Licensed (before : List Mmio) : Mmio → Prop
  | .thr _ => ∃ earlier lsr, before = earlier ++ [.lsr lsr] ∧ txIdle lsr = true
  | .rbr _ _ => ∃ earlier lsr, before = earlier ++ [.lsr lsr] ∧ rxReady lsr = true
  | _ => True

structure PortOk (p : Port) (accepted returned : List UInt8) : Prop where
  tx : p.txBuf.Ok
  rx : p.rxBuf.Ok
  output : thrBytes p.log ++ p.txBuf.contents = accepted
  input : returned ++ p.rxBuf.contents = rbrBytes p.log
  licensed : ∀ before access after, p.log = before ++ access :: after → Licensed before access

section Sections

variable {p : Port} {accepted returned : List UInt8} (ok : PortOk p accepted returned)
include ok

theorem PortOk.licensed_note {access : Mmio} (this : Licensed p.log access) :
    ∀ before e after, (p.note access).log = before ++ e :: after → Licensed before e :=
  forall_split_snoc ok.licensed (fun _ _ _ _ holds => holds) this

theorem PortOk.mark : PortOk (p.note .mark) accepted returned :=
  { tx := ok.tx
    rx := ok.rx
    output := by simpa [Port.note, thrBytes] using ok.output
    input := by simpa [Port.note, rbrBytes] using ok.input
    licensed := ok.licensed_note trivial }

theorem PortOk.lsr (value : UInt32) : PortOk (p.note (.lsr value)) accepted returned :=
  { tx := ok.tx
    rx := ok.rx
    output := by simpa [Port.note, thrBytes] using ok.output
    input := by simpa [Port.note, rbrBytes] using ok.input
    licensed := ok.licensed_note trivial }

theorem PortOk.ier (ier : UInt32) : PortOk { p with ier := ier } accepted returned :=
  ⟨ok.tx, ok.rx, ok.output, ok.input, ok.licensed⟩

theorem PortOk.thr {lsr : UInt32} (idle : txIdle lsr = true) {txBuf : Ringbuf} (okAfter : txBuf.Ok) {c : UInt8}
    {accepted' : List UInt8}
    (moves : ∀ written, written ++ p.txBuf.contents = accepted → written ++ c :: txBuf.contents = accepted') :
    PortOk ({ p.note (.lsr lsr) with txBuf := txBuf }.note (.thr c)) accepted' returned := by
  have read := ok.lsr lsr
  refine ⟨okAfter, ok.rx, ?_, ?_, ?_⟩
  · have written := moves _ ok.output
    simpa [Port.note, thrBytes] using written
  · simpa [Port.note, rbrBytes] using ok.input
  · exact forall_split_snoc read.licensed (fun _ _ _ _ holds => holds) ⟨p.log, lsr, rfl, idle⟩

theorem PortOk.rbr {lsr : UInt32} (ready : rxReady lsr = true) {rxBuf : Ringbuf} (okAfter : rxBuf.Ok) {c : UInt8}
    {returned' : List UInt8}
    (moves : returned' ++ rxBuf.contents = returned ++ p.rxBuf.contents ++ if p.rxBuf.size = 128 then [] else [c]) :
    PortOk { (p.note (.lsr lsr)).note (.rbr c p.rxBuf.size) with rxBuf := rxBuf } accepted returned' := by
  have read := ok.lsr lsr
  refine ⟨ok.tx, okAfter, ?_, ?_, ?_⟩
  · simpa [Port.note, thrBytes] using ok.output
  · have noted : rbrBytes ((p.note (.lsr lsr)).note (.rbr c p.rxBuf.size)).log =
        rbrBytes p.log ++ if p.rxBuf.size = 128 then [] else [c] := by
      by_cases full : p.rxBuf.size = 128 <;> simp [Port.note, rbrBytes, full]
    rw [noted, ← ok.input]
    exact moves
  · exact forall_split_snoc read.licensed (fun _ _ _ _ holds => holds) ⟨p.log, lsr, rfl, ready⟩

theorem PortOk.drain (lsr : UInt32) : PortOk (uartTxTryDrainOne lsr p).2 accepted returned := by
  unfold uartTxTryDrainOne
  dsimp only
  split
  · exact ok.lsr lsr
  next idle =>
    split
    · exact ok.lsr lsr
    next c popped pop =>
      obtain ⟨okAfter, contents⟩ := ringbufPop_contents ok.tx pop
      refine ok.thr (by simpa using idle) okAfter fun written same => ?_
      rw [← same, ← contents]

theorem PortOk.waitIdle (lsr lsr' : UInt32) : PortOk (uartTxWaitIdle lsr lsr' p).2 accepted returned := by
  unfold uartTxWaitIdle
  split
  · dsimp only
    split
    · exact ok.lsr lsr
    · exact (ok.lsr lsr).drain lsr'
  · exact ok.drain lsr'

theorem PortOk.send (c : UInt8) (sleepable : Bool) (lsr : UInt32) :
    PortOk (uartSend c sleepable lsr p).2 (if (uartSend c sleepable lsr p).1 then accepted ++ [c] else accepted)
      returned := by
  unfold uartSend
  cases push : ringbufPush c p.txBuf with
  | some pushed =>
    obtain ⟨okAfter, contents, -⟩ := ringbufPush_contents ok.tx push
    have queued : PortOk { p with txBuf := pushed } (accepted ++ [c]) returned :=
      ⟨okAfter, ok.rx, by simp [contents, ← ok.output], ok.input, ok.licensed⟩
    exact queued.ier _
  | none =>
    have armed : PortOk (uartTxUnmask p) accepted returned := ok.ier _
    cases sleepable with
    | true => exact armed
    | false => exact armed.drain lsr

theorem PortOk.sendPolling (c : UInt8) (lsr : UInt32) :
    PortOk (uartSendPolling c lsr p).2 (if (uartSendPolling c lsr p).1 then accepted ++ [c] else accepted)
      returned := by
  unfold uartSendPolling
  by_cases filled : ringbufIsEmpty p.txBuf = false
  · rw [if_pos filled]
    exact ok.drain lsr
  · rw [if_neg filled]
    have empty : p.txBuf.contents = [] := (ringbufIsEmpty_iff _).mp (by simpa using filled)
    cases idle : txIdle lsr with
    | false => simpa [idle] using ok.lsr lsr
    | true =>
      simp only [if_true]
      refine ok.thr idle ok.tx fun written same => ?_
      rw [← same, empty, List.append_nil]

theorem PortOk.writeAsync (buf : Option (Nat → UInt8)) (size : UInt32) :
    (uartWriteAsync buf size p = (-1, p)) ∨
      ∃ bytes, buf = some bytes ∧ (uartWriteAsync buf size p).1 = 0 ∧
        PortOk (uartWriteAsync buf size p).2 (accepted ++ (List.range size.toNat).map bytes) returned := by
  cases buf with
  | none => exact Or.inl rfl
  | some bytes =>
    cases enabled : p.irqEnabled with
    | false => simp [uartWriteAsync, enabled]
    | true =>
      rw [uartWriteAsync_batch bytes size enabled]
      obtain ⟨-, refused⟩ | ⟨-, accepts, okAfter, contents⟩ := ok.tx.batch bytes size
      · simp [refused]
      · have queued : PortOk { p with txBuf := (pushBatch bytes size p.txBuf).2 }
            (accepted ++ (List.range size.toNat).map bytes) returned :=
          ⟨okAfter, ok.rx, by simp [contents, ← ok.output], ok.input, ok.licensed⟩
        refine Or.inr ⟨bytes, rfl, accepts, ?_⟩
        dsimp only
        split
        · exact queued.ier _
        · exact queued

theorem PortOk.recv : PortOk (uartRecv p).2 accepted (returned ++ (uartRecv p).1.toList) := by
  unfold uartRecv
  cases pop : ringbufPop p.rxBuf with
  | none => simpa using ok
  | some taken =>
    obtain ⟨okAfter, contents⟩ := ringbufPop_contents ok.rx pop
    exact ⟨ok.tx, okAfter, ok.output, by simp [← ok.input, contents], ok.licensed⟩

theorem PortOk.recvPolling (lsr : UInt32) (rbr : UInt8) :
    PortOk (uartRecvPolling lsr rbr p).2 accepted (returned ++ (uartRecvPolling lsr rbr p).1.toList) := by
  unfold uartRecvPolling
  cases pop : ringbufPop p.rxBuf with
  | some taken =>
    obtain ⟨okAfter, contents⟩ := ringbufPop_contents ok.rx pop
    exact ⟨ok.tx, okAfter, ok.output, by simp [← ok.input, contents], ok.licensed⟩
  | none =>
    have empty := ringbufPop_none pop
    have nothing : p.rxBuf.contents = [] := Ringbuf.contents_eq_nil.mpr empty
    cases ready : rxReady lsr with
    | false => simpa [ready] using ok.lsr lsr
    | true =>
      simp only [if_true]
      exact ok.rbr ready ok.rx (by simp [nothing, empty])

theorem PortOk.rxDrain (lsr : UInt32) (rbr : UInt8) : PortOk (uartRxDrain lsr rbr p).2 accepted returned := by
  unfold uartRxDrain
  cases ready : rxReady lsr with
  | false => simpa using ok.lsr lsr
  | true =>
    simp only [Bool.true_eq_false, if_false]
    split
    next pushed push =>
      have push : ringbufPush rbr p.rxBuf = some pushed := push
      obtain ⟨okAfter, contents, room⟩ := ringbufPush_contents ok.rx push
      exact ok.rbr ready okAfter (by simp [contents, room.ne])
    next push =>
      have push : ringbufPush rbr p.rxBuf = none := push
      exact ok.rbr ready ok.rx (by simp [ringbufPush_none push])

theorem PortOk.rearm (lsr : UInt32) (r : Runner) : PortOk (uartTxRearm lsr p r).1 accepted returned := by
  unfold uartTxRearm
  split
  · exact (ok.ier _).lsr lsr
  · exact ok.ier _

theorem PortOk.init (board : Memory.Board) (r : Runner) (tx : p.txBuf.contents = []) (rx : p.rxBuf.contents = []) :
    PortOk (uartIrqInit board p r).1 accepted returned := by
  refine ⟨ringbufInit_ok _, ringbufInit_ok _, ?_, ?_, ok.licensed⟩
  · have before := ok.output
    rw [tx] at before
    exact before
  · have before := ok.input
    rw [rx] at before
    exact before

end Sections

end OrangeKernel.Uart
