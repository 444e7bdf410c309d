import OrangeKernel.Uart.Order

set_option autoImplicit false

namespace OrangeKernel.Uart

open Irq WordMask

def Port.rxArmed (p : Port) : Bool := p.ier &&& ierRxEnable ≠ 0

def Port.txArmed (p : Port) : Bool := p.ier &&& ierTxEnable ≠ 0

theorem rxArmed_eq (p : Port) : p.rxArmed = has p.ier 0 := by
  have zero : p.ier &&& (1 <<< UInt32.ofNat 0) = 0 ↔ has p.ier 0 = false := and_eq_zero_iff (by decide)
  have bit : (1 <<< UInt32.ofNat 0 : UInt32) = ierRxEnable := by decide
  rw [bit] at zero
  cases set : has p.ier 0 <;> simp [Port.rxArmed, zero, set]

theorem txArmed_eq (p : Port) : p.txArmed = has p.ier 1 := by
  have zero : p.ier &&& (1 <<< UInt32.ofNat 1) = 0 ↔ has p.ier 1 = false := and_eq_zero_iff (by decide)
  have bit : (1 <<< UInt32.ofNat 1 : UInt32) = ierTxEnable := by decide
  rw [bit] at zero
  cases set : has p.ier 1 <;> simp [Port.txArmed, zero, set]

theorem rxBits : has (ierRxEnable ||| ierLineEnable ||| ierRtoEnable) 0 = true ∧
    has (ierRxEnable ||| ierLineEnable ||| ierRtoEnable) 1 = false := by
  decide

theorem txBits : has ierTxEnable 0 = false ∧ has ierTxEnable 1 = true := by
  decide

@[simp] theorem uartRxMask_txArmed (p : Port) : (uartRxMask p).txArmed = p.txArmed := by
  rw [txArmed_eq, txArmed_eq, uartRxMask, uartIerClearBits, has_and, has_not _ (by decide), rxBits.2]
  simp

@[simp] theorem uartRxUnmask_txArmed (p : Port) : (uartRxUnmask p).txArmed = p.txArmed := by
  rw [txArmed_eq, txArmed_eq, uartRxUnmask, uartIerSetBits, has_or, rxBits.2, Bool.or_false]

@[simp] theorem uartRxUnmask_rxArmed (p : Port) : (uartRxUnmask p).rxArmed = true := by
  rw [rxArmed_eq, uartRxUnmask, uartIerSetBits, has_or, rxBits.1, Bool.or_true]

@[simp] theorem uartTxMask_rxArmed (p : Port) : (uartTxMask p).rxArmed = p.rxArmed := by
  rw [rxArmed_eq, rxArmed_eq, uartTxMask, uartIerClearBits, has_and, has_not _ (by decide), txBits.1]
  simp

@[simp] theorem uartTxUnmask_rxArmed (p : Port) : (uartTxUnmask p).rxArmed = p.rxArmed := by
  rw [rxArmed_eq, rxArmed_eq, uartTxUnmask, uartIerSetBits, has_or, txBits.1, Bool.or_false]

@[simp] theorem uartTxUnmask_txArmed (p : Port) : (uartTxUnmask p).txArmed = true := by
  rw [txArmed_eq, uartTxUnmask, uartIerSetBits, has_or, txBits.2, Bool.or_true]

theorem uartIrqInit_rxArmed (board : Memory.Board) (p : Port) (r : Runner) :
    (uartIrqInit board p r).1.rxArmed = true := by
  have enabled : (ierRxEnable ||| ierLineEnable) &&& ~~~ierTxEnable &&& ierRxEnable ≠ 0 ∧
      (ierUue ||| ierRxEnable ||| ierLineEnable ||| ierRtoEnable) &&& ~~~ierTxEnable &&& ierRxEnable ≠ 0 := by
    decide
  cases board <;> simp [Port.rxArmed, uartIrqInit, enabled]

theorem uartIrqInit_active (board : Memory.Board) (p : Port) (r : Runner) (t : BottomHalf) :
    (uartIrqInit board p r).2.isActive t = r.isActive t := by
  unfold uartIrqInit
  rw [clearBottomHalf_active, clearBottomHalf_active]

structure Steady (p q : Port) : Prop where
  enabled : q.irqEnabled = p.irqEnabled
  rx : p.rxArmed = true → q.rxArmed = true
  tx : q.txBuf.size ≠ 0 → q.txArmed = false → p.txBuf.size ≠ 0 ∧ p.txArmed = false

variable {q : Port}

theorem Steady.trans {p w : Port} (first : Steady p q) (second : Steady q w) : Steady p w where
  enabled := second.enabled.trans first.enabled
  rx armed := second.rx (first.rx armed)
  tx queued masked := (second.tx queued masked).elim first.tx

theorem Steady.same {p : Port} (enabled : q.irqEnabled = p.irqEnabled) (ier : q.ier = p.ier)
    (txBuf : q.txBuf = p.txBuf) : Steady p q where
  enabled := enabled
  rx armed := by rwa [Port.rxArmed, ier]
  tx queued masked := by
    rw [txBuf] at queued
    rw [Port.txArmed, ier] at masked
    exact ⟨queued, masked⟩

theorem Port.note_steady (p : Port) (access : Mmio) : Steady p (p.note access) := .same rfl rfl rfl

theorem uartTxUnmask_steady (p : Port) (txBuf : Ringbuf) : Steady p (uartTxUnmask { p with txBuf := txBuf }) where
  enabled := rfl
  rx armed := by
    rw [uartTxUnmask_rxArmed]
    exact armed
  tx _ masked := by simp at masked

theorem uartTxTryDrainOne_steady (lsr : UInt32) (p : Port) : Steady p (uartTxTryDrainOne lsr p).2 := by
  unfold uartTxTryDrainOne
  dsimp only
  split
  · exact p.note_steady _
  · split
    · exact p.note_steady _
    next c popped pop =>
      have shrunk : popped.size + 1 = p.txBuf.size := ringbufPop_size pop
      exact ⟨rfl, id, fun _ masked => ⟨by omega, masked⟩⟩

theorem uartTxWaitIdle_steady (lsr lsr' : UInt32) (p : Port) : Steady p (uartTxWaitIdle lsr lsr' p).2 := by
  unfold uartTxWaitIdle
  split
  · dsimp only
    split
    · exact p.note_steady _
    · exact (p.note_steady _).trans (uartTxTryDrainOne_steady lsr' _)
  · exact uartTxTryDrainOne_steady lsr' p

theorem uartSend_steady (c : UInt8) (sleepable : Bool) (lsr : UInt32) (p : Port) :
    Steady p (uartSend c sleepable lsr p).2 := by
  unfold uartSend
  cases ringbufPush c p.txBuf with
  | some pushed => exact uartTxUnmask_steady p pushed
  | none =>
    dsimp only
    split
    · exact uartTxUnmask_steady p p.txBuf
    · exact (uartTxUnmask_steady p p.txBuf).trans (uartTxTryDrainOne_steady lsr _)

theorem uartSendPolling_steady (c : UInt8) (lsr : UInt32) (p : Port) : Steady p (uartSendPolling c lsr p).2 := by
  unfold uartSendPolling
  split
  · exact uartTxTryDrainOne_steady lsr p
  · dsimp only
    split
    · exact (p.note_steady _).trans (Port.note_steady _ _)
    · exact p.note_steady _

theorem uartWriteAsync_steady (buf : Option (Nat → UInt8)) (size : UInt32) (p : Port) :
    Steady p (uartWriteAsync buf size p).2 := by
  unfold uartWriteAsync
  cases buf with
  | none => exact .same rfl rfl rfl
  | some bytes =>
    dsimp only
    split
    · exact .same rfl rfl rfl
    · dsimp only
      split
      · exact uartTxUnmask_steady p _
      next nothing =>
        obtain rfl : size = 0 := by simpa using nothing
        exact .same rfl rfl rfl

theorem uartRecv_steady (p : Port) : Steady p (uartRecv p).2 := by
  unfold uartRecv
  split <;> exact .same rfl rfl rfl

theorem uartRecvPolling_steady (lsr : UInt32) (rbr : UInt8) (p : Port) : Steady p (uartRecvPolling lsr rbr p).2 := by
  unfold uartRecvPolling
  split
  · exact .same rfl rfl rfl
  · dsimp only
    split <;> exact .same rfl rfl rfl

theorem uartRxDrain_steady (lsr : UInt32) (rbr : UInt8) (p : Port) : Steady p (uartRxDrain lsr rbr p).2 := by
  unfold uartRxDrain
  dsimp only
  split
  · exact p.note_steady _
  · split <;> exact .same rfl rfl rfl

structure Port.Unused (p : Port) : Prop where
  enabled : p.irqEnabled = false
  rx : p.rxBuf.size = 0
  tx : p.txBuf.size = 0

section Unused

variable {p : Port} (unused : p.Unused)
include unused

theorem Port.Unused.note (access : Mmio) : (p.note access).Unused := ⟨unused.enabled, unused.rx, unused.tx⟩

theorem Port.Unused.drain (lsr : UInt32) : (uartTxTryDrainOne lsr p).2.Unused := by
  unfold uartTxTryDrainOne
  dsimp only
  split
  · exact unused.note _
  · split
    · exact unused.note _
    next c popped pop =>
      have shrunk : popped.size + 1 = p.txBuf.size := ringbufPop_size pop
      have empty := unused.tx
      omega

theorem Port.Unused.waitIdle (lsr lsr' : UInt32) : (uartTxWaitIdle lsr lsr' p).2.Unused := by
  unfold uartTxWaitIdle
  split
  · dsimp only
    split
    · exact unused.note _
    · exact (unused.note _).drain lsr'
  · exact unused.drain lsr'

theorem Port.Unused.sendPolling (c : UInt8) (lsr : UInt32) : (uartSendPolling c lsr p).2.Unused := by
  unfold uartSendPolling
  split
  · exact unused.drain lsr
  · dsimp only
    split
    · exact (unused.note _).note _
    · exact unused.note _

theorem Port.Unused.writeAsync (buf : Option (Nat → UInt8)) (size : UInt32) :
    (uartWriteAsync buf size p).2.Unused := by
  unfold uartWriteAsync
  cases buf with
  | none => exact unused
  | some bytes =>
    dsimp only
    rw [if_pos (Or.inl unused.enabled)]
    exact unused

theorem Port.Unused.recvPolling (lsr : UInt32) (rbr : UInt8) : (uartRecvPolling lsr rbr p).2.Unused := by
  unfold uartRecvPolling
  split
  next c popped pop =>
    have shrunk : popped.size + 1 = p.rxBuf.size := ringbufPop_size pop
    have empty := unused.rx
    omega
  · dsimp only
    split
    · exact (unused.note _).note _
    · exact unused.note _

end Unused

def Line.rxInService (s : Line) : Prop :=
  s.runner.isAsked .uartRx = true ∨ ∃ place, s.rx = some place ∧ place ≠ .finished

def Line.txInService (s : Line) : Prop :=
  s.runner.isAsked .uartTx = true ∨ ∃ place, s.tx = some place ∧ place ≠ .finished

structure Line.Quiet (s : Line) : Prop where
  port : s.port.Unused
  rx : s.rx = none
  tx : s.tx = none
  rxAsked : s.runner.isAsked .uartRx = false
  txAsked : s.runner.isAsked .uartTx = false

structure Line.Served (s : Line) : Prop where
  rx : s.port.rxArmed = true ∨ s.rxInService
  tx : s.port.txBuf.size ≠ 0 → s.port.txArmed = true ∨ s.txInService

structure LineOk (s : Line) : Prop where
  port : PortOk s.port s.accepted s.returned
  runner : s.runner.Ok
  rx : s.rx.isSome = s.runner.isActive .uartRx
  tx : s.tx.isSome = s.runner.isActive .uartTx
  quiet : s.port.irqEnabled = false → s.Quiet
  served : s.port.irqEnabled = true → s.Served

theorem lineOk_on {s : Line} (on : s.port.irqEnabled = true) (port : PortOk s.port s.accepted s.returned)
    (runner : s.runner.Ok) (rx : s.rx.isSome = s.runner.isActive .uartRx)
    (tx : s.tx.isSome = s.runner.isActive .uartTx) (served : s.Served) : LineOk s :=
  { port := port
    runner := runner
    rx := rx
    tx := tx
    quiet := fun off => by simp [on] at off
    served := fun _ => served }

theorem lineStart_ok (data : UInt32 → UInt8) (ier : UInt32) : LineOk (lineStart data ier) :=
  { port :=
      { tx := by constructor <;> simp [lineStart, Ringbuf.size]
        rx := by constructor <;> simp [lineStart, Ringbuf.size]
        output := rfl
        input := rfl
        licensed := by simp [lineStart] }
    runner := bottomHalfInit_ok
    rx := rfl
    tx := rfl
    quiet := fun _ => ⟨⟨rfl, rfl, rfl⟩, rfl, rfl, bottomHalfInit_asked _, bottomHalfInit_asked _⟩
    served := by simp [lineStart] }

theorem Line.Served.steady {s : Line} (served : s.Served) (steady : Steady s.port q)
    (accepted returned : List UInt8) :
    { s with port := q, accepted := accepted, returned := returned }.Served where
  rx := served.rx.imp_left steady.rx
  tx queued := by
    cases masked : q.txArmed with
    | true => exact Or.inl rfl
    | false =>
      obtain ⟨before, off⟩ := steady.tx queued masked
      have held := served.tx before
      rw [off] at held
      exact Or.inr (held.resolve_left Bool.false_ne_true)

section Steps

variable {s : Line} (ok : LineOk s)
include ok

theorem LineOk.enter : PortOk s.enter s.accepted s.returned := ok.port.mark

theorem LineOk.enter_unused (off : s.port.irqEnabled = false) : s.enter.Unused := (ok.quiet off).port.note _

theorem LineOk.caller {accepted returned : List UInt8} (port : PortOk q accepted returned)
    (steady : Steady s.enter q) (unused : s.port.irqEnabled = false → q.Unused) :
    LineOk { s with port := q, accepted := accepted, returned := returned } := by
  have steady := (s.port.note_steady .mark).trans steady
  have enabled := steady.enabled
  exact { ok with
    port := port
    quiet := fun off => { ok.quiet (enabled ▸ off) with port := unused (enabled ▸ off) }
    served := fun on => (ok.served (enabled ▸ on)).steady steady accepted returned }

theorem LineOk.runs {r : Runner} (okAfter : r.Ok)
    (asked : ∀ t ∈ [BottomHalf.uartRx, .uartTx], r.isAsked t = s.runner.isAsked t)
    (active : ∀ t ∈ [BottomHalf.uartRx, .uartTx], r.isActive t = s.runner.isActive t) :
    LineOk { s with runner := r } := by
  have rxAsked := asked .uartRx (by decide)
  have txAsked := asked .uartTx (by decide)
  exact
    { port := ok.port
      runner := okAfter
      rx := ok.rx.trans (active .uartRx (by decide)).symm
      tx := ok.tx.trans (active .uartTx (by decide)).symm
      quiet := fun off =>
        { ok.quiet off with
          rxAsked := rxAsked.trans (ok.quiet off).rxAsked
          txAsked := txAsked.trans (ok.quiet off).txAsked }
      served := fun on =>
        { rx := (ok.served on).rx.imp_right (Or.imp_left rxAsked.trans)
          tx := fun queued => ((ok.served on).tx queued).imp_right (Or.imp_left txAsked.trans) } }

theorem LineOk.advance :
    LineOk { s with
      runner := Irq.advance s.runner
      rx := if s.runner.starts = some .uartRx then some (.drain uartDeferredWorkBudget) else s.rx
      tx := if s.runner.starts = some .uartTx then some (.drain uartDeferredWorkBudget) else s.tx } := by
  have okAfter := ok.runner.advance_cases.1
  have rxActive := ok.runner.advance_active .uartRx
  have txActive := ok.runner.advance_active .uartTx
  constructor
  · exact ok.port
  · exact okAfter
  · rw [rxActive, ← ok.rx]
    by_cases here : s.runner.starts = some .uartRx <;> simp [here]
  · rw [txActive, ← ok.tx]
    by_cases here : s.runner.starts = some .uartTx <;> simp [here]
  · -- no handler of the two can start
    intro off
    have quiet := ok.quiet off
    have noRx : s.runner.starts ≠ some .uartRx := fun starts => by
      simpa [quiet.rxAsked] using ok.runner.starts_asked starts
    have noTx : s.runner.starts ≠ some .uartTx := fun starts => by
      simpa [quiet.txAsked] using ok.runner.starts_asked starts
    exact
      { port := quiet.port
        rx := (if_neg noRx).trans quiet.rx
        tx := (if_neg noTx).trans quiet.tx
        rxAsked := (ok.runner.advance_asked noRx).trans quiet.rxAsked
        txAsked := (ok.runner.advance_asked noTx).trans quiet.txAsked }
  · intro on
    have served := ok.served on
    constructor
    · by_cases here : s.runner.starts = some .uartRx
      · exact Or.inr (Or.inr ⟨_, if_pos here, by simp⟩)
      · simp only [Line.rxInService, if_neg here, ok.runner.advance_asked here]
        exact served.rx
    · intro queued
      by_cases here : s.runner.starts = some .uartTx
      · exact Or.inr (Or.inr ⟨_, if_pos here, by simp⟩)
      · simp only [Line.txInService, if_neg here, ok.runner.advance_asked here]
        exact served.tx queued

variable {place : RxPlace}

theorem LineOk.rx_on (inside : s.rx = some place) : s.port.irqEnabled = true := by
  cases on : s.port.irqEnabled with
  | true => rfl
  | false =>
    have none := (ok.quiet on).rx
    simp [inside] at none

theorem LineOk.tx_on {place : TxPlace} (inside : s.tx = some place) : s.port.irqEnabled = true := by
  cases on : s.port.irqEnabled with
  | true => rfl
  | false =>
    have none := (ok.quiet on).tx
    simp [inside] at none

theorem LineOk.apart {rx : RxPlace} {tx : TxPlace} (receives : s.rx = some rx) (sends : s.tx = some tx) : False := by
  have rxActive := ok.rx
  have txActive := ok.tx
  rw [receives] at rxActive
  rw [sends] at txActive
  cases ok.runner.active_unique rxActive.symm txActive.symm

theorem LineOk.rxMoves {next : RxPlace} (inside : s.rx = some place) (more : next ≠ .finished)
    (port : PortOk q s.accepted s.returned) (steady : Steady s.port q) :
    LineOk { s with port := q, rx := some next } := by
  have on := ok.rx_on inside
  have served := (ok.served on).steady steady s.accepted s.returned
  exact lineOk_on (steady.enabled.trans on) port ok.runner (by rw [← ok.rx, inside]; rfl) ok.tx
    ⟨Or.inr (Or.inr ⟨next, rfl, more⟩), served.tx⟩

theorem LineOk.rxAgain (inside : s.rx = some place) :
    LineOk { s with runner := raiseRx s.runner, rx := some .finished } := by
  have on := ok.rx_on inside
  have active := raiseBottomHalf_active (UInt32.ofNat BottomHalf.uartRx.bit) s.runner
  have okAfter : (raiseRx s.runner).Ok := ok.runner.raise _
  refine lineOk_on on ok.port okAfter ?_ (ok.tx.trans (active .uartTx).symm) ⟨?_, fun queued => ?_⟩
  · rw [raiseRx, active, ← ok.rx, inside]
    rfl
  · exact Or.inr (Or.inl (by simp [raiseRx, raiseBottomHalf_asked]))
  · exact ((ok.served on).tx queued).imp_right (Or.imp_left (raiseBottomHalf_asked_of _))

theorem LineOk.rxUnmask (inside : s.rx = some place) :
    LineOk { s with port := uartRxUnmask s.enter, rx := some .finished } := by
  have on := ok.rx_on inside
  refine lineOk_on on (ok.enter.ier _) ok.runner (by rw [← ok.rx, inside]; rfl) ok.tx ⟨?_, fun queued => ?_⟩
  · exact Or.inl (uartRxUnmask_rxArmed _)
  · refine ((ok.served on).tx queued).imp_left fun armed => ?_
    rw [uartRxUnmask_txArmed]
    exact armed

theorem LineOk.rxReturns (inside : s.rx = some .finished) :
    LineOk { s with runner := handlerReturns s.runner, rx := none } := by
  have on := ok.rx_on inside
  have served := ok.served on
  have asked := ok.runner.returns_asked
  have noTx : s.tx = none := Option.eq_none_iff_forall_ne_some.mpr fun _ sends => ok.apart inside sends
  refine lineOk_on on ok.port ok.runner.returns (ok.runner.returns_types .uartRx).2.2.symm ?_ ⟨?_, fun queued => ?_⟩
  · rw [(ok.runner.returns_types .uartTx).2.2, noTx]
    rfl
  · simpa [Line.rxInService, inside, asked] using served.rx
  · simpa [Line.txInService, asked] using served.tx queued

theorem LineOk.rxHandler (lsr : UInt32) (rbr : UInt8) : LineOk (rxHandlerStep lsr rbr s) := by
  have enter := s.port.note_steady .mark
  unfold rxHandlerStep
  cases inside : s.rx with
  | none => exact ok
  | some place =>
    cases place with
    | drain budget =>
      cases budget with
      | zero => exact ok.rxMoves inside (by simp) ok.port (.same rfl rfl rfl)
      | succ budget =>
        have more : ∀ moved : Bool, (if moved then RxPlace.drain budget else .check) ≠ .finished := by simp
        exact ok.rxMoves inside (more _) (ok.enter.rxDrain lsr rbr) (enter.trans (uartRxDrain_steady lsr rbr _))
    | check =>
      have more : ∀ ready : Bool, (if ready then RxPlace.again else .unmask) ≠ .finished := by simp
      exact ok.rxMoves inside (more _) (ok.enter.lsr lsr) (enter.trans (Port.note_steady _ _))
    | again => exact ok.rxAgain inside
    | unmask => exact ok.rxUnmask inside
    | finished => exact ok.rxReturns inside

theorem LineOk.txMoves {place next : TxPlace} (inside : s.tx = some place) (more : next ≠ .finished)
    (port : PortOk q s.accepted s.returned) (steady : Steady s.port q) :
    LineOk { s with port := q, tx := some next } := by
  have on := ok.tx_on inside
  have served := (ok.served on).steady steady s.accepted s.returned
  exact lineOk_on (steady.enabled.trans on) port ok.runner ok.rx (by rw [← ok.tx, inside]; rfl)
    ⟨served.rx, fun _ => Or.inr (Or.inr ⟨next, rfl, more⟩)⟩

theorem LineOk.raised (condition : Bool) :
    ∃ r, (if condition then raiseTx s.runner else s.runner) = r ∧ r.Ok ∧
      (∀ t, r.isActive t = s.runner.isActive t) ∧ ∀ t, s.runner.isAsked t = true → r.isAsked t = true := by
  cases condition with
  | false => exact ⟨s.runner, rfl, ok.runner, fun _ => rfl, fun _ => id⟩
  | true =>
    exact ⟨raiseTx s.runner, rfl, ok.runner.raise _, raiseBottomHalf_active _ _,
      fun _ => raiseBottomHalf_asked_of _⟩

theorem LineOk.txRearm {place : TxPlace} (inside : s.tx = some place) (lsr : UInt32) :
    LineOk { s with
      port := (uartTxRearm lsr s.enter s.runner).1
      runner := (uartTxRearm lsr s.enter s.runner).2
      tx := some .finished } := by
  have on := ok.tx_on inside
  have served := ok.served on
  have port := ok.enter.rearm lsr s.runner
  have handler : (some TxPlace.finished).isSome = s.runner.isActive .uartTx := by
    rw [← ok.tx, inside]
    rfl
  unfold uartTxRearm at port ⊢
  cases empty : ringbufIsEmpty s.enter.txBuf with
  | false =>
    simp only [empty, if_true] at port ⊢
    obtain ⟨r, raised, okAfter, active, asked⟩ := ok.raised (txIdle lsr)
    rw [raised]
    refine lineOk_on on port okAfter (ok.rx.trans (active _).symm) (handler.trans (active _).symm) ⟨?_, fun _ => ?_⟩
    · refine Or.imp (fun armed => ?_) (Or.imp_left (asked _)) served.rx
      have same := uartTxUnmask_rxArmed s.enter
      exact same.trans armed
    · exact Or.inl (uartTxUnmask_txArmed s.enter)
  | true =>
    simp only [empty, Bool.true_eq_false, if_false] at port ⊢
    refine lineOk_on on port ok.runner ok.rx handler ⟨?_, fun queued => absurd ?_ queued⟩
    · refine served.rx.imp_left fun armed => ?_
      rw [uartTxMask_rxArmed]
      exact armed
    · exact Ringbuf.contents_eq_nil.mp ((ringbufIsEmpty_iff _).mp empty)

theorem LineOk.txReturns (inside : s.tx = some .finished) :
    LineOk { s with runner := handlerReturns s.runner, tx := none } := by
  have on := ok.tx_on inside
  have served := ok.served on
  have asked := ok.runner.returns_asked
  have noRx : s.rx = none := Option.eq_none_iff_forall_ne_some.mpr fun _ receives => ok.apart receives inside
  refine lineOk_on on ok.port ok.runner.returns ?_ (ok.runner.returns_types .uartTx).2.2.symm ⟨?_, fun queued => ?_⟩
  · rw [(ok.runner.returns_types .uartRx).2.2, noRx]
    rfl
  · simpa [Line.rxInService, asked] using served.rx
  · simpa [Line.txInService, inside, asked] using served.tx queued

theorem LineOk.txHandler (lsr : UInt32) : LineOk (txHandlerStep lsr s) := by
  have enter := s.port.note_steady .mark
  unfold txHandlerStep
  cases inside : s.tx with
  | none => exact ok
  | some place =>
    cases place with
    | drain budget =>
      cases budget with
      | zero => exact ok.txMoves inside (by simp) ok.port (.same rfl rfl rfl)
      | succ budget =>
        have more : ∀ moved : Bool, (if moved then TxPlace.drain budget else .rearm) ≠ .finished := by simp
        exact ok.txMoves inside (more _) (ok.enter.drain lsr) (enter.trans (uartTxTryDrainOne_steady lsr _))
    | rearm => exact ok.txRearm inside lsr
    | finished => exact ok.txReturns inside

theorem LineOk.rxTop (on : s.port.irqEnabled = true) :
    LineOk { s with port := uartRxMask s.port, runner := raiseRx s.runner } := by
  have active := raiseBottomHalf_active (UInt32.ofNat BottomHalf.uartRx.bit) s.runner
  have okAfter : (raiseRx s.runner).Ok := ok.runner.raise _
  refine lineOk_on on (ok.port.ier _) okAfter (ok.rx.trans (active _).symm) (ok.tx.trans (active _).symm)
    ⟨Or.inr (Or.inl ?_), fun queued => ?_⟩
  · simp [raiseRx, raiseBottomHalf_asked]
  · refine Or.imp (fun armed => ?_) (Or.imp_left (raiseBottomHalf_asked_of _)) ((ok.served on).tx queued)
    rw [uartRxMask_txArmed]
    exact armed

theorem LineOk.txTop (on : s.port.irqEnabled = true) :
    LineOk { s with port := uartTxMask s.port, runner := raiseTx s.runner } := by
  have active := raiseBottomHalf_active (UInt32.ofNat BottomHalf.uartTx.bit) s.runner
  have okAfter : (raiseTx s.runner).Ok := ok.runner.raise _
  refine lineOk_on on (ok.port.ier _) okAfter (ok.rx.trans (active _).symm) (ok.tx.trans (active _).symm)
    ⟨?_, fun _ => Or.inr (Or.inl ?_)⟩
  · refine Or.imp (fun armed => ?_) (Or.imp_left (raiseBottomHalf_asked_of _)) (ok.served on).rx
    rw [uartTxMask_rxArmed]
    exact armed
  · simp [raiseTx, raiseBottomHalf_asked]

theorem LineOk.irqTop (on : s.port.irqEnabled = true) (lsr : UInt32) :
    LineOk { s with
      port := (uartIrqTop lsr s.enter s.runner).1
      runner := (uartIrqTop lsr s.enter s.runner).2 } := by
  have read : LineOk { s with port := s.enter.note (.lsr lsr) } :=
    ok.caller (ok.enter.lsr lsr) (Port.note_steady _ _) fun off => by simp [on] at off
  unfold uartIrqTop
  cases rxReady lsr with
  | false =>
    simp only [Bool.false_eq_true, if_false]
    split
    · exact read.txTop on
    · exact read
  | true =>
    simp only [if_true]
    split
    · exact (read.rxTop on).txTop on
    · exact read.rxTop on

theorem LineOk.init (off : s.port.irqEnabled = false) (board : Memory.Board) :
    LineOk { s with
      port := (uartIrqInit board s.port s.runner).1
      runner := (uartIrqInit board s.port s.runner).2 } := by
  have quiet := ok.quiet off
  have okAfter := (ok.runner.clear (UInt32.ofNat BottomHalf.uartRx.bit)).clear (UInt32.ofNat BottomHalf.uartTx.bit)
  have port := ok.port.init board s.runner (Ringbuf.contents_eq_nil.mpr quiet.port.tx)
    (Ringbuf.contents_eq_nil.mpr quiet.port.rx)
  have active := uartIrqInit_active board s.port s.runner
  exact lineOk_on rfl port okAfter (ok.rx.trans (active _).symm) (ok.tx.trans (active _).symm)
    ⟨Or.inl (uartIrqInit_rxArmed board s.port s.runner), fun queued => absurd rfl queued⟩

theorem LineOk.writeAsync (buf : Option (Nat → UInt8)) (size : UInt32) :
    LineOk (lineStep s (.writeAsync buf size)) := by
  have steady := uartWriteAsync_steady buf size s.enter
  have unused := fun off => (ok.enter_unused off).writeAsync buf size
  rcases ok.enter.writeAsync buf size with refused | ⟨bytes, rfl, taken, queued⟩
  · have kept : LineOk { s with port := (uartWriteAsync buf size s.enter).2 } :=
      ok.caller (by rw [refused]; exact ok.enter) steady unused
    have same : lineStep s (.writeAsync buf size) = { s with port := (uartWriteAsync buf size s.enter).2 } := by
      simp only [lineStep, refused]
      cases buf <;> simp
    rw [same]
    exact kept
  · have same : lineStep s (.writeAsync (some bytes) size) =
        { s with
          port := (uartWriteAsync (some bytes) size s.enter).2
          accepted := s.accepted ++ (List.range size.toNat).map bytes } := by
      simp only [lineStep, taken, if_true]
    rw [same]
    exact ok.caller queued steady unused

theorem LineOk.step (op : LineOp) (allowed : op.allowed s = true) : LineOk (lineStep s op) := by
  cases op with
  | init board => exact ok.init (by simpa [LineOp.allowed] using allowed) board
  | send c sleepable lsr =>
    have on : s.port.irqEnabled = true := allowed
    exact ok.caller (ok.enter.send c sleepable lsr) (uartSend_steady c sleepable lsr _) fun off => by simp [on] at off
  | sendPolling c lsr =>
    exact ok.caller (ok.enter.sendPolling c lsr) (uartSendPolling_steady c lsr _)
      fun off => (ok.enter_unused off).sendPolling c lsr
  | writeAsync buf size => exact ok.writeAsync buf size
  | waitIdle lsr lsr' =>
    exact ok.caller (ok.enter.waitIdle lsr lsr') (uartTxWaitIdle_steady lsr lsr' _)
      fun off => (ok.enter_unused off).waitIdle lsr lsr'
  | recv =>
    have on : s.port.irqEnabled = true := allowed
    exact ok.caller ok.enter.recv (uartRecv_steady _) fun off => by simp [on] at off
  | recvPolling lsr rbr =>
    exact ok.caller (ok.enter.recvPolling lsr rbr) (uartRecvPolling_steady lsr rbr _)
      fun off => (ok.enter_unused off).recvPolling lsr rbr
  | irqTop lsr => exact ok.irqTop allowed lsr
  | rxHandler lsr rbr => exact ok.rxHandler lsr rbr
  | txHandler lsr => exact ok.txHandler lsr
  | raise type =>
    have others : ∀ t ∈ [BottomHalf.uartRx, .uartTx], type ≠ UInt32.ofNat t.bit := by
      simpa [LineOp.allowed, uartTypes] using allowed
    exact ok.runs (ok.runner.raise type) (fun t member => raiseBottomHalf_asked_other (others t member) _)
      fun t _ => raiseBottomHalf_active type _ t
  | clear type =>
    have others : ∀ t ∈ [BottomHalf.uartRx, .uartTx], type ≠ UInt32.ofNat t.bit := by
      simpa [LineOp.allowed, uartTypes] using allowed
    exact ok.runs (ok.runner.clear type) (fun t member => clearBottomHalf_asked_other (others t member) _)
      fun t _ => clearBottomHalf_active type _ t
  | run => exact ok.runs ok.runner.run (fun t _ => (ok.runner.run_types t).1) fun t _ => (ok.runner.run_types t).2
  | advance => exact ok.advance
  | finish =>
    unfold lineStep
    dsimp only
    split
    next idle =>
      refine ok.runs ok.runner.returns (fun t _ => ok.runner.returns_asked t) fun t member => ?_
      rw [(ok.runner.returns_types t).2.2]
      have rx := ok.rx
      have tx := ok.tx
      rw [idle.1] at rx
      rw [idle.2] at tx
      simp only [List.mem_cons, List.not_mem_nil, or_false] at member
      rcases member with rfl | rfl
      · exact rx
      · exact tx
    · exact ok

end Steps

theorem lineRun_ok {s : Line} (run : LineRun s) : LineOk s := by
  induction run with
  | start data ier => exact lineStart_ok data ier
  | step op _ allowed ih => exact ih.step op allowed

def allowedAll : Line → List LineOp → Bool
  | _, [] => true
  | s, op :: ops => op.allowed s && allowedAll (lineStep s op) ops

theorem lineRun_foldl (ops : List LineOp) {s : Line} (run : LineRun s) (allowed : allowedAll s ops = true) :
    LineRun (ops.foldl lineStep s) := by
  induction ops generalizing s with
  | nil => exact run
  | cons op ops ih =>
    obtain ⟨first, rest⟩ := Bool.and_eq_true_iff.mp allowed
    exact ih (.step op run first) rest

def zeroLine : Line := lineStart (fun _ => 0) 0

theorem lineRun_output {s : Line} (run : LineRun s) :
    thrBytes s.port.log ++ s.port.txBuf.contents = s.accepted ∧
      (∀ before c after, s.port.log = before ++ .thr c :: after →
        ∃ earlier lsr, before = earlier ++ [.lsr lsr] ∧ txIdle lsr = true) ∧
      ∀ buf size, (uartWriteAsync buf size s.enter).1 = -1 →
        (uartWriteAsync buf size s.enter).2 = s.enter ∧
          (lineStep s (.writeAsync buf size)).accepted = s.accepted := by
  have ok := lineRun_ok run
  refine ⟨ok.port.output, fun before c after split => ok.port.licensed before (.thr c) after split,
    fun buf size refused => ?_⟩
  rcases ok.enter.writeAsync buf size with same | ⟨bytes, rfl, taken, -⟩
  · refine ⟨by rw [same], ?_⟩
    simp only [lineStep, same]
    cases buf <;> rfl
  · rw [taken] at refused
    cases refused

def outputSample : List LineOp :=
  [.sendPolling 0x61 0x20, .init .qemu, .send 0x62 true 0, .writeAsync (some fun _ => 0x63) 1, .irqTop 0x20, .run,
    .advance, .advance, .advance, .txHandler 0x20]

theorem lineRun_output_outputSample :
    LineRun (outputSample.foldl lineStep zeroLine) ∧
      thrBytes (outputSample.foldl lineStep zeroLine).port.log = [0x61, 0x62] ∧
      (outputSample.foldl lineStep zeroLine).port.txBuf.contents = [0x63] ∧
      thrBytes (outputSample.foldl lineStep zeroLine).port.log ++
          (outputSample.foldl lineStep zeroLine).port.txBuf.contents =
        (outputSample.foldl lineStep zeroLine).accepted := by
  have run : LineRun (outputSample.foldl lineStep zeroLine) :=
    lineRun_foldl outputSample (.start _ _) (by decide +kernel)
  exact ⟨run, by decide +kernel, by decide +kernel, (lineRun_output run).1⟩

theorem lineRun_input {s : Line} (run : LineRun s) :
    s.returned ++ s.port.rxBuf.contents = rbrBytes s.port.log ∧
      ∀ before c held after, s.port.log = before ++ .rbr c held :: after →
        ∃ earlier lsr, before = earlier ++ [.lsr lsr] ∧ rxReady lsr = true := by
  have ok := lineRun_ok run
  exact ⟨ok.port.input, fun before c held after split => ok.port.licensed before (.rbr c held) after split⟩

def inputSample : List LineOp :=
  [.init .orangePi, .irqTop 0x01, .run, .advance, .advance, .rxHandler 0x01 0x68, .rxHandler 0x01 0x69,
    .recvPolling 0x01 0x6a]

theorem lineRun_input_inputSample :
    LineRun (inputSample.foldl lineStep zeroLine) ∧
      (inputSample.foldl lineStep zeroLine).returned = [0x68] ∧
      (inputSample.foldl lineStep zeroLine).port.rxBuf.contents = [0x69] ∧
      (inputSample.foldl lineStep zeroLine).returned ++ (inputSample.foldl lineStep zeroLine).port.rxBuf.contents =
        rbrBytes (inputSample.foldl lineStep zeroLine).port.log := by
  have run : LineRun (inputSample.foldl lineStep zeroLine) :=
    lineRun_foldl inputSample (.start _ _) (by decide +kernel)
  exact ⟨run, by decide +kernel, by decide +kernel, (lineRun_input run).1⟩

theorem lineRun_served {s : Line} (run : LineRun s) (on : s.port.irqEnabled = true) :
    (s.port.txBuf.contents ≠ [] →
      s.port.ier &&& ierTxEnable ≠ 0 ∨ s.runner.isPending .uartTx = true ∨ s.runner.isSelected .uartTx = true ∨
        s.runner.isActive .uartTx = true ∧ s.tx ≠ some .finished) ∧
      (s.port.ier &&& ierRxEnable = 0 →
        s.runner.isPending .uartRx = true ∨ s.runner.isSelected .uartRx = true ∨
          s.runner.isActive .uartRx = true ∧ s.rx ≠ some .finished) := by
  have ok := lineRun_ok run
  have served := ok.served on
  constructor
  · intro queued
    rcases served.tx (fun empty => queued (Ringbuf.contents_eq_nil.mpr empty))
      with armed | asked | ⟨place, inside, more⟩
    · exact Or.inl (by simpa [Port.txArmed] using armed)
    · exact Or.inr ((Bool.or_eq_true_iff.mp asked).imp_right Or.inl)
    · have active := ok.tx
      rw [inside] at active
      exact Or.inr (Or.inr (Or.inr ⟨active.symm, by simpa [inside] using more⟩))
  · intro masked
    rcases served.rx with armed | asked | ⟨place, inside, more⟩
    · simp [Port.rxArmed, masked] at armed
    · exact (Bool.or_eq_true_iff.mp asked).imp_right Or.inl
    · have active := ok.rx
      rw [inside] at active
      exact Or.inr (Or.inr ⟨active.symm, by simpa [inside] using more⟩)

def servedSample : List LineOp :=
  [.init .qemu, .send 0x62 true 0, .irqTop 0x21, .run, .advance, .advance, .rxHandler 0x01 0x68]

theorem lineRun_served_servedSample :
    LineRun (servedSample.foldl lineStep zeroLine) ∧
      (servedSample.foldl lineStep zeroLine).port.ier &&& (ierRxEnable ||| ierTxEnable) = 0 ∧
      (servedSample.foldl lineStep zeroLine).port.txBuf.contents = [0x62] ∧
      ((servedSample.foldl lineStep zeroLine).runner.isPending .uartRx = true ∨
        (servedSample.foldl lineStep zeroLine).runner.isSelected .uartRx = true ∨
        (servedSample.foldl lineStep zeroLine).runner.isActive .uartRx = true ∧
          (servedSample.foldl lineStep zeroLine).rx ≠ some .finished) := by
  have run : LineRun (servedSample.foldl lineStep zeroLine) :=
    lineRun_foldl servedSample (.start _ _) (by decide +kernel)
  exact ⟨run, by decide +kernel, by decide +kernel, (lineRun_served run (by decide +kernel)).2 (by decide +kernel)⟩

end OrangeKernel.Uart
