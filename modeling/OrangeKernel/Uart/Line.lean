import OrangeKernel.Uart.Port

set_option autoImplicit false

-- A step is a section with interrupts off, or one access outside of such a section.

namespace OrangeKernel.Uart

open Irq

def uartDeferredWorkBudget : Nat := 16

inductive RxPlace where
  | drain (budget : Nat)
  | check
  | again
  | unmask
  | finished
deriving DecidableEq, Repr

-- What the refill function does are steps of their own.
inductive TxPlace where
  | drain (budget : Nat)
  | rearm
  | finished
deriving DecidableEq, Repr

structure Line where
  port : Port
  runner : Runner
  rx : Option RxPlace
  tx : Option TxPlace
  accepted : List UInt8
  returned : List UInt8

inductive LineOp where
  | init (board : Memory.Board)
  | send (c : UInt8) (sleepable : Bool) (lsr : UInt32)
  | sendPolling (c : UInt8) (lsr : UInt32)
  | writeAsync (buf : Option (Nat → UInt8)) (size : UInt32)
  | waitIdle (lsr lsr' : UInt32)
  | recv
  | recvPolling (lsr : UInt32) (rbr : UInt8)
  | irqTop (lsr : UInt32)
  | rxHandler (lsr : UInt32) (rbr : UInt8)
  | txHandler (lsr : UInt32)
  | raise (type : UInt32)
  | clear (type : UInt32)
  | run
  | advance
  | finish

def Line.enter (s : Line) : Port := s.port.note .mark

def sendStep (c : UInt8) (result : Bool × Port) (s : Line) : Line :=
  { s with
    port := result.2
    accepted := if result.1 then s.accepted ++ [c] else s.accepted }

def recvStep (result : Option UInt8 × Port) (s : Line) : Line :=
  { s with
    port := result.2
    returned := s.returned ++ result.1.toList }

def rxHandlerStep (lsr : UInt32) (rbr : UInt8) (s : Line) : Line :=
  match s.rx with
  | none => s
  | some (.drain 0) => { s with rx := some .check }
  | some (.drain (budget + 1)) =>
    let (more, port) := uartRxDrain lsr rbr s.enter
    { s with
      port := port
      rx := some (if more then .drain budget else .check) }
  | some .check =>
    { s with
      port := s.enter.note (.lsr lsr)
      rx := some (if rxReady lsr then .again else .unmask) }
  | some .again =>
    { s with
      runner := raiseRx s.runner
      rx := some .finished }
  | some .unmask =>
    { s with
      port := uartRxUnmask s.enter
      rx := some .finished }
  | some .finished =>
    { s with
      runner := handlerReturns s.runner
      rx := none }

def txHandlerStep (lsr : UInt32) (s : Line) : Line :=
  match s.tx with
  | none => s
  | some (.drain 0) => { s with tx := some .rearm }
  | some (.drain (budget + 1)) =>
    let (moved, port) := uartTxTryDrainOne lsr s.enter
    { s with
      port := port
      tx := some (if moved then .drain budget else .rearm) }
  | some .rearm =>
    let (port, runner) := uartTxRearm lsr s.enter s.runner
    { s with
      port := port
      runner := runner
      tx := some .finished }
  | some .finished =>
    { s with
      runner := handlerReturns s.runner
      tx := none }

def lineStep (s : Line) : LineOp → Line
  | .init board =>
    let (port, runner) := uartIrqInit board s.port s.runner
    { s with
      port := port
      runner := runner }
  | .send c sleepable lsr => sendStep c (uartSend c sleepable lsr s.enter) s
  | .sendPolling c lsr => sendStep c (uartSendPolling c lsr s.enter) s
  | .writeAsync buf size =>
    let (ret, port) := uartWriteAsync buf size s.enter
    { s with
      port := port
      accepted := match buf with
        | some bytes => if ret = 0 then s.accepted ++ (List.range size.toNat).map bytes else s.accepted
        | none => s.accepted }
  | .waitIdle lsr lsr' => { s with port := (uartTxWaitIdle lsr lsr' s.enter).2 }
  | .recv => recvStep (uartRecv s.enter) s
  | .recvPolling lsr rbr => recvStep (uartRecvPolling lsr rbr s.enter) s
  | .irqTop lsr =>
    let (port, runner) := uartIrqTop lsr s.enter s.runner
    { s with
      port := port
      runner := runner }
  | .rxHandler lsr rbr => rxHandlerStep lsr rbr s
  | .txHandler lsr => txHandlerStep lsr s
  | .raise type => { s with runner := raiseBottomHalf type s.runner }
  | .clear type => { s with runner := clearBottomHalf type s.runner }
  | .run => { s with runner := runBottomHalves s.runner }
  | .advance =>
    { s with
      runner := Irq.advance s.runner
      rx := if s.runner.starts = some .uartRx then some (.drain uartDeferredWorkBudget) else s.rx
      tx := if s.runner.starts = some .uartTx then some (.drain uartDeferredWorkBudget) else s.tx }
  | .finish => if s.rx = none ∧ s.tx = none then { s with runner := handlerReturns s.runner } else s

def uartTypes : List UInt32 := [UInt32.ofNat BottomHalf.uartRx.bit, UInt32.ofNat BottomHalf.uartTx.bit]

-- The ring and the interrupt are used once `uart_irq_init` has run, which happens once, and nobody
-- else raises or clears the two types.
def LineOp.allowed (s : Line) : LineOp → Bool
  | .init _ => !s.port.irqEnabled
  | .send _ _ _ => s.port.irqEnabled
  | .recv => s.port.irqEnabled
  | .irqTop _ => s.port.irqEnabled
  | .raise type => type ∉ uartTypes
  | .clear type => type ∉ uartTypes
  | _ => true

def lineStart (data : UInt32 → UInt8) (ier : UInt32) : Line :=
  { port :=
      { rxBuf := ⟨data, 0, 0, 0⟩
        txBuf := ⟨data, 0, 0, 0⟩
        irqEnabled := false
        ier := ier
        log := [] }
    runner := bottomHalfInit
    rx := none
    tx := none
    accepted := []
    returned := [] }

inductive LineRun : Line → Prop where
  | start (data : UInt32 → UInt8) (ier : UInt32) : LineRun (lineStart data ier)
  | step {s : Line} (op : LineOp) (run : LineRun s) (allowed : op.allowed s = true) : LineRun (lineStep s op)

end OrangeKernel.Uart
