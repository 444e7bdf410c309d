import OrangeKernel.Irq.BottomHalf
import OrangeKernel.Memory.Init
import OrangeKernel.Uart.Ringbuf

set_option autoImplicit false

-- `uart.c`, one definition per section with interrupts off. The values that the device answers come
-- with each section, and every access to the line status, the transmit and the receive register is
-- noted.

namespace OrangeKernel.Uart

open Irq

def lsrRxReady : UInt32 := 0x01
def lsrTxIdle : UInt32 := 0x20

def ierRxEnable : UInt32 := 0x01
def ierTxEnable : UInt32 := 0x02
def ierLineEnable : UInt32 := 0x04
def ierRtoEnable : UInt32 := 0x10
def ierUue : UInt32 := 0x40

inductive Mmio where
  | mark
  | lsr (value : UInt32)
  | thr (c : UInt8)
  -- A byte is read while the receive ring holds `held` bytes.
  | rbr (c : UInt8) (held : Nat)
deriving DecidableEq, Repr

structure Port where
  rxBuf : Ringbuf
  txBuf : Ringbuf
  irqEnabled : Bool
  ier : UInt32
  log : List Mmio

def Port.note (access : Mmio) (p : Port) : Port := { p with log := p.log ++ [access] }

def txIdle (lsr : UInt32) : Bool := lsr &&& lsrTxIdle ≠ 0

def rxReady (lsr : UInt32) : Bool := lsr &&& lsrRxReady ≠ 0

def uartIerSetBits (bits : UInt32) (p : Port) : Port := { p with ier := p.ier ||| bits }

def uartIerClearBits (bits : UInt32) (p : Port) : Port := { p with ier := p.ier &&& ~~~bits }

def uartRxMask (p : Port) : Port := uartIerClearBits (ierRxEnable ||| ierLineEnable ||| ierRtoEnable) p

def uartRxUnmask (p : Port) : Port := uartIerSetBits (ierRxEnable ||| ierLineEnable ||| ierRtoEnable) p

def uartTxMask (p : Port) : Port := uartIerClearBits ierTxEnable p

def uartTxUnmask (p : Port) : Port := uartIerSetBits ierTxEnable p

def uartTxTryDrainOne (lsr : UInt32) (p : Port) : Bool × Port :=
  let read := p.note (.lsr lsr)
  if txIdle lsr = false then (false, read)
  else
    match ringbufPop read.txBuf with
    | none => (false, read)
    | some (c, popped) => (true, { read with txBuf := popped }.note (.thr c))

-- One pass of `uart_tx_wait_idle`; `lsr'` is what a second read answers.
def uartTxWaitIdle (lsr lsr' : UInt32) (p : Port) : Bool × Port :=
  if ringbufIsEmpty p.txBuf then
    let read := p.note (.lsr lsr)
    if txIdle lsr then (true, read) else (false, (uartTxTryDrainOne lsr' read).2)
  else (false, (uartTxTryDrainOne lsr' p).2)

-- One pass of `uart_send` with interrupts on. A sleeper comes back for another pass.
def uartSend (c : UInt8) (sleepable : Bool) (lsr : UInt32) (p : Port) : Bool × Port :=
  match ringbufPush c p.txBuf with
  | some pushed => (true, uartTxUnmask { p with txBuf := pushed })
  | none =>
    let armed := uartTxUnmask p
    if sleepable then (false, armed) else (false, (uartTxTryDrainOne lsr armed).2)

def uartSendPolling (c : UInt8) (lsr : UInt32) (p : Port) : Bool × Port :=
  if ringbufIsEmpty p.txBuf = false then (false, (uartTxTryDrainOne lsr p).2)
  else
    let read := p.note (.lsr lsr)
    if txIdle lsr then (true, read.note (.thr c)) else (false, read)

def pushFrom (buf : Nat → UInt8) : (left i : Nat) → Ringbuf → Ringbuf
  | 0, _, rb => rb
  | left + 1, i, rb => pushFrom buf left (i + 1) ((ringbufPush (buf i) rb).getD rb)

def uartWriteAsync (buf : Option (Nat → UInt8)) (size : UInt32) (p : Port) : Int × Port :=
  match buf with
  | none => (-1, p)
  | some bytes =>
    if p.irqEnabled = false ∨ ringbufCapacity - p.txBuf.count < size then (-1, p)
    else
      let queued := { p with txBuf := pushFrom bytes size.toNat 0 p.txBuf }
      (0, if size ≠ 0 then uartTxUnmask queued else queued)

def uartRecv (p : Port) : Option UInt8 × Port :=
  match ringbufPop p.rxBuf with
  | some (c, popped) => (some c, { p with rxBuf := popped })
  | none => (none, p)

def uartRecvPolling (lsr : UInt32) (rbr : UInt8) (p : Port) : Option UInt8 × Port :=
  match ringbufPop p.rxBuf with
  | some (c, popped) => (some c, { p with rxBuf := popped })
  | none =>
    let read := p.note (.lsr lsr)
    if rxReady lsr then (some rbr, read.note (.rbr rbr p.rxBuf.size)) else (none, read)

-- False when nothing is ready.
def uartRxDrain (lsr : UInt32) (rbr : UInt8) (p : Port) : Bool × Port :=
  let read := p.note (.lsr lsr)
  if rxReady lsr = false then (false, read)
  else
    let taken := read.note (.rbr rbr p.rxBuf.size)
    match ringbufPush rbr taken.rxBuf with
    | some pushed => (true, { taken with rxBuf := pushed })
    | none => (true, taken)

def raiseRx (r : Runner) : Runner := raiseBottomHalf (UInt32.ofNat BottomHalf.uartRx.bit) r

def raiseTx (r : Runner) : Runner := raiseBottomHalf (UInt32.ofNat BottomHalf.uartTx.bit) r

def uartIrqTop (lsr : UInt32) (p : Port) (r : Runner) : Port × Runner :=
  let read := p.note (.lsr lsr)
  let (masked, raised) := if rxReady lsr then (uartRxMask read, raiseRx r) else (read, r)
  if txIdle lsr && masked.ier &&& ierTxEnable ≠ 0 then (uartTxMask masked, raiseTx raised) else (masked, raised)

def uartTxRearm (lsr : UInt32) (p : Port) (r : Runner) : Port × Runner :=
  if ringbufIsEmpty p.txBuf = false then
    let armed := (uartTxUnmask p).note (.lsr lsr)
    (armed, if txIdle lsr then raiseTx r else r)
  else (uartTxMask p, r)

-- What it reads from the device is thrown away and not noted.
def uartIrqInit (board : Memory.Board) (p : Port) (r : Runner) : Port × Runner :=
  let enabled := match board with
    | .qemu => ierRxEnable ||| ierLineEnable
    | .orangePi => ierUue ||| ierRxEnable ||| ierLineEnable ||| ierRtoEnable
  ({ p with
      rxBuf := ringbufInit p.rxBuf
      txBuf := ringbufInit p.txBuf
      irqEnabled := true
      ier := enabled &&& ~~~ierTxEnable },
    clearBottomHalf (UInt32.ofNat BottomHalf.uartTx.bit) (clearBottomHalf (UInt32.ofNat BottomHalf.uartRx.bit) r))

end OrangeKernel.Uart
