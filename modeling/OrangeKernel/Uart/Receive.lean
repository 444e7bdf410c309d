import OrangeKernel.Thread.Run
import OrangeKernel.Uart.Ringbuf

set_option autoImplicit false

-- Everything between `local_irq_save` and the switch or `local_irq_restore` is one step.

namespace OrangeKernel.Uart

open Thread

-- With the stack-local wait entry of each thread that is in `wait_queue_sleep_locked`.
structure UartState where
  kernel : Kernel
  rxBuf : Ringbuf
  inside : List Addr
  entry : Addr → Option Addr

def recvEnter (flags : LocalFlags) (s : UartState) : UartState :=
  match threadCurrent s.kernel with
  | none => s
  | some t => if threadCanSleep flags s.kernel ∧ t ∉ s.inside then { s with inside := t :: s.inside } else s

-- A zeroed local of the running call: no other call has it on its stack.
def freshLocal (entry : Addr) (s : UartState) : Bool :=
  s.kernel.task entry = none && s.kernel.queue entry = none && s.inside.all fun t => s.entry t ≠ some entry

def recvSleep (rxWait : Addr) (bottomHalf : Bool) (t entry : Addr) (s : UartState) : Option UartState :=
  let flags : LocalFlags := ⟨false, bottomHalf⟩
  let (ret, prepared) := waitQueuePrepareLocked flags (some rxWait) (some entry) s.kernel
  if ret ≠ 0 then some { s with kernel := prepared }
  else do
    let (_, switched) ← waitQueueWaitLocked flags prepared
    some { s with
      kernel := switched
      entry := Function.update s.entry t (some entry) }

def recvPass (rxWait : Addr) (bottomHalf : Bool) (entry : Addr) (s : UartState) : Option UartState :=
  match threadCurrent s.kernel with
  | none => some s
  | some t =>
    if t ∉ s.inside ∨ s.entry t ≠ none then some s
    else
      match ringbufPop s.rxBuf with
      | some (_, popped) =>
        -- `uart_recv` returns the byte
        some { s with
          rxBuf := popped
          inside := s.inside.erase t }
      | none => if freshLocal entry s then recvSleep rxWait bottomHalf t entry s else some s

def recvResume (s : UartState) : Option UartState :=
  match threadCurrent s.kernel with
  | none => some s
  | some t =>
    match s.entry t with
    | none => some s
    | some entry => do
      let finished ← waitQueueFinishLocked entry s.kernel
      some { s with
        kernel := finished
        entry := Function.update s.entry t none }

def rxDrainByte (rxWait : Addr) (c : UInt8) (s : UartState) : Option UartState :=
  match ringbufPush c s.rxBuf with
  | none => some s
  | some pushed => do
    let woken ← waitQueueWakeOne rxWait s.kernel
    some { s with
      kernel := woken
      rxBuf := pushed }

inductive UartOp where
  | enter (flags : LocalFlags)
  | pass (bottomHalf : Bool) (entry : Addr)
  | resume
  | drain (c : UInt8)
  | schedule
  | stopTid (tid status : Int)
  | stopProcess (tgid status : Int)

def UartOp.stops : UartOp → Bool
  | .stopTid _ _ => true
  | .stopProcess _ _ => true
  | _ => false

def UartOp.names (k : Kernel) : UartOp → Addr → Bool
  | .stopTid tid _, t => k.tid t = tid
  | .stopProcess tgid _, t => k.kind t = .user && k.tgid t = tgid
  | _, _ => false

-- `none` when a step faults or never returns; a step that is not due changes nothing.
def uartStep (rxWait : Addr) (s : UartState) : UartOp → Option UartState
  | .enter flags => some (recvEnter flags s)
  | .pass bottomHalf entry => recvPass rxWait bottomHalf entry s
  | .resume => recvResume s
  | .drain c => rxDrainByte rxWait c s
  | .schedule => (schedule s.kernel).map fun kernel => { s with kernel := kernel }
  | .stopTid tid status => (threadStopTid tid status s.kernel).map fun result => { s with kernel := result.2 }
  | .stopProcess tgid status => (threadStopProcess tgid status s.kernel).map fun result => { s with kernel := result.2 }

def uartStart (k : Kernel) : UartState :=
  { kernel := k
    rxBuf := ringbufInit ⟨fun _ => 0, 0, 0, 0⟩
    inside := []
    entry := fun _ => none }

def WaitingOn (queue : Addr) (k : Kernel) (t : Addr) : Prop :=
  k.state t = .waiting ∧ ∃ entry, k.task entry = some t ∧ k.queue entry = some queue

def awake (k : Kernel) (t : Addr) : Bool := k.state t = .running || k.state t = .runnable

def NoLostWakeup (rxWait : Addr) (s : UartState) : Prop :=
  s.rxBuf.size ≠ 0 → ∀ t, WaitingOn rxWait s.kernel t → ∃ u ∈ s.inside, u ≠ t ∧ awake s.kernel u = true

-- A reader that `op` does not name goes on waiting only if there is an awake one for each byte.
def Spares (rxWait : Addr) (op : UartOp) (s : UartState) : Prop :=
  (∃ t, WaitingOn rxWait s.kernel t ∧ op.names s.kernel t = false) →
    s.rxBuf.size ≤ s.inside.countP fun u => awake s.kernel u && !op.names s.kernel u

-- Runs start in any state of the threads in which nobody waits for input.
inductive UartRun (rxWait : Addr) (May : UartOp → UartState → Prop) : UartState → Prop where
  | start {board : Memory.Board} {bootIdle : Addr} {k : Kernel} (threads : ThreadRun board bootIdle k)
      (unused : k.queueHead rxWait = none) : UartRun rxWait May (uartStart k)
  | step {s s' : UartState} (op : UartOp) (run : UartRun rxWait May s) (may : op.stops = true → May op s)
      (result : uartStep rxWait s op = some s') : UartRun rxWait May s'

end OrangeKernel.Uart
