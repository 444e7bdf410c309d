import Mathlib.Algebra.Group.Nat.Defs
import Mathlib.Logic.Function.Basic

set_option autoImplicit false

-- Thread objects, wait entries and wait queues are found by address, with one map per field. A null
-- pointer is `none`.

namespace OrangeKernel.Thread

abbrev Addr := UInt64

inductive ThreadKind where
  | kernel
  | user
deriving DecidableEq, Repr

inductive ThreadState where
  | running
  | runnable
  | new
  | waiting
  | zombie
deriving DecidableEq, Repr

-- The words of `struct trap_context`, in order.
inductive TrapField where
  | ra | sp | gp | tp | t0 | t1 | t2 | s0 | s1
  | a0 | a1 | a2 | a3 | a4 | a5 | a6 | a7
  | s2 | s3 | s4 | s5 | s6 | s7 | s8 | s9 | s10 | s11
  | t3 | t4 | t5 | t6
  | sepc | sstatus | scause | stval
deriving DecidableEq, Repr

structure TrapContext where
  word : TrapField → UInt64

def TrapContext.set (field : TrapField) (value : UInt64) (tc : TrapContext) : TrapContext :=
  { word := Function.update tc.word field value }

structure Kernel where
  -- struct thread
  tid : Addr → Int
  tgid : Addr → Int
  kind : Addr → ThreadKind
  state : Addr → ThreadState
  kstackBase : Addr → UInt64
  next : Addr → Option Addr
  znext : Addr → Option Addr
  allNext : Addr → Option Addr
  waitEntries : Addr → Option Addr
  isIdle : Addr → Bool
  userEntry : Addr → UInt64
  userStackBase : Addr → UInt64
  userStackTop : Addr → UInt64
  exitStatus : Addr → Int
  tc : Addr → Option TrapContext
  -- struct wait_entry
  task : Addr → Option Addr
  queue : Addr → Option Addr
  entryPrev : Addr → Option Addr
  entryNext : Addr → Option Addr
  taskPrev : Addr → Option Addr
  taskNext : Addr → Option Addr
  -- struct wait_queue
  queueHead : Addr → Option Addr
  queueTail : Addr → Option Addr
  -- statics; the first one is the address of `boot_idle_thread`
  bootIdleThread : Addr
  current : Option Addr
  runHead : Option Addr
  runTail : Option Addr
  zombieHead : Option Addr
  allThreads : Option Addr
  nextTid : Nat
  needResched : Bool

def kernelStart (bootIdleThread : Addr) : Kernel :=
  { tid := fun _ => 0
    tgid := fun _ => 0
    kind := fun _ => .kernel
    state := fun _ => .running
    kstackBase := fun _ => 0
    next := fun _ => none
    znext := fun _ => none
    allNext := fun _ => none
    waitEntries := fun _ => none
    isIdle := fun _ => false
    userEntry := fun _ => 0
    userStackBase := fun _ => 0
    userStackTop := fun _ => 0
    exitStatus := fun _ => 0
    tc := fun _ => none
    task := fun _ => none
    queue := fun _ => none
    entryPrev := fun _ => none
    entryNext := fun _ => none
    taskPrev := fun _ => none
    taskNext := fun _ => none
    queueHead := fun _ => none
    queueTail := fun _ => none
    bootIdleThread := bootIdleThread
    current := none
    runHead := none
    runTail := none
    zombieHead := none
    allThreads := none
    nextTid := 1
    needResched := false }

-- What `local_irqs_enabled` and `bottom_half_running` answer.
structure LocalFlags where
  irqsEnabled : Bool
  bottomHalf : Bool

-- No list has more nodes than there are addresses; a walk that does not see the end by then never
-- does.
def walkLimit : Nat := 2 ^ 64 + 1

def Kernel.setState (t : Addr) (state : ThreadState) (k : Kernel) : Kernel :=
  { k with state := Function.update k.state t state }

def Kernel.setNext (t : Addr) (next : Option Addr) (k : Kernel) : Kernel :=
  { k with next := Function.update k.next t next }

def Kernel.setAllNext (t : Addr) (next : Option Addr) (k : Kernel) : Kernel :=
  { k with allNext := Function.update k.allNext t next }

end OrangeKernel.Thread
