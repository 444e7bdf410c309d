import OrangeKernel.Thread.Newcomer
import OrangeKernel.Trap.Transparent

set_option autoImplicit false

-- The stubs and `switch_to` run as they are; user code and code in C are any steps that keep to
-- what they promise.

namespace OrangeKernel.Trap

open Intrusive Riscv Thread ByteMemory Memory

def threadStackSize : UInt64 := 16384

-- `kstack_top` of `thread_alloc`.
def kstackTop (base : UInt64) : UInt64 := (base + threadStackSize) &&& ~~~15

-- `tc` of `thread_prepare_user`.
def tcAddr (k : Kernel) (t : Addr) : UInt64 := kstackTop (k.kstackBase t) - UInt64.ofNat trapContextAllocSize

structure Area where
  low : Nat
  high : Nat

def Area.Apart (a b : Area) : Prop := a.high ≤ b.low ∨ b.high ≤ a.low

def stackOf (base : UInt64) : Area := ⟨base.toNat, (kstackTop base).toNat⟩

-- The idle thread stays on the stack of the boot code.
def stackArea (boot : Area) (k : Kernel) (t : Addr) : Area := if k.isIdle t then boot else stackOf (k.kstackBase t)

def objectArea (t : Addr) : Area := ⟨t.toNat, t.toNat + threadContextSize⟩

structure Frame where
  addr : UInt64
  rest : Code
  via : Reg
  mode : Privilege
  -- what the trap interrupted, unless there was none or the context has been rewritten
  origin : Option Interrupted
  -- how far the code in C that runs on the context has moved `sp` down
  pushed : UInt64

def Frame.push (bytes : UInt64) (f : Frame) : Frame := { f with pushed := f.pushed + bytes }

def Frame.forget (addr : UInt64) (f : Frame) : Frame := if f.addr = addr then { f with origin := none } else f

structure System where
  machine : Machine
  kernel : Kernel
  -- the pending contexts of each thread, the innermost one first
  frames : Addr → List Frame

-- The code of the running thread goes on to `m`.
def System.resume (s : System) (m : Machine) : System :=
  { s with
    machine := m
    frames := (threadCurrent s.kernel).elim s.frames fun t =>
      Function.update s.frames t ((s.frames t).modifyHead (Frame.push (s.machine.reg .sp - m.reg .sp))) }

def trapFields : List TrapField :=
  [.ra, .sp, .gp, .tp, .t0, .t1, .t2, .s0, .s1, .a0, .a1, .a2, .a3, .a4, .a5, .a6, .a7, .s2, .s3,
    .s4, .s5, .s6, .s7, .s8,
    .s9, .s10, .s11, .t3, .t4, .t5, .t6, .sepc, .sstatus, .scause, .stval]

def putContext (addr : UInt64) (context : TrapContext) (mem : Mem) : Mem :=
  putWords addr (trapFields.map fun field => (tcOffset field, context.word field)) mem

def placeThread (links : Links) (k : Kernel) (t : Addr) (mem : Mem) : Mem :=
  let sp := if k.kind t = .user then tcAddr k t else kstackTop (k.kstackBase t)
  let object := putWords t [(0, links.bootstrap), (8, sp)] (fill t.toNat threadContextSize 0 mem)
  (k.tc t).elim object fun context => putContext (tcAddr k t) context object

-- `user_task_entry` passes `tc` to `trap_return`.
def firstFrames (k : Kernel) (t : Addr) : List Frame :=
  if k.kind t = .user then [⟨tcAddr k t, trapReturn, .a0, .user, none, 0⟩] else []

def System.place (links : Links) (k : Kernel) (t : Addr) (s : System) : System :=
  { s with
    machine := { s.machine with mem := placeThread links k t s.machine.mem }
    frames := Function.update s.frames t (firstFrames k t) }

inductive TrapOp where
  | user (m : Machine)
  | kernel (m : Machine)
  | edit (addr : UInt64) (m : Machine)
  | thread (op : ThreadOp)
  | trap (cause tval : UInt64)
  -- The function that a stub has called returns, or a new thread calls `trap_return`.
  | back

def switchMachine (links : Links) (prev next : Addr) (m : Machine) : Option Machine :=
  match runStub links switchTo ((m.set .a0 prev).set .a1 next) with
  | some (.ret after) => some after
  | _ => none

def followCurrent (links : Links) (before after : Option Addr) (m : Machine) : Option Machine :=
  match before, after with
  | some prev, some next => if prev = next then some m else switchMachine links prev next m
  | _, _ => some m

-- `none` where code never gets to.
def trapStep (board : Board) (links : Links) (s : System) : TrapOp → Option System
  | .user m => some { s with machine := m }
  | .kernel m => some (s.resume m)
  | .edit addr m => some ({ s with frames := fun t => (s.frames t).map (Frame.forget addr) }.resume m)
  | .thread op => do
    let k ← exec board s.kernel op
    let placed := (newThread board s.kernel (.thread op)).elim s fun t => s.place links k t
    let m ← followCurrent links (threadCurrent s.kernel) (threadCurrent k) placed.machine
    some { placed with machine := m, kernel := k }
  | .trap cause tval => do
    let t ← threadCurrent s.kernel
    match runStub links trapEntry (s.machine.takeTrap cause tval) with
    | some (.call _ rest m) =>
      let frame : Frame := ⟨m.reg .sp, rest, .sp, s.machine.privilege, some (interrupted s.machine), 0⟩
      some { s with machine := m, frames := Function.update s.frames t (frame :: s.frames t) }
    | _ => none
  | .back => do
    let t ← threadCurrent s.kernel
    match s.frames t with
    | [] => none
    | frame :: outer =>
      match runStub links frame.rest s.machine with
      | some (.call _ rest m) | some (.wfi rest m) =>
        some { s with machine := m, frames := Function.update s.frames t ({ frame with rest := rest } :: outer) }
      | some (.sret m) => some { s with machine := m, frames := Function.update s.frames t outer }
      | _ => none

def OnList (k : Kernel) (t : Addr) : Prop := ∃ all, Stack k.allNext k.allThreads all ∧ t ∈ all

-- User code cannot write `sscratch`, and code in C does not.
structure SameMode (m m' : Machine) : Prop where
  privilege : m'.privilege = m.privilege
  scratch : m'.csr .sscratch = m.csr .sscratch
  tp : m'.reg .tp = m.reg .tp

def SameContexts (s : System) (mem : Mem) : Prop :=
  ∀ t, OnList s.kernel t → ∀ f ∈ s.frames t, contextAt f.addr mem = contextAt f.addr s.machine.mem

-- `sp` in the context that `switch_to` keeps in the object of a thread
def savedSp (t : Addr) (mem : Mem) : UInt64 := word (t + UInt64.ofNat 8) mem

def SameSaved (s : System) (mem : Mem) : Prop :=
  ∀ t, OnList s.kernel t → threadCurrent s.kernel ≠ some t → savedSp t mem = savedSp t s.machine.mem

-- A rewritten context still returns to the same thread and privilege, and in the kernel to the same `sp`.
structure Returning (f : Frame) (mem mem' : Mem) : Prop where
  tp : (contextAt f.addr mem').word .tp = (contextAt f.addr mem).word .tp
  mode : ReturnsTo (contextAt f.addr mem') f.mode
  sp : f.mode = .supervisor → (contextAt f.addr mem').word .sp = (contextAt f.addr mem).word .sp

def Rewritten (s : System) (addr : UInt64) (mem : Mem) : Prop :=
  ∀ t, OnList s.kernel t → ∀ f ∈ s.frames t, if f.addr = addr then Returning f s.machine.mem mem
  else contextAt f.addr mem = contextAt f.addr s.machine.mem

structure FreshBlocks (boot : Area) (k : Kernel) (t : Addr) (kstack : UInt64) : Prop where
  object : t.toNat + threadContextSize < 2 ^ 64
  stack : kstack.toNat + threadStackSize.toNat < 2 ^ 64
  own : (objectArea t).Apart (stackOf kstack)
  objects : ∀ u, OnList k u → (objectArea t).Apart (objectArea u)
  others : ∀ u, OnList k u → (objectArea t).Apart (stackArea boot k u) ∧ (objectArea u).Apart (stackOf kstack) ∧
    (stackOf kstack).Apart (stackArea boot k u)

def ForkedFrom (s : System) : ThreadOp → Prop
  | .fork parentTc _ _ _ =>
    ∀ t, threadCurrent s.kernel = some t → ∃ f ∈ s.frames t, f.mode = .user ∧
      parentTc = contextAt f.addr s.machine.mem
  | _ => True

def lowest (boot : Area) (s : System) (t : Addr) : Nat :=
  ((s.frames t).head?.map fun f => f.addr.toNat).getD (stackArea boot s.kernel t).high

def TrapAllowed (boot : Area) (s : System) : TrapOp → Prop
  | .user m => s.machine.privilege = .user ∧ SameMode s.machine m ∧ SameContexts s m.mem ∧ SameSaved s m.mem
  | .kernel m => s.machine.privilege = .supervisor ∧ SameMode s.machine m ∧ SameContexts s m.mem ∧
    SameSaved s m.mem
  | .edit addr m =>
    s.machine.privilege = .supervisor ∧ SameMode s.machine m ∧ Rewritten s addr m.mem ∧ SameSaved s m.mem
  | .thread op =>
    s.machine.privilege = .supervisor ∧ Thread.Allowed s.kernel op ∧ ForkedFrom s op ∧
      ∀ grants, grantsOf op = some grants → ∀ t, grants.task = some t → grants.kstack ≠ 0 →
        FreshBlocks boot s.kernel t grants.kstack
  -- code in C runs below the context of the trap it handles, and there is room for another one
  | .trap _ _ => s.machine.privilege = .supervisor → ∀ t, threadCurrent s.kernel = some t →
      (stackArea boot s.kernel t).low + trapContextAllocSize ≤ (s.machine.reg .sp).toNat ∧
        (s.machine.reg .sp).toNat ≤ lowest boot s t
  -- a function returns when it has popped what it has pushed, and a new thread passes its context
  | .back => s.machine.privilege = .supervisor ∧ ∀ t f outer, threadCurrent s.kernel = some t →
      s.frames t = f :: outer → if f.via = .sp then f.pushed = 0 else s.machine.reg f.via = f.addr

inductive TrapRun (board : Board) (links : Links) (boot : Area) (bootIdle : Addr) : System → Prop where
  | boot (m : Machine) (supervisor : m.privilege = .supervisor) (scratch : m.csr .sscratch = 0)
    (tp : m.reg .tp = bootIdle)
      (bounded : boot.high < 2 ^ 64) (object : bootIdle.toNat + threadContextSize < 2 ^ 64)
      (apart : (objectArea bootIdle).Apart boot) :
      TrapRun board links boot bootIdle ⟨m, threadSystemBootstrapInit (kernelStart bootIdle), fun _ => []⟩
  | step {s s' : System} (op : TrapOp) (run : TrapRun board links boot bootIdle s) (allowed : TrapAllowed boot s op)
      (result : trapStep board links s op = some s') : TrapRun board links boot bootIdle s'

end OrangeKernel.Trap
