import OrangeKernel.Thread.Exec
import OrangeKernel.Thread.Run

set_option autoImplicit false

namespace OrangeKernel.Thread

open Memory ByteMemory
open Fdt (Text)

def Grants.offered (grants : Grants) : List UInt64 :=
  grants.task.toList ++ if grants.kstack = 0 then [] else [grants.kstack]

-- All blocks that `kmalloc` would answer with, whether the operation asks for them or not.
def offered : ThreadOp → List UInt64
  | .createKernel _ grants => grants.offered
  | .createProcess _ _ _ grants => grants.offered
  | .createUser _ _ _ stack grants => (if stack = 0 then [] else [stack]) ++ grants.offered
  | .fork _ stack grants _ => (if stack = 0 then [] else [stack]) ++ grants.offered
  | _ => []

def threadAllocTakes (grants : Grants) (k : Kernel) : List UInt64 :=
  if (threadNextTid k).1 < 0 then []
  else
    match grants.task with
    | none => []
    -- the kernel stack is only asked for once there is an object
    | some t => if grants.kstack = 0 then [t] else [t, grants.kstack]

def threadPrepareUserTakes (board : Board) (entry stackBase stackTop : UInt64) (grants : Grants) (k : Kernel) :
    List UInt64 :=
  if badUserPc board entry || stackBase = 0 || stackTop ≤ stackBase || stackTop &&& 15 ≠ 0 then []
  else threadAllocTakes grants k

def threadCreateUserTakes (board : Board) (entry returnPc stack : UInt64) (grants : Grants) (k : Kernel) :
    List UInt64 :=
  match threadCurrent k with
  | none => []
  | some parent =>
    match k.tc parent with
    | none => []
    | some _ =>
      if k.kind parent ≠ .user ∨ k.state parent = .zombie ∨ badUserPc board entry ∨ badUserPc board returnPc ∨
          stack = 0 then []
      else stack :: threadPrepareUserTakes board entry stack (stack + userStackSize) grants k

def sysForkTakes (board : Board) (parentTc : TrapContext) (stack : UInt64) (grants : Grants) (k : Kernel) :
    List UInt64 :=
  match threadCurrent k with
  | none => []
  | some parent =>
    if k.kind parent ≠ .user then []
    else
      match threadUserGroupSize parent k with
      | none => []
      | some size =>
        let base := k.userStackBase parent
        let top := k.userStackTop parent
        let sp := parentTc.word .sp
        if size ≠ 1 ∨ sp < base ∨ top < sp ∨ top - base ≠ userStackSize ∨ stack = 0 then []
        else stack :: threadPrepareUserTakes board (k.userEntry parent) stack
          ((stack + userStackSize) &&& 0xFFFFFFFFFFFFFFF0) grants k

def takes (board : Board) (k : Kernel) : ThreadOp → List UInt64
  | .createKernel entry grants => if entry = 0 then [] else threadAllocTakes grants k
  | .createProcess entry stackBase stackTop grants => threadPrepareUserTakes board entry stackBase stackTop grants k
  | .createUser entry _ returnPc stack grants => threadCreateUserTakes board entry returnPc stack grants k
  | .fork parentTc stack grants _ => sysForkTakes board parentTc stack grants k
  | _ => []

def frees (board : Board) (k : Kernel) : ThreadOp → Option (List UInt64)
  | .createKernel entry grants => some (threadCreateKernel entry grants k).freed
  | .createProcess entry stackBase stackTop grants =>
    some (userProcessCreate board entry stackBase stackTop grants k).freed
  | .createUser entry arg returnPc stack grants => some (threadCreateUser board entry arg returnPc stack grants k).freed
  | .fork parentTc stack grants mem => (sysFork board parentTc stack grants mem k).map ForkOutcome.freed
  | .reap => (threadReapZombies k).map Prod.fst
  | _ => some []

def createRet (board : Board) (k : Kernel) : ThreadOp → Option Int
  | .createKernel entry grants => some (threadCreateKernel entry grants k).ret
  | .createProcess entry stackBase stackTop grants =>
    some (userProcessCreate board entry stackBase stackTop grants k).ret
  | .createUser entry arg returnPc stack grants => some (threadCreateUser board entry arg returnPc stack grants k).ret
  | .fork parentTc stack grants mem => (sysFork board parentTc stack grants mem k).map ForkOutcome.ret
  | _ => none

def handed (board : Board) (k : Kernel) : ThreadOp → List UInt64
  | .createProcess entry stackBase stackTop grants =>
    if (userProcessCreate board entry stackBase stackTop grants k).ret < 0 then [] else [stackBase]
  | _ => []

structure Ledger where
  kernel : Kernel
  held : List UInt64
  lent : List UInt64

-- `none` when one of them is not live.
def kfreeEach : List UInt64 → List UInt64 → Option (List UInt64)
  | [], live => some live
  | block :: rest, live => if block ∈ live then kfreeEach rest (live.erase block) else none

inductive OwnOp where
  | thread (op : ThreadOp)
  | exec (boot : BootInfo) (fuel : Nat) (path : UInt64) (frame : Addr) (mem : Mem)
  | lend (stack : UInt64)
  | giveBack (stack : UInt64)

-- `none` when the operation faults, never returns or frees a block that is not live.
def ownStep (board : Board) (s : Ledger) : OwnOp → Option Ledger
  | .thread op => do
    let after ← Thread.exec board s.kernel op
    let freed ← frees board s.kernel op
    let held ← kfreeEach freed (takes board s.kernel op ++ s.held)
    some
      { kernel := after
        held := handed board s.kernel op ++ held
        lent := s.lent.diff (handed board s.kernel op) }
  | .exec boot fuel path frame mem =>
    (sysExec board boot fuel path frame mem s.kernel).map fun result => { s with kernel := result.2.2 }
  | .lend stack => some (if stack = 0 then s else { s with lent := stack :: s.lent })
  | .giveBack stack => (kfreeEach [stack] s.lent).map fun lent => { s with lent := lent }

-- `kmalloc` returns different blocks, none of them live and none of them the static boot thread.
def OwnAllowed (s : Ledger) : OwnOp → Prop
  | .thread op =>
    (offered op ++ (s.held ++ s.lent)).Nodup ∧ s.kernel.bootIdleThread ∉ offered op ∧
      match op with
      | .createProcess _ stackBase _ _ => stackBase ∈ s.lent
      | .finish entry => ∀ t, s.kernel.task entry = some t → threadCurrent s.kernel = some t
      | _ => True
  | .exec boot fuel _ _ mem => Searched boot fuel mem
  | .lend stack => stack = 0 ∨ stack ∉ s.held ++ s.lent
  | .giveBack stack => stack ∈ s.lent

def ledgerStart (bootIdle : Addr) : Ledger := ⟨threadSystemBootstrapInit (kernelStart bootIdle), [], []⟩

inductive OwnRun (board : Board) (bootIdle : Addr) : Ledger → Prop where
  | boot : OwnRun board bootIdle (ledgerStart bootIdle)
  | step {s s' : Ledger} (op : OwnOp) (run : OwnRun board bootIdle s) (allowed : OwnAllowed s op)
      (result : ownStep board s op = some s') : OwnRun board bootIdle s'

def execMaxInstances : Nat := 2

-- From `fail:` on, with the numbers of the batch, the newest first.
def spawnFail (board : Board) : (tids : List Int) → Ledger → Option Ledger
  | [], s => ownStep board s (.thread .reap)
  | tid :: tids, s => do
    let stopped ← ownStep board s (.thread (.stopTid tid (-1)))
    spawnFail board tids stopped

def spawnFrom (board : Board) (entry : UInt64) :
    (answers : List (UInt64 × Grants)) → (tids : List Int) → Ledger → Option (Int × Ledger)
  | [], _, s => some (0, s)
  | (stack, grants) :: rest, tids, s =>
    if stack = 0 then (spawnFail board tids s).map fun failed => (-1, failed)
    else do
      let lent ← ownStep board s (.lend stack)
      let tid := (userProcessCreate board entry stack (stack + userStackSize) grants lent.kernel).ret
      let created ← ownStep board lent (.thread (.createProcess entry stack (stack + userStackSize) grants))
      if tid < 0 then do
        let returned ← ownStep board created (.giveBack stack)
        (spawnFail board tids returned).map fun failed => (-1, failed)
      else spawnFrom board entry rest (tid :: tids) created

-- One answer of `kmalloc` per instance asked for.
def execSpawn (board : Board) (boot : BootInfo) (fuel : Nat) (name : Text) (answers : List (UInt64 × Grants))
    (mem : Mem) (s : Ledger) : Option (Int × Ledger) :=
  if answers.length = 0 ∨ execMaxInstances < answers.length then some (-1, s)
  else do
    match ← execLoadImage board boot fuel name mem s.kernel with
    | (none, _) => some (-1, s)
    | (some (entry, _), _) => spawnFrom board entry answers [] { s with kernel := threadSystemBootstrapInit s.kernel }

def SpawnAllowed (board : Board) (entry : UInt64) : List (UInt64 × Grants) → Ledger → Prop
  | [], _ => True
  | (stack, grants) :: rest, s =>
    stack = 0 ∨
      (OwnAllowed s (.lend stack) ∧
        ∀ lent, ownStep board s (.lend stack) = some lent →
          OwnAllowed lent (.thread (.createProcess entry stack (stack + userStackSize) grants)) ∧
            ∀ created,
              ownStep board lent (.thread (.createProcess entry stack (stack + userStackSize) grants)) =
                some created →
              0 ≤ (userProcessCreate board entry stack (stack + userStackSize) grants lent.kernel).ret →
              SpawnAllowed board entry rest created)

end OrangeKernel.Thread
