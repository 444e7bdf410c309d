import OrangeKernel.Memory.Init
import OrangeKernel.Thread.Wait

set_option autoImplicit false

-- What `kmalloc` answers comes with each call that allocates, and each call that frees lists what
-- it passes to `kfree`.

namespace OrangeKernel.Thread

open Function Memory

def threadNextTid (k : Kernel) : Int × Kernel :=
  if k.nextTid ≤ int32Max then (k.nextTid, { k with nextTid := k.nextTid + 1 }) else (-1, k)

def threadListRemoveFrom (target : Addr) : (fuel : Nat) → (prev cur : Option Addr) → Kernel → Option Kernel
  | 0, _, _, _ => none
  | _ + 1, _, none, k => some k
  | fuel + 1, prev, some cur, k =>
    if cur = target then
      let unlinked := match prev with
        | none => { k with allThreads := k.allNext cur }
        | some p => k.setAllNext p (k.allNext cur)
      some (unlinked.setAllNext cur none)
    else threadListRemoveFrom target fuel (some cur) (k.allNext cur) k

def threadListRemove (target : Addr) (k : Kernel) : Option Kernel :=
  threadListRemoveFrom target walkLimit none k.allThreads k

structure Grants where
  task : Option Addr
  kstack : UInt64

structure Outcome where
  ret : Int
  freed : List UInt64
  kernel : Kernel

def clearThread (t : Addr) (k : Kernel) : Kernel :=
  { k with
    tid := update k.tid t 0
    tgid := update k.tgid t 0
    kind := update k.kind t .kernel
    state := update k.state t .running
    kstackBase := update k.kstackBase t 0
    next := update k.next t none
    znext := update k.znext t none
    allNext := update k.allNext t none
    waitEntries := update k.waitEntries t none
    isIdle := update k.isIdle t false
    userEntry := update k.userEntry t 0
    userStackBase := update k.userStackBase t 0
    userStackTop := update k.userStackTop t 0
    exitStatus := update k.exitStatus t 0
    tc := update k.tc t none }

-- The new thread or `none`, and what was freed on the way.
def threadAlloc (grants : Grants) (k : Kernel) : Option Addr × List UInt64 × Kernel :=
  let (tid, numbered) := threadNextTid k
  if tid < 0 then (none, [], numbered)
  else
    match grants.task with
    | none => (none, [], numbered)
    | some t =>
      let cleared := clearThread t numbered
      if grants.kstack = 0 then (none, [t], cleared)
      else
        (some t, [], { cleared with
          kstackBase := update cleared.kstackBase t grants.kstack
          tid := update cleared.tid t tid
          tgid := update cleared.tgid t tid
          state := update cleared.state t .new })

def threadPublish (t : Addr) (k : Kernel) : Kernel :=
  if k.state t = .new then schedEnqueue t (threadListAdd t (k.setState t .runnable)) else k

def threadCreateKernel (entry : UInt64) (grants : Grants) (k : Kernel) : Outcome :=
  if entry = 0 then ⟨-1, [], k⟩
  else
    match threadAlloc grants k with
    | (none, freed, after) => ⟨-1, freed, after⟩
    | (some t, freed, after) =>
      let published := threadPublish t { after with kind := update after.kind t .kernel }
      ⟨published.tid t, freed, published⟩

def sstatusSpie : UInt64 := 0x20

def userStackSize : UInt64 := 0x00010000

def badUserPc (board : Board) (pc : UInt64) : Bool :=
  pc.toNat < userCodeBase board || userCodeBase board + userCodeSize ≤ pc.toNat || pc &&& 1 ≠ 0

def resetTrapContext (task userStackTop userEntry : UInt64) : TrapContext :=
  { word := fun
      | .sp => userStackTop
      | .tp => task
      | .sepc => userEntry
      | .sstatus => sstatusSpie
      | _ => 0 }

def threadPrepareUser (board : Board) (entry stackBase stackTop : UInt64) (grants : Grants) (k : Kernel) :
    Option Addr × List UInt64 × Kernel :=
  if badUserPc board entry || stackBase = 0 || stackTop ≤ stackBase || stackTop &&& 15 ≠ 0 then (none, [], k)
  else
    match threadAlloc grants k with
    | (none, freed, after) => (none, freed, after)
    | (some t, freed, after) =>
      (some t, freed, { after with
        kind := update after.kind t .user
        userEntry := update after.userEntry t entry
        userStackBase := update after.userStackBase t stackBase
        userStackTop := update after.userStackTop t stackTop
        tc := update after.tc t (some (resetTrapContext t stackTop entry)) })

def userProcessCreate (board : Board) (entry stackBase stackTop : UInt64) (grants : Grants) (k : Kernel) : Outcome :=
  match threadPrepareUser board entry stackBase stackTop grants k with
  | (none, freed, after) => ⟨-1, freed, after⟩
  | (some t, freed, after) =>
    let published := threadPublish t after
    ⟨published.tid t, freed, published⟩

-- `stack` is what `kmalloc` answers for the user stack.
def threadCreateUser (board : Board) (entry arg returnPc stack : UInt64) (grants : Grants) (k : Kernel) : Outcome :=
  match threadCurrent k with
  | none => ⟨-1, [], k⟩
  | some parent =>
    match k.tc parent with
    | none => ⟨-1, [], k⟩
    | some parentTc =>
      if k.kind parent ≠ .user ∨ k.state parent = .zombie ∨ badUserPc board entry ∨ badUserPc board returnPc ∨
          stack = 0 then ⟨-1, [], k⟩
      else
        match threadPrepareUser board entry stack (stack + userStackSize) grants k with
        | (none, freed, after) => ⟨-1, freed ++ [stack], after⟩
        | (some t, freed, after) =>
          let ready := (after.tc t).map fun context =>
            ((context.set .a0 arg).set .ra returnPc).set .gp (parentTc.word .gp)
          let published := threadPublish t { after with
            tgid := update after.tgid t (after.tgid parent)
            tc := update after.tc t ready }
          ⟨published.tid t, freed, published⟩

def findByTidFrom (tid : Int) (k : Kernel) : (fuel : Nat) → (cur : Option Addr) → Option (Option Addr)
  | 0, _ => none
  | _ + 1, none => some none
  | fuel + 1, some cur => if k.tid cur = tid then some (some cur) else findByTidFrom tid k fuel (k.allNext cur)

def threadFindByTid (tid : Int) (k : Kernel) : Option (Option Addr) :=
  findByTidFrom tid k walkLimit k.allThreads

-- The last lines shared by `thread_mark_current_zombie` and `thread_stop_tid`.
def makeZombie (t : Addr) (status : Int) (k : Kernel) : Kernel :=
  { k with
    state := update k.state t .zombie
    exitStatus := update k.exitStatus t status
    znext := update k.znext t k.zombieHead
    zombieHead := some t }

def threadMarkCurrentZombie (status : Int) (k : Kernel) : Option Kernel :=
  match threadCurrent k with
  | none => some k
  | some cur =>
    if k.isIdle cur ∨ k.state cur = .zombie then some k
    else (waitQueueCancelLocked cur k).map (makeZombie cur status)

def threadStopTid (tid status : Int) (k : Kernel) : Option (Int × Kernel) := do
  match ← threadFindByTid tid k with
  | none => some (-1, k)
  | some target =>
    if k.isIdle target then some (-1, k)
    else if threadCurrent k = some target then
      (threadMarkCurrentZombie status k).map fun after => (0, after)
    else if k.state target = .zombie then some (0, k)
    else do
      let removed ← schedRemove target k
      let cancelled ← waitQueueCancelLocked target removed
      some (0, makeZombie target status cancelled)

def stopProcessFrom (tgid status : Int) : (fuel : Nat) → (cur : Option Addr) → (found : Bool) → Kernel →
    Option (Bool × Kernel)
  | 0, _, _, _ => none
  | _ + 1, none, found, k => some (found, k)
  | fuel + 1, some cur, found, k =>
    if k.kind cur = .user ∧ k.tgid cur = tgid then do
      let (_, after) ← threadStopTid (k.tid cur) status k
      stopProcessFrom tgid status fuel (after.allNext cur) true after
    else stopProcessFrom tgid status fuel (k.allNext cur) found k

def threadStopProcess (tgid status : Int) (k : Kernel) : Option (Int × Kernel) :=
  (stopProcessFrom tgid status walkLimit k.allThreads false k).map fun result =>
    (if result.1 then 0 else -1, result.2)

def blocksOf (z : Addr) (k : Kernel) : List UInt64 :=
  (if k.kind z = .user ∧ k.userStackBase z ≠ 0 then [k.userStackBase z] else []) ++
    (if k.kstackBase z ≠ 0 then [k.kstackBase z] else []) ++ [z]

def reapFrom : (fuel : Nat) → (freed : List UInt64) → Kernel → Option (List UInt64 × Kernel)
  | 0, _, _ => none
  | fuel + 1, freed, k =>
    match k.zombieHead with
    | none => some (freed, k)
    | some z =>
      if threadCurrent k = some z then some (freed, k)
      else
        let popped := { k with zombieHead := k.znext z }
        if popped.isIdle z then reapFrom fuel freed popped
        else do
          let removed ← threadListRemove z popped
          reapFrom fuel (freed ++ blocksOf z removed) removed

def threadReapZombies (k : Kernel) : Option (List UInt64 × Kernel) := reapFrom walkLimit [] k

def groupSizeFrom (tgid : Int) (k : Kernel) : (fuel : Nat) → (cur : Option Addr) → (count : Nat) → Option Nat
  | 0, _, _ => none
  | _ + 1, none, count => some count
  | fuel + 1, some cur, count =>
    if k.kind cur = .user ∧ k.tgid cur = tgid ∧ k.state cur ≠ .zombie
    then groupSizeFrom tgid k fuel (k.allNext cur) (count + 1)
    else groupSizeFrom tgid k fuel (k.allNext cur) count

def threadUserGroupSize (t : Addr) (k : Kernel) : Option Nat :=
  if k.kind t = .user then groupSizeFrom (k.tgid t) k walkLimit k.allThreads 0 else some 0

end OrangeKernel.Thread
