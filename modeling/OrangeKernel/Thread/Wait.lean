import OrangeKernel.Thread.Sched

set_option autoImplicit false

-- The local interrupt flag and the bottom-half flag come with each call.

namespace OrangeKernel.Thread

open Function

def threadCanSleep (flags : LocalFlags) (k : Kernel) : Bool :=
  match threadCurrent k with
  | none => false
  | some task => !k.isIdle task && k.state task = .running && flags.irqsEnabled && !flags.bottomHalf

def linkQueue (queue entry : Addr) (k : Kernel) : Kernel :=
  let tail := k.queueTail queue
  let placed := { k with
    entryPrev := update k.entryPrev entry tail
    entryNext := update k.entryNext entry none }
  let joined := match tail with
    | some last => { placed with entryNext := update placed.entryNext last (some entry) }
    | none => { placed with queueHead := update placed.queueHead queue (some entry) }
  { joined with queueTail := update joined.queueTail queue (some entry) }

def linkTask (task entry : Addr) (k : Kernel) : Kernel :=
  let first := k.waitEntries task
  let placed := { k with
    taskPrev := update k.taskPrev entry none
    taskNext := update k.taskNext entry first }
  let joined := match first with
    | some other => { placed with taskPrev := update placed.taskPrev other (some entry) }
    | none => placed
  { joined with waitEntries := update joined.waitEntries task (some entry) }

def waitQueuePrepareLocked (flags : LocalFlags) (queue entry : Option Addr) (k : Kernel) : Int × Kernel :=
  match queue, entry, threadCurrent k with
  | some q, some e, some task =>
    if flags.irqsEnabled ∨ flags.bottomHalf ∨ k.isIdle task ∨
        (k.state task ≠ .running ∧ k.state task ≠ .waiting) ∨ k.task e ≠ none ∨
        k.queue e ≠ none then (-1, k)
    else
      let registered := { k with
        task := update k.task e (some task)
        queue := update k.queue e (some q) }
      (0, (linkTask task e (linkQueue q e registered)).setState task .waiting)
  | _, _, _ => (-1, k)

def waitQueueWaitLocked (flags : LocalFlags) (k : Kernel) : Option (Int × Kernel) :=
  match threadCurrent k with
  | none => some (-1, k)
  | some task =>
    if flags.irqsEnabled ∨ flags.bottomHalf ∨ k.isIdle task ∨ k.waitEntries task = none ∨
        (k.state task ≠ .waiting ∧ k.state task ≠ .running) then some (-1, k)
    else if k.state task = .waiting then (schedule k).map fun switched => (0, switched)
    else some (0, k)

def unlinkQueue (queue entry : Addr) (k : Kernel) : Kernel :=
  let before := match k.entryPrev entry with
    | some prev => { k with entryNext := update k.entryNext prev (k.entryNext entry) }
    | none => { k with queueHead := update k.queueHead queue (k.entryNext entry) }
  match before.entryNext entry with
  | some next => { before with entryPrev := update before.entryPrev next (before.entryPrev entry) }
  | none => { before with queueTail := update before.queueTail queue (before.entryPrev entry) }

def unlinkTask (task entry : Addr) (k : Kernel) : Kernel :=
  let before := match k.taskPrev entry with
    | some prev => { k with taskNext := update k.taskNext prev (k.taskNext entry) }
    | none => { k with waitEntries := update k.waitEntries task (k.taskNext entry) }
  match before.taskNext entry with
  | some next => { before with taskPrev := update before.taskPrev next (before.taskPrev entry) }
  | none => before

def clearEntry (entry : Addr) (k : Kernel) : Kernel :=
  { k with
    task := update k.task entry none
    queue := update k.queue entry none
    entryPrev := update k.entryPrev entry none
    entryNext := update k.entryNext entry none
    taskPrev := update k.taskPrev entry none
    taskNext := update k.taskNext entry none }

-- `none` when a linked entry has no task.
def waitQueueFinishLocked (entry : Addr) (k : Kernel) : Option Kernel :=
  match k.queue entry with
  | none => some k
  | some queue => do
    let task ← k.task entry
    let cleared := clearEntry entry (unlinkTask task entry (unlinkQueue queue entry k))
    if threadCurrent cleared = some task ∧ cleared.state task = .waiting ∧ cleared.waitEntries task = none then
      some (cleared.setState task .running)
    else some cleared

-- `wait_queue_sleep_locked` up to the switch to another thread. The sleeper finishes the entry when
-- it runs again.
def waitQueueSleepLocked (flags : LocalFlags) (queue : Option Addr) (entry : Addr) (k : Kernel) :
    Option (Int × Kernel) :=
  let (ret, prepared) := waitQueuePrepareLocked flags queue (some entry) k
  if ret ≠ 0 then some (ret, prepared) else waitQueueWaitLocked flags prepared

def waitQueueCancelFrom (task : Addr) : (fuel : Nat) → Kernel → Option Kernel
  | 0, _ => none
  | fuel + 1, k =>
    match k.waitEntries task with
    | none => some k
    | some entry => do
      let finished ← waitQueueFinishLocked entry k
      waitQueueCancelFrom task fuel finished

def waitQueueCancelLocked (task : Addr) (k : Kernel) : Option Kernel :=
  waitQueueCancelFrom task walkLimit k

-- Whether the waiter was asleep, or `none` for an entry without a task.
def wakeWaiterLocked (entry : Addr) (k : Kernel) : Option (Bool × Kernel) := do
  let task ← k.task entry
  if k.state task ≠ .waiting then some (false, k)
  else if threadCurrent k = some task then some (true, k.setState task .running)
  else some (true, threadRequestResched (schedEnqueue task (k.setState task .runnable)))

def wakeOneFrom : (fuel : Nat) → (entry : Option Addr) → Kernel → Option Kernel
  | 0, _, _ => none
  | _ + 1, none, k => some k
  | fuel + 1, some entry, k => do
    let (woken, after) ← wakeWaiterLocked entry k
    if woken then some after else wakeOneFrom fuel (after.entryNext entry) after

def waitQueueWakeOne (queue : Addr) (k : Kernel) : Option Kernel :=
  wakeOneFrom walkLimit (k.queueHead queue) k

def wakeAllFrom : (fuel : Nat) → (entry : Option Addr) → Kernel → Option Kernel
  | 0, _, _ => none
  | _ + 1, none, k => some k
  | fuel + 1, some entry, k => do
    let (_, after) ← wakeWaiterLocked entry k
    wakeAllFrom fuel (after.entryNext entry) after

def waitQueueWakeAll (queue : Addr) (k : Kernel) : Option Kernel :=
  wakeAllFrom walkLimit (k.queueHead queue) k

end OrangeKernel.Thread
