import OrangeKernel.Thread.Ledger

set_option autoImplicit false

namespace OrangeKernel.Thread

open Memory

-- What the run queue and the wait queues leave alone.
structure Records where
  tgid : Addr → Int
  kind : Addr → ThreadKind
  kstackBase : Addr → UInt64
  allNext : Addr → Option Addr
  isIdle : Addr → Bool
  userStackBase : Addr → UInt64
  userStackTop : Addr → UInt64
  exitStatus : Addr → Int
  allThreads : Option Addr

def Kernel.records (k : Kernel) : Records :=
  ⟨k.tgid, k.kind, k.kstackBase, k.allNext, k.isIdle, k.userStackBase, k.userStackTop, k.exitStatus, k.allThreads⟩

structure SameTable (k k' : Kernel) : Prop where
  kind : k'.kind = k.kind
  isIdle : k'.isIdle = k.isIdle
  kstackBase : k'.kstackBase = k.kstackBase
  userStackBase : k'.userStackBase = k.userStackBase
  allNext : k'.allNext = k.allNext
  allThreads : k'.allThreads = k.allThreads

variable {k after : Kernel}

theorem SameTable.of_records (same : after.records = k.records) : SameTable k after :=
  ⟨congrArg Records.kind same, congrArg Records.isIdle same, congrArg Records.kstackBase same,
    congrArg Records.userStackBase same, congrArg Records.allNext same, congrArg Records.allThreads same⟩

theorem SameTable.refl (k : Kernel) : SameTable k k := .of_records rfl

theorem SameTable.trans {l m : Kernel} (first : SameTable k l) (second : SameTable l m) : SameTable k m :=
  ⟨second.kind.trans first.kind, second.isIdle.trans first.isIdle, second.kstackBase.trans first.kstackBase,
    second.userStackBase.trans first.userStackBase, second.allNext.trans first.allNext,
    second.allThreads.trans first.allThreads⟩

theorem schedEnqueue_records (t : Addr) (k : Kernel) : (schedEnqueue t k).records = k.records := by
  unfold schedEnqueue
  cases tail : k.runTail <;> simp only [Kernel.setNext, tail] <;> rfl

theorem runqPop_records (k : Kernel) : (runqPop k).2.records = k.records := by
  unfold runqPop
  cases k.runHead <;> rfl

variable {fuel : Nat}

theorem schedRemoveFrom_records {target : Addr} {prev cur : Option Addr}
    (removes : schedRemoveFrom target fuel prev cur k = some after) : after.records = k.records := by
  fun_induction schedRemoveFrom target fuel prev cur k with
  | case1 => simp at removes
  | case2 =>
    cases removes
    rfl
  | case3 fuel prev k unlinked shortened =>
    cases removes
    have first : unlinked.records = k.records := by cases prev <;> rfl
    have second : shortened.records = unlinked.records := by
      simp only [shortened]
      split <;> rfl
    exact second.trans first
  | case4 fuel prev cur k other ih => exact ih removes

theorem popRunnable_records {next : Option Addr}
    (pops : popRunnable fuel k = some (next, after)) : after.records = k.records := by
  fun_induction popRunnable fuel k with
  | case1 => simp at pops
  | case2 fuel k popped empty =>
    cases pops
    simpa [empty] using runqPop_records k
  | case3 fuel k t popped first runnable =>
    cases pops
    simpa [first] using runqPop_records k
  | case4 fuel k t popped first skipped ih =>
    have one : popped.records = k.records := by simpa [first] using runqPop_records k
    exact (ih pops).trans one

theorem switchTo_records (prev next : Addr) (k : Kernel) : (switchTo prev next k).records = k.records := by
  unfold switchTo
  by_cases same : prev = next
  · rw [if_pos same]
    rfl
  · rw [if_neg same]
    extract_lets yielded picked queued
    have first : picked.records = k.records := by
      simp only [picked, yielded]
      split <;> rfl
    have second : queued.records = picked.records := by
      simp only [queued]
      split
      · exact schedEnqueue_records prev picked
      · rfl
    exact second.trans first

theorem schedule_records (runs : schedule k = some after) : after.records = k.records := by
  unfold schedule at runs
  split at runs
  · cases runs
    rfl
  next prev current =>
    obtain ⟨⟨next, popped⟩, pops, rest⟩ := Option.bind_eq_some_iff.mp runs
    have first := popRunnable_records pops
    dsimp only at rest
    split at rest
    · cases rest
      exact (switchTo_records _ _ popped).trans first
    · split at rest
      · cases rest
        exact first
      · cases rest
        exact (switchTo_records _ _ popped).trans first

theorem waitQueuePrepareLocked_records (flags : LocalFlags) (queue entry : Option Addr) (k : Kernel) :
    (waitQueuePrepareLocked flags queue entry k).2.records = k.records := by
  have linkQueue : ∀ q e k, (linkQueue q e k).records = k.records := fun q e k => by
    unfold Thread.linkQueue
    cases k.queueTail q <;> rfl
  have linkTask : ∀ t e k, (linkTask t e k).records = k.records := fun t e k => by
    unfold Thread.linkTask
    cases k.waitEntries t <;> rfl
  unfold waitQueuePrepareLocked
  split
  next q e task _ =>
    split
    · rfl
    · exact (linkTask task e _).trans (linkQueue q e _)
  · rfl

variable {ret : Int}

theorem waitQueueWaitLocked_records {flags : LocalFlags}
    (waits : waitQueueWaitLocked flags k = some (ret, after)) : after.records = k.records := by
  unfold waitQueueWaitLocked at waits
  split at waits
  · cases waits
    rfl
  next task current =>
    split at waits
    · cases waits
      rfl
    · split at waits
      · obtain ⟨switched, runs, result⟩ := Option.map_eq_some_iff.mp waits
        obtain ⟨-, rfl⟩ := Prod.mk.inj result
        exact schedule_records runs
      · cases waits
        rfl

variable {entry : Addr}

theorem waitQueueSleepLocked_records {flags : LocalFlags} {queue : Option Addr}
    (sleeps : waitQueueSleepLocked flags queue entry k = some (ret, after)) : after.records = k.records := by
  have prepared := waitQueuePrepareLocked_records flags queue (some entry) k
  unfold waitQueueSleepLocked at sleeps
  dsimp only at sleeps
  split at sleeps
  · cases sleeps
    exact prepared
  · exact (waitQueueWaitLocked_records sleeps).trans prepared

theorem waitQueueFinishLocked_records (finishes : waitQueueFinishLocked entry k = some after) :
    after.records = k.records := by
  unfold waitQueueFinishLocked at finishes
  split at finishes
  · cases finishes
    rfl
  next queue placed =>
    obtain ⟨task, -, rest⟩ := Option.bind_eq_some_iff.mp finishes
    have unlinked : (unlinkTask task entry (unlinkQueue queue entry k)).records = k.records := by
      rw [unlinkTask_eq, unlinkQueue_eq]
      rfl
    dsimp only at rest
    split at rest
    · cases rest
      exact unlinked
    · cases rest
      exact unlinked

theorem waitQueueCancelFrom_records {task : Addr}
    (cancels : waitQueueCancelFrom task fuel k = some after) : after.records = k.records := by
  induction fuel generalizing k with
  | zero => simp [waitQueueCancelFrom] at cancels
  | succ fuel ih =>
    unfold waitQueueCancelFrom at cancels
    split at cancels
    · obtain rfl := Option.some.inj cancels
      rfl
    next entry first =>
      obtain ⟨finished, finishes, rest⟩ := Option.bind_eq_some_iff.mp cancels
      exact (ih rest).trans (waitQueueFinishLocked_records finishes)

-- A wake never makes a zombie and never switches.
structure Woken (k k' : Kernel) : Prop where
  records : k'.records = k.records
  current : k'.current = k.current
  zombie : ∀ t, k'.state t = .zombie → k.state t = .zombie

theorem Woken.refl (k : Kernel) : Woken k k := ⟨rfl, rfl, fun _ dead => dead⟩

theorem Woken.trans {l m : Kernel} (first : Woken k l) (second : Woken l m) : Woken k m :=
  ⟨second.records.trans first.records, second.current.trans first.current,
    fun t dead => first.zombie t (second.zombie t dead)⟩

theorem setState_woken (k : Kernel) (t : Addr) {state : ThreadState} (live : state ≠ .zombie) :
    Woken k (k.setState t state) := by
  refine ⟨rfl, rfl, fun u dead => ?_⟩
  by_cases same : u = t
  · subst same
    simp only [Kernel.setState, Function.update_self] at dead
    exact absurd dead live
  · simpa only [Kernel.setState, Function.update_of_ne same] using dead

theorem schedEnqueue_woken (k : Kernel) (t : Addr) : Woken k (schedEnqueue t k) := by
  refine ⟨schedEnqueue_records t k, ?_, ?_⟩ <;> unfold schedEnqueue
  · cases tail : k.runTail <;> simp only [Kernel.setNext, tail]
  · cases tail : k.runTail <;> simp [Kernel.setNext, tail]

theorem wakeWaiterLocked_woken {woken : Bool} (wakes : wakeWaiterLocked entry k = some (woken, after)) :
    Woken k after := by
  unfold wakeWaiterLocked at wakes
  obtain ⟨task, -, wakes⟩ := Option.bind_eq_some_iff.mp wakes
  split at wakes
  · cases wakes
    exact .refl k
  · split at wakes
    · cases wakes
      exact setState_woken k task (by decide)
    · cases wakes
      have runnable : Woken k (k.setState task .runnable) := setState_woken k task (by decide)
      have queued := runnable.trans (schedEnqueue_woken _ task)
      exact ⟨queued.records, queued.current, queued.zombie⟩

theorem wakeOneFrom_woken {entry : Option Addr}
    (wakes : wakeOneFrom fuel entry k = some after) : Woken k after := by
  induction fuel generalizing entry k with
  | zero => simp [wakeOneFrom] at wakes
  | succ fuel ih =>
    cases entry with
    | none =>
      obtain rfl := Option.some.inj wakes
      exact .refl k
    | some entry =>
      obtain ⟨⟨woken, next⟩, one, rest⟩ := Option.bind_eq_some_iff.mp wakes
      have first := wakeWaiterLocked_woken one
      dsimp only at rest
      split at rest
      · obtain rfl := Option.some.inj rest
        exact first
      · exact first.trans (ih rest)

theorem wakeAllFrom_woken {entry : Option Addr}
    (wakes : wakeAllFrom fuel entry k = some after) : Woken k after := by
  induction fuel generalizing entry k with
  | zero => simp [wakeAllFrom] at wakes
  | succ fuel ih =>
    cases entry with
    | none =>
      obtain rfl := Option.some.inj wakes
      exact .refl k
    | some entry =>
      obtain ⟨⟨woken, next⟩, one, rest⟩ := Option.bind_eq_some_iff.mp wakes
      exact (wakeWaiterLocked_woken one).trans (ih rest)

variable {status : Int}

theorem threadMarkCurrentZombie_table (marks : threadMarkCurrentZombie status k = some after) : SameTable k after := by
  unfold threadMarkCurrentZombie at marks
  split at marks
  · cases marks
    exact .refl k
  next cur current =>
    split at marks
    · cases marks
      exact .refl k
    · obtain ⟨cancelled, cancels, result⟩ := Option.map_eq_some_iff.mp marks
      subst result
      have table := SameTable.of_records (waitQueueCancelFrom_records cancels)
      exact ⟨table.kind, table.isIdle, table.kstackBase, table.userStackBase, table.allNext, table.allThreads⟩

theorem threadStopTid_table {tid : Int} (stops : threadStopTid tid status k = some (ret, after)) :
    SameTable k after := by
  unfold threadStopTid at stops
  obtain ⟨found, -, rest⟩ := Option.bind_eq_some_iff.mp stops
  cases found with
  | none =>
    cases rest
    exact .refl k
  | some target =>
    dsimp only at rest
    split at rest
    · cases rest
      exact .refl k
    · split at rest
      · obtain ⟨marked, marks, result⟩ := Option.map_eq_some_iff.mp rest
        obtain ⟨-, rfl⟩ := Prod.mk.inj result
        exact threadMarkCurrentZombie_table marks
      · split at rest
        · cases rest
          exact .refl k
        · obtain ⟨removed, removes, rest⟩ := Option.bind_eq_some_iff.mp rest
          obtain ⟨cancelled, cancels, rest⟩ := Option.bind_eq_some_iff.mp rest
          cases rest
          have table := SameTable.of_records
            ((waitQueueCancelFrom_records cancels).trans (schedRemoveFrom_records removes))
          exact ⟨table.kind, table.isIdle, table.kstackBase, table.userStackBase, table.allNext, table.allThreads⟩

theorem stopProcessFrom_table {tgid : Int} {cur : Option Addr} {found result : Bool}
    (stops : stopProcessFrom tgid status fuel cur found k = some (result, after)) :
    SameTable k after := by
  induction fuel generalizing cur found k with
  | zero => simp [stopProcessFrom] at stops
  | succ fuel ih =>
    cases cur with
    | none =>
      obtain ⟨-, rfl⟩ := Prod.mk.inj (Option.some.inj stops)
      exact .refl k
    | some cur =>
      unfold stopProcessFrom at stops
      split at stops
      · obtain ⟨⟨ret, stopped⟩, one, rest⟩ := Option.bind_eq_some_iff.mp stops
        exact (threadStopTid_table one).trans (ih rest)
      · exact ih stops

theorem sysExec_table {board : Board} {boot : BootInfo} {path : UInt64} {frame : Addr} {mem mem' : ByteMemory.Mem}
    (runs : sysExec board boot fuel path frame mem k = some (ret, mem', after)) :
    SameTable k after := by
  obtain ⟨-, -, rfl⟩ | ⟨-, -, task, tc, -, -, rfl⟩ := sysExec_cases runs
  · exact .refl after
  · obtain ⟨reset, shape⟩ := userResetTrapContext_shape task { k with
      userEntry := Function.update k.userEntry task (UInt64.ofNat (userCodeBase board)) }
    rw [shape]
    exact .of_records rfl

end OrangeKernel.Thread
