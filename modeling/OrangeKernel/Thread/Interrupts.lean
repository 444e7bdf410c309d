import OrangeKernel.Thread.Rollback

set_option autoImplicit false

-- `schedule` keeps the old status word in a local variable: on the stack of the thread while
-- another one runs.

namespace OrangeKernel.Thread

open Function Memory

def sstatusSie : UInt64 := (1 : UInt64) <<< 1

def localIrqsEnabled (sstatus : UInt64) : Bool := sstatus &&& sstatusSie ≠ 0

def localIrqSave (sstatus : UInt64) : UInt64 × UInt64 := (sstatus, sstatus &&& ~~~sstatusSie)

def localIrqRestore (status sstatus : UInt64) : UInt64 := sstatus ||| (status &&& sstatusSie)

def localIrqEnable (sstatus : UInt64) : UInt64 := sstatus ||| sstatusSie

inductive SwitchCall where
  | schedule
  | threadYield
  | waitLocked
  | sleepLocked (queue : Option Addr) (entry : Addr)

inductive IrqEvent where
  | called (t : Option Addr) (sie : Bool)
  -- The call at place `call` of the log returns.
  | returned (call : Nat) (t : Option Addr) (sie : Bool)
  | switched (sie : Bool)
  | entered (t : Addr) (sie : Bool)
deriving DecidableEq, Repr

structure Frame where
  caller : SwitchCall
  call : Nat
  sstatus : UInt64

structure Processor where
  kernel : Kernel
  sstatus : UInt64
  -- `none` for a thread that has never run.
  frame : Addr → Option Frame
  log : List IrqEvent

def Processor.record (event : IrqEvent) (s : Processor) : Processor := { s with log := s.log ++ [event] }

def Processor.returns (caller : SwitchCall) (call : Nat) (t : Option Addr) (s : Processor) : Option Processor :=
  let done (s : Processor) := s.record (.returned call t (localIrqsEnabled s.sstatus))
  match caller with
  | .sleepLocked _ entry => (waitQueueFinishLocked entry s.kernel).map fun kernel => done { s with kernel := kernel }
  | _ => some (done s)

def Processor.switchTo (prev next : Addr) (frame : Frame) (s : Processor) : Option Processor :=
  let switched := { s with frame := update s.frame prev (some frame) }.record (.switched (localIrqsEnabled s.sstatus))
  match switched.frame next with
  | some resumed =>
    { switched with
      sstatus := localIrqRestore resumed.sstatus s.sstatus
      frame := update switched.frame next none }.returns resumed.caller resumed.call (some next)
  | none =>
    let enabled := localIrqEnable s.sstatus
    some ({ switched with sstatus := enabled }.record (.entered next (localIrqsEnabled enabled)))

def Processor.schedule (caller : SwitchCall) (call : Nat) (s : Processor) : Option Processor :=
  match threadCurrent s.kernel with
  | none => s.returns caller call none
  | some prev =>
    let (status, masked) := localIrqSave s.sstatus
    (Thread.schedule s.kernel).bind fun kernel =>
      if kernel.current = some prev then
        { s with
          kernel := kernel
          sstatus := localIrqRestore status masked }.returns caller call (some prev)
      else
        kernel.current.bind fun next =>
          { s with
            kernel := kernel
            sstatus := masked }.switchTo prev next ⟨caller, call, status⟩

def Processor.waitLocked (bottomHalf : Bool) (caller : SwitchCall) (call : Nat) (s : Processor) : Option Processor := do
  let t := threadCurrent s.kernel
  let (ret, _) ← waitQueueWaitLocked ⟨localIrqsEnabled s.sstatus, bottomHalf⟩ s.kernel
  -- an accepted call goes to sleep unless it has been woken already
  if ret = 0 ∧ t.map s.kernel.state = some .waiting then s.schedule caller call else s.returns caller call t

def Processor.call (bottomHalf : Bool) (caller : SwitchCall) (s : Processor) : Option Processor :=
  let call := s.log.length
  let t := threadCurrent s.kernel
  let called := s.record (.called t (localIrqsEnabled s.sstatus))
  match caller with
  | .schedule | .threadYield => called.schedule caller call
  | .waitLocked => called.waitLocked bottomHalf caller call
  | .sleepLocked queue entry =>
    let (ret, prepared) :=
      waitQueuePrepareLocked ⟨localIrqsEnabled s.sstatus, bottomHalf⟩ queue (some entry) s.kernel
    if ret ≠ 0 then some (called.record (.returned call t (localIrqsEnabled s.sstatus)))
    else { called with kernel := prepared }.waitLocked bottomHalf caller call

def ThreadOp.stays : ThreadOp → Bool
  | .schedule | .yield | .wait _ | .sleep _ _ _ => false
  | _ => true

inductive ProcessorOp where
  | call (bottomHalf : Bool) (caller : SwitchCall)
  | status (sstatus : UInt64)
  | thread (op : ThreadOp)

-- A new thread object has no frame, even at the address of an old one.
def processorStep (board : Board) (s : Processor) : ProcessorOp → Option Processor
  | .call bottomHalf caller => s.call bottomHalf caller
  | .status sstatus => some { s with sstatus := sstatus }
  | .thread op =>
    if op.stays then
      (exec board s.kernel op).map fun kernel =>
        { s with
          kernel := kernel
          frame := op.task.elim s.frame fun t => update s.frame t none }
    else none

def processorStart (bootIdle : Addr) (sstatus : UInt64) : Processor :=
  { kernel := threadSystemBootstrapInit (kernelStart bootIdle)
    sstatus := sstatus
    frame := fun _ => none
    log := [] }

def processorOps (board : Board) (ops : List ProcessorOp) (s : Processor) : Option Processor :=
  ops.foldlM (processorStep board) s

theorem localIrqsEnabled_eq (sstatus : UInt64) : localIrqsEnabled sstatus = sstatus.toNat.testBit 1 := by
  have bit : (sstatus &&& sstatusSie).toNat = (sstatus.toNat.testBit 1).toNat * 2 := Nat.and_two_pow sstatus.toNat 1
  have same : sstatus &&& sstatusSie = 0 ↔ sstatus.toNat.testBit 1 = false := by
    rw [← UInt64.toNat_inj, bit]
    cases sstatus.toNat.testBit 1 <;> decide
  simp [localIrqsEnabled, same]

theorem localIrqSave_masks (sstatus : UInt64) : localIrqsEnabled (localIrqSave sstatus).2 = false := by
  have mask : (~~~sstatusSie).toNat.testBit 1 = false := by decide
  rw [localIrqsEnabled_eq, localIrqSave, UInt64.toNat_and, Nat.testBit_and, mask, Bool.and_false]

theorem localIrqRestore_enabled {sstatus : UInt64} (masked : localIrqsEnabled sstatus = false) (status : UInt64) :
    localIrqsEnabled (localIrqRestore status sstatus) = localIrqsEnabled status := by
  have mask : sstatusSie.toNat.testBit 1 = true := by decide
  rw [localIrqsEnabled_eq] at masked
  simp [localIrqsEnabled_eq, localIrqRestore, masked, mask]

theorem localIrqEnable_enabled (sstatus : UInt64) : localIrqsEnabled (localIrqEnable sstatus) = true := by
  have mask : sstatusSie.toNat.testBit 1 = true := by decide
  simp [localIrqsEnabled_eq, localIrqEnable, mask]

def IrqEvent.Kept (log : List IrqEvent) : IrqEvent → Prop
  | .called _ _ => True
  | .returned call t sie => log[call]? = some (.called t sie)
  | .switched sie => sie = false
  | .entered _ sie => sie = true

structure IrqsOk (frame : Addr → Option Frame) (log : List IrqEvent) : Prop where
  kept : ∀ event ∈ log, event.Kept log
  saved : ∀ t f, frame t = some f → log[f.call]? = some (.called (some t) (localIrqsEnabled f.sstatus))

theorem getElem?_snoc {log : List IrqEvent} {i : Nat} {event last : IrqEvent} (found : log[i]? = some event) :
    (log ++ [last])[i]? = some event := by
  rw [List.getElem?_append_left (List.getElem?_eq_some_iff.mp found).1, found]

theorem IrqEvent.Kept.snoc {log : List IrqEvent} {event : IrqEvent} (kept : event.Kept log) (last : IrqEvent) :
    event.Kept (log ++ [last]) := by
  cases event with
  | returned call t sie => exact getElem?_snoc kept
  | called | switched | entered => exact kept

variable {s s' : Processor} {caller : SwitchCall} {call : Nat} {t : Option Addr} {frame : Addr → Option Frame}
  {log : List IrqEvent}

theorem IrqsOk.record (ok : IrqsOk frame log) {event : IrqEvent} (kept : event.Kept log) :
    IrqsOk frame (log ++ [event]) where
  kept other member := by
    rcases List.mem_append.mp member with old | new
    · exact (ok.kept other old).snoc event
    · rw [List.mem_singleton.mp new]
      exact kept.snoc event
  saved t f suspended := getElem?_snoc (ok.saved t f suspended)

theorem IrqsOk.setFrame (ok : IrqsOk frame log) (t : Addr) (new : Option Frame)
    (saved : ∀ f, new = some f → log[f.call]? = some (.called (some t) (localIrqsEnabled f.sstatus))) :
    IrqsOk (update frame t new) log where
  kept := ok.kept
  saved u f suspended := by
    by_cases same : u = t
    · subst same
      rw [update_self] at suspended
      exact saved f suspended
    · rw [update_of_ne same] at suspended
      exact ok.saved u f suspended

theorem IrqsOk.returns (runs : s.returns caller call t = some s') (ok : IrqsOk s.frame s.log)
    (called : s.log[call]? = some (.called t (localIrqsEnabled s.sstatus))) : IrqsOk s'.frame s'.log := by
  cases caller with
  | sleepLocked queue entry =>
    obtain ⟨kernel, -, rfl⟩ := Option.map_eq_some_iff.mp runs
    exact ok.record called
  | schedule | threadYield | waitLocked =>
    cases runs
    exact ok.record called

-- the thread that is resumed gets the flag of its own call, whoever ran in between
theorem IrqsOk.switchTo {prev next : Addr} {f : Frame} (runs : s.switchTo prev next f = some s')
    (ok : IrqsOk s.frame s.log) (masked : localIrqsEnabled s.sstatus = false)
    (saved : s.log[f.call]? = some (.called (some prev) (localIrqsEnabled f.sstatus))) : IrqsOk s'.frame s'.log := by
  have suspends : IrqsOk (update s.frame prev (some f)) s.log :=
    ok.setFrame prev (some f) (by rintro _ ⟨⟩; exact saved)
  have switched := suspends.record (show (IrqEvent.switched (localIrqsEnabled s.sstatus)).Kept s.log from masked)
  simp only [Processor.switchTo] at runs
  split at runs
  next resumed suspended =>
    refine IrqsOk.returns runs (switched.setFrame next none (by simp)) ?_
    rw [localIrqRestore_enabled masked]
    exact switched.saved next resumed suspended
  · cases runs
    exact switched.record (localIrqEnable_enabled s.sstatus)

theorem IrqsOk.schedule (runs : s.schedule caller call = some s') (ok : IrqsOk s.frame s.log)
    (called : s.log[call]? = some (.called (threadCurrent s.kernel) (localIrqsEnabled s.sstatus))) :
    IrqsOk s'.frame s'.log := by
  have masked := localIrqSave_masks s.sstatus
  simp only [Processor.schedule] at runs
  split at runs
  next nobody => exact ok.returns runs (nobody ▸ called)
  next prev running =>
    rw [running] at called
    obtain ⟨kernel, -, goes⟩ := Option.bind_eq_some_iff.mp runs
    split at goes
    · refine IrqsOk.returns goes ok ?_
      rw [localIrqRestore_enabled masked]
      exact called
    · obtain ⟨next, -, switches⟩ := Option.bind_eq_some_iff.mp goes
      exact IrqsOk.switchTo switches ok masked called

theorem IrqsOk.waitLocked {bottomHalf : Bool} (runs : s.waitLocked bottomHalf caller call = some s')
    (ok : IrqsOk s.frame s.log)
    (called : s.log[call]? = some (.called (threadCurrent s.kernel) (localIrqsEnabled s.sstatus))) :
    IrqsOk s'.frame s'.log := by
  obtain ⟨answer, -, goes⟩ := Option.bind_eq_some_iff.mp runs
  dsimp only at goes
  split at goes
  · exact ok.schedule goes called
  · exact ok.returns goes called

theorem prepareLocked_current (flags : LocalFlags) (queue entry : Option Addr) (k : Kernel) :
    threadCurrent (waitQueuePrepareLocked flags queue entry k).2 = threadCurrent k := by
  unfold waitQueuePrepareLocked
  split
  · split
    · rfl
    · simp only [linkTask, linkQueue, Kernel.setState, threadCurrent]
      split <;> split <;> rfl
  · rfl

theorem IrqsOk.calls (ok : IrqsOk s.frame s.log) {bottomHalf : Bool} (runs : s.call bottomHalf caller = some s') :
    IrqsOk s'.frame s'.log := by
  let event : IrqEvent := .called (threadCurrent s.kernel) (localIrqsEnabled s.sstatus)
  have recorded : IrqsOk s.frame (s.log ++ [event]) := ok.record trivial
  have called : (s.log ++ [event])[s.log.length]? = some event := by simp
  cases caller with
  | schedule | threadYield => exact IrqsOk.schedule runs recorded called
  | waitLocked => exact IrqsOk.waitLocked runs recorded called
  | sleepLocked queue entry =>
    have current := prepareLocked_current ⟨localIrqsEnabled s.sstatus, bottomHalf⟩ queue (some entry) s.kernel
    simp only [Processor.call] at runs
    split at runs
    · cases runs
      exact recorded.record called
    · refine IrqsOk.waitLocked runs recorded ?_
      simp only [current]
      exact called

theorem IrqsOk.step (ok : IrqsOk s.frame s.log) {board : Board} {op : ProcessorOp}
    (runs : processorStep board s op = some s') : IrqsOk s'.frame s'.log := by
  cases op with
  | call bottomHalf caller => exact ok.calls runs
  | status sstatus =>
    cases runs
    exact ok
  | thread op =>
    simp only [processorStep] at runs
    split at runs
    · obtain ⟨kernel, -, rfl⟩ := Option.map_eq_some_iff.mp runs
      cases created : op.task with
      | none => simpa [created] using ok
      | some t => simpa [created] using ok.setFrame t none (by simp)
    · cases runs

theorem IrqsOk.ops {board : Board} (ops : List ProcessorOp) (ok : IrqsOk s.frame s.log)
    (runs : processorOps board ops s = some s') : IrqsOk s'.frame s'.log := by
  induction ops generalizing s with
  | nil =>
    cases runs
    exact ok
  | cons op ops ih =>
    obtain ⟨stepped, steps, rest⟩ := Option.bind_eq_some_iff.mp runs
    exact ih (ok.step steps) rest

theorem processorOps_irqs {board : Board} {bootIdle : Addr} {sstatus : UInt64} {ops : List ProcessorOp}
    (runs : processorOps board ops (processorStart bootIdle sstatus) = some s) :
    (∀ call t sie, .returned call t sie ∈ s.log → s.log[call]? = some (.called t sie)) ∧
      (∀ sie, .switched sie ∈ s.log → sie = false) ∧
      ∀ t sie, .entered t sie ∈ s.log → sie = true := by
  have start : IrqsOk (processorStart bootIdle sstatus).frame [] := ⟨by simp, by simp [processorStart]⟩
  have ok := start.ops ops runs
  exact ⟨fun _ _ _ => ok.kept _, fun _ => ok.kept _, fun _ _ => ok.kept _⟩

def yieldMasked : List ProcessorOp :=
  [.thread (.createKernel 0x80201000 ⟨some 0x80300000, 0x80304000⟩), .call false .schedule, .status 0,
    .call false .threadYield, .status 2, .call false .schedule]

theorem processorOps_irqs_yieldMasked :
    ∃ s, processorOps .qemu yieldMasked (processorStart 0x80200000 0) = some s ∧
      .returned 3 (some 0x80300000) false ∈ s.log ∧ s.log[3]? = some (.called (some 0x80300000) false) := by
  have returns : (processorOps .qemu yieldMasked (processorStart 0x80200000 0)).map (fun s =>
      decide (.returned 3 (some 0x80300000) false ∈ s.log)) = some true := by
    decide +kernel
  obtain ⟨s, runs, found⟩ := Option.map_eq_some_iff.mp returns
  have member := of_decide_eq_true found
  exact ⟨s, runs, member, (processorOps_irqs runs).1 3 _ _ member⟩

end OrangeKernel.Thread
