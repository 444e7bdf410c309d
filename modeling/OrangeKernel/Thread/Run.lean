import OrangeKernel.Thread.Lives

set_option autoImplicit false

namespace OrangeKernel.Thread

open Intrusive Memory

inductive ThreadOp where
  | createKernel (entry : UInt64) (grants : Grants)
  | createProcess (entry stackBase stackTop : UInt64) (grants : Grants)
  | createUser (entry arg returnPc stack : UInt64) (grants : Grants)
  | fork (parentTc : TrapContext) (stack : UInt64) (grants : Grants) (mem : ByteMemory.Mem)
  | schedule
  | yield
  | prepare (flags : LocalFlags) (queue entry : Option Addr)
  | wait (flags : LocalFlags)
  | finish (entry : Addr)
  | sleep (flags : LocalFlags) (queue : Option Addr) (entry : Addr)
  | wakeOne (queue : Addr)
  | wakeAll (queue : Addr)
  | stopTid (tid status : Int)
  | stopProcess (tgid status : Int)
  | markCurrentZombie (status : Int)
  | reap

-- `none` when the operation faults or never returns.
def exec (board : Board) (k : Kernel) : ThreadOp → Option Kernel
  | .createKernel entry grants => some (threadCreateKernel entry grants k).kernel
  | .createProcess entry stackBase stackTop grants =>
    some (userProcessCreate board entry stackBase stackTop grants k).kernel
  | .createUser entry arg returnPc stack grants =>
    some (threadCreateUser board entry arg returnPc stack grants k).kernel
  | .fork parentTc stack grants mem => (sysFork board parentTc stack grants mem k).map ForkOutcome.kernel
  | .schedule => Thread.schedule k
  | .yield => threadYield k
  | .prepare flags queue entry => some (waitQueuePrepareLocked flags queue entry k).2
  | .wait flags => (waitQueueWaitLocked flags k).map Prod.snd
  | .finish entry => waitQueueFinishLocked entry k
  | .sleep flags queue entry => (waitQueueSleepLocked flags queue entry k).map Prod.snd
  | .wakeOne queue => waitQueueWakeOne queue k
  | .wakeAll queue => waitQueueWakeAll queue k
  | .stopTid tid status => (threadStopTid tid status k).map Prod.snd
  | .stopProcess tgid status => (threadStopProcess tgid status k).map Prod.snd
  | .markCurrentZombie status => threadMarkCurrentZombie status k
  | .reap => (threadReapZombies k).map Prod.snd

def Grants.Fresh (grants : Grants) (k : Kernel) : Prop :=
  ∀ t, grants.task = some t → ∀ all, Stack k.allNext k.allThreads all → t ∉ all

-- What the callers promise: `kmalloc` returns unused memory, and a thread finishes only entries
-- that it owns itself.
def Allowed (k : Kernel) : ThreadOp → Prop
  | .createKernel _ grants => grants.Fresh k
  | .createProcess _ _ _ grants => grants.Fresh k
  | .createUser _ _ _ _ grants => grants.Fresh k
  | .fork _ _ grants _ => grants.Fresh k
  | .finish entry => ∀ t, k.task entry = some t → threadCurrent k = some t
  | _ => True

inductive ThreadRun (board : Board) (bootIdle : Addr) : Kernel → Prop where
  | boot : ThreadRun board bootIdle (threadSystemBootstrapInit (kernelStart bootIdle))
  | step {k k' : Kernel} (op : ThreadOp) (run : ThreadRun board bootIdle k) (allowed : Allowed k op)
      (result : exec board k op = some k') : ThreadRun board bootIdle k'

def schedStart (bootIdle : Addr) : Sched :=
  { run := []
    zombies := []
    all := [bootIdle]
    queued := fun _ => []
    regs := fun _ => []
    owner := fun _ => none
    place := fun _ => none
    state := fun _ => .running
    tid := fun _ => 0
    tgid := fun _ => 0
    kind := fun _ => .kernel
    idle := Function.update (fun _ => false) bootIdle true
    bootIdle := bootIdle
    current := bootIdle
    nextTid := 1 }

theorem schedStart_ok (bootIdle : Addr) : SchedOk (schedStart bootIdle) := by
  constructor <;> constructor <;> simp [schedStart]

theorem schedStart_rep (bootIdle : Addr) :
    Rep (threadSystemBootstrapInit (kernelStart bootIdle)) (schedStart bootIdle) := by
  have family : ∀ links : Links Addr, Family links (fun _ : Addr => none) (fun _ : Addr => []) := fun links =>
    ⟨fun _ => ⟨trivial, trivial⟩, fun _ _ _ => List.disjoint_nil_left _, fun _ => rfl⟩
  have same : ∀ {B : Type} (b : B), Function.update (fun _ : Addr => b) bootIdle b = fun _ => b := fun b =>
    Function.update_eq_self bootIdle (fun _ => b)
  exact
    { run := ⟨trivial, rfl, rfl⟩
      zombies := ⟨trivial, rfl⟩
      all :=
        ⟨⟨by simp [threadSystemBootstrapInit, kernelStart, threadRegisterBoot, threadListAdd, Kernel.setAllNext],
        trivial⟩, rfl⟩
      queued := family _
      tails := fun _ => rfl
      regs := family _
      owner := rfl
      place := rfl
      state := same _
      tid := rfl
      tgid := rfl
      kind := same _
      idle := rfl
      boot := rfl
      current := rfl
      next_tid := rfl }

variable {k : Kernel} {a : Sched}

theorem Grants.Fresh.forSched {grants : Grants} (fresh : grants.Fresh k) (rep : Rep k a) :
    grants.FreshFor a := fun t task => fresh t task a.all rep.all

theorem Grants.fresh_of_stack {k : Kernel} {all : List Addr} (stack : Stack k.allNext k.allThreads all) {t : Addr}
    (absent : t ∉ all) (kstack : UInt64) : Grants.Fresh ⟨some t, kstack⟩ k := by
  intro u task others listed
  obtain rfl : t = u := Option.some.inj task
  rw [listed.unique stack]
  exact absent

def Sched.after (a : Sched) : ThreadOp → Sched
  | .createKernel _ grants => (a.create .kernel none grants).2
  | .createProcess _ _ _ grants => (a.create .user none grants).2
  | .createUser _ _ _ _ grants => (a.create .user (some (a.tgid a.current)) grants).2
  | .fork _ _ grants _ => (a.create .user none grants).2
  | .schedule | .yield => a.schedule
  | .prepare flags queue entry => (a.prepareLocked flags queue entry).2
  | .wait flags => (a.waitLocked flags).2
  | .finish entry => a.finish entry
  | .sleep flags queue entry => (a.sleepLocked flags queue entry).2
  | .wakeOne queue => a.wakeOne queue
  | .wakeAll queue => a.wakeAll queue
  | .stopTid tid _ => (a.stopTid tid).2
  | .stopProcess tgid _ => (a.stopProcess tgid).2
  | .markCurrentZombie _ => a.stop a.current
  | .reap => a.reap

theorem Created.next {kind : ThreadKind} {group : Option Int} {grants : Grants} {ret : Int}
    (created : Created a kind group grants ret k) (ok : SchedOk a) (fresh : grants.FreshFor a) :
    ∃ b, Rep k b ∧ SchedOk b ∧ (b = a ∨ b = (a.create kind group grants).2) := by
  obtain ⟨-, rep⟩ | ⟨-, rep⟩ := created
  · exact ⟨a, rep, ok, .inl rfl⟩
  · exact ⟨_, rep, ok.create fresh kind group, .inr rfl⟩

theorem exec_next (board : Board) (rep : Rep k a) (ok : SchedOk a) (op : ThreadOp)
    (allowed : Allowed k op) :
    ∃ k' b, exec board k op = some k' ∧ Rep k' b ∧ SchedOk b ∧ (b = a ∨ b = a.after op) := by
  cases op with
  | createKernel entry grants =>
    have fresh := Grants.Fresh.forSched allowed rep
    obtain ⟨b, next⟩ := (rep.createKernel ok fresh entry).next ok fresh
    exact ⟨_, b, rfl, next⟩
  | createProcess entry stackBase stackTop grants =>
    have fresh := Grants.Fresh.forSched allowed rep
    obtain ⟨b, next⟩ := (rep.createProcess ok fresh board entry stackBase stackTop).next ok fresh
    exact ⟨_, b, rfl, next⟩
  | createUser entry arg returnPc stack grants =>
    have fresh := Grants.Fresh.forSched allowed rep
    obtain ⟨b, next⟩ := (rep.createUser ok fresh board entry arg returnPc stack).next ok fresh
    exact ⟨_, b, rfl, next⟩
  | fork parentTc stack grants mem =>
    have fresh := Grants.Fresh.forSched allowed rep
    obtain ⟨out, forks, created⟩ := rep.fork ok fresh board parentTc stack mem
    obtain ⟨b, next⟩ := created.next ok fresh
    exact ⟨out.kernel, b, by simp [exec, forks], next⟩
  | schedule =>
    obtain ⟨after, runs, done⟩ := rep.schedule ok
    exact ⟨after, _, runs, done, ok.schedule, .inr rfl⟩
  | yield =>
    obtain ⟨after, runs, done⟩ := rep.schedule ok
    exact ⟨after, _, runs, done, ok.schedule, .inr rfl⟩
  | prepare flags queue entry =>
    obtain ⟨after, runs, done⟩ := rep.prepare ok.wait flags queue entry
    exact ⟨after, _, by simp [exec, runs], done, ok.prepareLocked flags queue entry, .inr rfl⟩
  | wait flags =>
    obtain ⟨after, runs, done⟩ := rep.wait ok flags
    exact ⟨after, _, by simp [exec, runs], done, ok.waitLocked flags, .inr rfl⟩
  | finish entry =>
    obtain ⟨after, runs, done⟩ := rep.finish ok.wait entry
    refine ⟨after, _, runs, done, ok.finish fun t owned => ?_, .inr rfl⟩
    exact (rep.isCurrent t).mp (allowed t (by rw [rep.owner, owned]))
  | sleep flags queue entry =>
    obtain ⟨after, runs, done⟩ := rep.sleep ok flags queue entry
    exact ⟨after, _, by simp [exec, runs], done, ok.sleepLocked flags queue entry, .inr rfl⟩
  | wakeOne queue =>
    obtain ⟨after, runs, done⟩ := rep.wakeOne ok queue
    exact ⟨after, _, runs, done, ok.wakeFirst _, .inr rfl⟩
  | wakeAll queue =>
    obtain ⟨after, runs, done⟩ := rep.wakeAll ok queue
    exact ⟨after, _, runs, done, ok.wakeEach _, .inr rfl⟩
  | stopTid tid status =>
    obtain ⟨after, runs, done⟩ := rep.stopTid ok tid status
    exact ⟨after, _, by simp [exec, runs], done, ok.stopTid tid, .inr rfl⟩
  | stopProcess tgid status =>
    obtain ⟨after, runs, done⟩ := rep.stopProcess ok tgid status
    exact ⟨after, _, by simp [exec, runs], done, ok.stopEach tgid fun _ member => member, .inr rfl⟩
  | markCurrentZombie status =>
    obtain ⟨after, runs, done⟩ := rep.markCurrentZombie ok status
    exact ⟨after, _, runs, done, ok.stop ok.current.member, .inr rfl⟩
  | reap =>
    obtain ⟨after, runs, done, -⟩ := rep.reap ok
    exact ⟨after, _, by simp [exec, runs], done, ok.reap, .inr rfl⟩

theorem exec_follows (board : Board) (rep : Rep k a) (ok : SchedOk a) (op : ThreadOp)
    (allowed : Allowed k op) : ∃ k' b, exec board k op = some k' ∧ Rep k' b ∧ SchedOk b := by
  obtain ⟨k', b, executes, after, okAfter, -⟩ := exec_next board rep ok op allowed
  exact ⟨k', b, executes, after, okAfter⟩

theorem threadRun_rep {board : Board} {bootIdle : Addr} (run : ThreadRun board bootIdle k) :
    ∃ a, Rep k a ∧ SchedOk a := by
  induction run with
  | boot => exact ⟨schedStart bootIdle, schedStart_rep bootIdle, schedStart_ok bootIdle⟩
  | step op _ allowed result ih =>
    obtain ⟨a, rep, ok⟩ := ih
    obtain ⟨k', b, executes, after, okAfter⟩ := exec_follows board rep ok op allowed
    obtain rfl : k' = _ := Option.some.inj (executes.symm.trans result)
    exact ⟨b, after, okAfter⟩

def LinkedEntry (k : Kernel) (t e : Addr) : Prop :=
  k.task e = some t ∧
    (∃ q entries, k.queue e = some q ∧ e ∈ entries ∧ (entryLinks k).Holds entries ∧
      k.queueHead q = entries.head? ∧ k.queueTail q = entries.getLast?) ∧
    ∃ regs, e ∈ regs ∧ (taskLinks k).Holds regs ∧ k.waitEntries t = regs.head?

structure ListsOk (k : Kernel) (run zombies all : List Addr) : Prop where
  runQueue : Fifo k.next k.runHead k.runTail run
  zombieList : Stack k.znext k.zombieHead zombies
  allThreads : Stack k.allNext k.allThreads all
  run_nodup : run.Nodup
  mem_run : ∀ t, t ∈ run ↔ t ∈ all ∧ k.isIdle t = false ∧ k.state t = .runnable
  zombies_nodup : zombies.Nodup
  mem_zombies : ∀ t, t ∈ zombies ↔ t ∈ all ∧ k.state t = .zombie
  current_off : ∀ t, k.current = some t → t ∈ all ∧ t ∉ run
  only_current : ∀ t ∈ all, k.state t = .running → k.current = some t
  waiting : ∀ t ∈ all, k.state t = .waiting → (∃ e, LinkedEntry k t e) ∧ t ∉ run
  zombie_unlinked : ∀ t ∈ all, k.state t = .zombie → k.waitEntries t = none ∧ ∀ e, k.task e ≠ some t
  tid_inj : ∀ t ∈ all, ∀ u ∈ all, k.tid t = k.tid u → t = u

def ThreadInvariant (k : Kernel) : Prop := ∃ run zombies all, ListsOk k run zombies all

theorem Rep.linkedEntry (rep : Rep k a) (ok : SchedOk a) {t e : Addr} (member : e ∈ a.regs t) :
    LinkedEntry k t e := by
  have owned := (ok.wait.mem_regs e t).mp member
  cases placed : a.place e with
  | none => simp [(ok.wait.linked e).mp placed] at owned
  | some q =>
    refine ⟨by rw [rep.owner, owned], ⟨q, a.queued q, by rw [rep.place, placed], ?_, rep.queued.holds q,
      rep.queued.first q, rep.tails q⟩, a.regs t, member, rep.regs.holds t, rep.regs.first t⟩
    exact (ok.wait.mem_queued e q).mpr placed

theorem Rep.invariant (rep : Rep k a) (ok : SchedOk a) : ListsOk k a.run a.zombies a.all := by
  refine ⟨rep.run, rep.zombies, rep.all, ok.queues.run_nodup, fun t => ?_, ok.queues.zombies_nodup, fun t => ?_,
    fun t current => ?_, fun t inAll running => ?_, fun t inAll waiting => ?_, fun t inAll zombie => ?_,
    fun t inAll u inAll' same => ?_⟩
  · rw [ok.queues.mem_run, rep.state, rep.idle, and_comm (a := a.state t = .runnable)]
  · rw [ok.queues.mem_zombies, rep.state]
  · obtain rfl := (rep.isCurrent t).mp current
    exact ⟨ok.current.member, ok.current_not_run⟩
  · rw [rep.state] at running
    rw [rep.current, ok.current.only t inAll running]
  · rw [rep.state] at waiting
    obtain ⟨e, member⟩ := List.exists_mem_of_ne_nil _ (ok.sleep.waiting t inAll waiting)
    refine ⟨⟨e, rep.linkedEntry ok member⟩, fun inRun => ?_⟩
    simp [((ok.queues.mem_run t).mp inRun).2.1] at waiting
  · rw [rep.state] at zombie
    have unregistered : a.regs t = [] := by
      by_contra registered
      exact (ok.sleep.regs_live t registered).2.1 zombie
    refine ⟨by rw [rep.regs.first, unregistered]; rfl, fun e owned => ?_⟩
    rw [rep.owner] at owned
    simpa [unregistered] using (ok.wait.mem_regs e t).mpr owned
  · rw [rep.tid] at same
    exact ok.table.tid_inj t inAll u inAll' same

theorem threadRun_invariant {board : Board} {bootIdle : Addr} {k : Kernel} (run : ThreadRun board bootIdle k) :
    ThreadInvariant k ∧ ∀ op, Allowed k op → ∃ k', exec board k op = some k' ∧ ThreadInvariant k' := by
  obtain ⟨a, rep, ok⟩ := threadRun_rep run
  refine ⟨⟨a.run, a.zombies, a.all, rep.invariant ok⟩, fun op allowed => ?_⟩
  obtain ⟨k', b, executes, after, okAfter⟩ := exec_follows board rep ok op allowed
  exact ⟨k', executes, b.run, b.zombies, b.all, after.invariant okAfter⟩

theorem ThreadRun.follow {board : Board} {bootIdle : Addr} {ops : List ThreadOp} {k' : Kernel}
    (run : ThreadRun board bootIdle k) (free : ∀ op ∈ ops, ∀ k, Allowed k op)
    (result : ops.foldlM (exec board) k = some k') : ThreadRun board bootIdle k' := by
  induction ops generalizing k with
  | nil =>
    cases result
    exact run
  | cons op ops ih =>
    rw [List.foldlM_cons, Option.bind_eq_bind, Option.bind_eq_some_iff] at result
    obtain ⟨next, first, rest⟩ := result
    obtain ⟨allowed, others⟩ := List.forall_mem_cons.mp free
    exact ih (.step op run (allowed k) first) others rest

def pairCreated : Kernel :=
  (threadCreateKernel 0x80201000 ⟨some 0x80310000, 0x80314000⟩
    (threadCreateKernel 0x80201000 ⟨some 0x80300000, 0x80304000⟩
      (threadSystemBootstrapInit (kernelStart 0x80200000))).kernel).kernel

theorem pairCreated_run : ThreadRun .qemu 0x80200000 pairCreated := by
  refine .step (.createKernel 0x80201000 ⟨some 0x80310000, 0x80314000⟩) (.step
    (.createKernel 0x80201000 ⟨some 0x80300000, 0x80304000⟩) .boot ?_ rfl) ?_ rfl
  · exact Grants.fresh_of_stack (schedStart_rep 0x80200000).all (by decide) _
  · refine @Grants.fresh_of_stack _ [0x80300000, 0x80200000] ⟨⟨?_, ?_, trivial⟩, ?_⟩ _ (by decide) _
    all_goals decide +kernel

def threeThreads : Kernel := (threadCreateKernel 0x80201000 ⟨some 0x80320000, 0x80324000⟩ pairCreated).kernel

theorem threeThreads_run : ThreadRun .qemu 0x80200000 threeThreads := by
  refine .step (.createKernel 0x80201000 ⟨some 0x80320000, 0x80324000⟩) pairCreated_run ?_ rfl
  refine @Grants.fresh_of_stack _ [0x80310000, 0x80300000, 0x80200000] ⟨⟨?_, ?_, ?_, trivial⟩, ?_⟩ _
    (by decide) _
  all_goals decide +kernel

-- The second thread sleeps on a wait queue, and the third, which runs then, stops the first.
theorem threadRun_invariant_waiterAndZombie :
    ∃ k, [.schedule, .yield, .sleep ⟨false, false⟩ (some 0x80400000) 0x80400100, .stopTid 1 0].foldlM (exec .qemu)
        threeThreads = some k ∧ ThreadRun .qemu 0x80200000 k ∧
      k.state 0x80310000 = .waiting ∧ k.queueHead 0x80400000 = some 0x80400100 ∧ k.state 0x80300000 = .zombie ∧
      ThreadInvariant k ∧ ∃ k', exec .qemu k (.wakeOne 0x80400000) = some k' ∧ ThreadInvariant k' := by
  have ends : ([.schedule, .yield, .sleep ⟨false, false⟩ (some 0x80400000) 0x80400100, .stopTid 1 0].foldlM
      (exec .qemu) threeThreads).any (fun k => k.state 0x80310000 = .waiting ∧
        k.queueHead 0x80400000 = some 0x80400100 ∧ k.state 0x80300000 = .zombie) = true := by
    decide +kernel
  obtain ⟨k, result, facts⟩ := (Option.any_eq_true _ _).mp ends
  obtain ⟨waits, queued, stopped⟩ := of_decide_eq_true facts
  have run := threeThreads_run.follow (by simp [Allowed]) result
  obtain ⟨invariant, executes⟩ := threadRun_invariant run
  exact ⟨k, result, run, waits, queued, stopped, invariant, executes _ trivial⟩

end OrangeKernel.Thread
