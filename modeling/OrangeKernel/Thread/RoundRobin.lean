import OrangeKernel.Shared.ServiceOrder
import OrangeKernel.Thread.Run

set_option autoImplicit false

namespace OrangeKernel.Thread

open Intrusive Memory ServiceOrder

inductive Advance (a b : Sched) : Prop where
  | joins (new : List Addr) (run : b.run = a.run ++ new) (same : b.current = a.current)
  | leaves (left : b.run.Sublist a.run) (stopped : ∀ t ∈ a.run, t ∉ b.run → b.state t = .zombie)
      (same : b.current = a.current)
  | takes (next : Addr) (rest new : List Addr) (queue : a.run = next :: rest) (run : b.run = rest ++ new)
      (current : b.current = next)
  | idles (empty : a.run = []) (current : b.current = a.bootIdle)

variable {a : Sched} {b : Sched}

theorem Advance.unmoved (run : b.run = a.run) (same : b.current = a.current) : Advance a b :=
  .joins [] (by rw [run, List.append_nil]) same

theorem Sched.schedule_advance (a : Sched) : Advance a a.schedule := by
  unfold Sched.schedule
  split
  next next rest queue =>
    -- the thread that gives up the processor is behind all that wait
    by_cases again : a.state a.current = .running ∧ a.idle a.current = false
    · exact .takes next rest [a.current] queue (by simp [Sched.switchTo, again]) rfl
    · exact .takes next rest [] queue (by simp [Sched.switchTo, again]) rfl
  next empty =>
    split
    · exact .unmoved rfl rfl
    · exact .idles empty rfl

theorem Sched.prepareLocked_processor (flags : LocalFlags) (queue entry : Option Addr) (a : Sched) :
    (a.prepareLocked flags queue entry).2.run = a.run ∧ (a.prepareLocked flags queue entry).2.current = a.current ∧
      (a.prepareLocked flags queue entry).2.bootIdle = a.bootIdle := by
  unfold Sched.prepareLocked
  split
  · split <;> exact ⟨rfl, rfl, rfl⟩
  · exact ⟨rfl, rfl, rfl⟩

theorem Sched.waitLocked_advance (flags : LocalFlags) (a : Sched) : Advance a (a.waitLocked flags).2 := by
  unfold Sched.waitLocked
  split
  · exact .unmoved rfl rfl
  · split
    · exact a.schedule_advance
    · exact .unmoved rfl rfl

theorem Advance.after {a' : Sched} (advance : Advance a' b) (run : a'.run = a.run)
    (current : a'.current = a.current) (boot : a'.bootIdle = a.bootIdle) : Advance a b := by
  cases advance with
  | joins new grown same => exact .joins new (by rw [grown, run]) (by rw [same, current])
  | leaves left stopped same => exact .leaves (run ▸ left) (run ▸ stopped) (by rw [same, current])
  | takes next rest new queue grown switched => exact .takes next rest new (by rw [← run, queue]) grown switched
  | idles empty switched => exact .idles (by rw [← run, empty]) (by rw [switched, boot])

theorem Sched.sleepLocked_advance (flags : LocalFlags) (queue : Option Addr) (entry : Addr) (a : Sched) :
    Advance a (a.sleepLocked flags queue entry).2 := by
  obtain ⟨run, current, boot⟩ := a.prepareLocked_processor flags queue (some entry)
  unfold Sched.sleepLocked
  split
  next ret prepared refused =>
    rw [refused] at run current boot
    split
    · exact .unmoved run current
    · exact (prepared.waitLocked_advance flags).after run current boot

theorem Sched.finish_advance (e : Addr) (a : Sched) : Advance a (a.finish e) := by
  unfold Sched.finish
  split
  · dsimp only
    split <;> exact .unmoved rfl rfl
  · exact .unmoved rfl rfl

theorem Sched.wake_run (t : Addr) (a : Sched) : ∃ new, (a.wake t).run = a.run ++ new := by
  unfold Sched.wake
  split
  · exact ⟨[], (List.append_nil _).symm⟩
  · split
    · exact ⟨[], (List.append_nil _).symm⟩
    · exact ⟨[t], rfl⟩

theorem Sched.wakeFirst_advance (es : List Addr) (a : Sched) : Advance a (a.wakeFirst es) := by
  obtain ⟨same, -⟩ | ⟨-, -, t, -, -, woken⟩ := a.wakeFirst_cases es
  · rw [same]
    exact .unmoved rfl rfl
  · rw [woken]
    obtain ⟨new, run⟩ := a.wake_run t
    exact .joins new run (a.wake_table t).2.2.1

theorem Sched.wakeEach_run (es : List Addr) (a : Sched) :
    (∃ new, (a.wakeEach es).run = a.run ++ new) ∧ (a.wakeEach es).current = a.current := by
  induction es generalizing a with
  | nil => exact ⟨⟨[], (List.append_nil _).symm⟩, rfl⟩
  | cons e es ih =>
    unfold Sched.wakeEach
    split
    · exact ih a
    next t owned =>
      obtain ⟨first, run⟩ := a.wake_run t
      obtain ⟨⟨later, rest⟩, current⟩ := ih (a.wake t)
      exact ⟨⟨first ++ later, by rw [rest, run, List.append_assoc]⟩, current.trans (a.wake_table t).2.2.1⟩

theorem Sched.stop_run (t : Addr) (a : Sched) :
    (a.stop t).run.Sublist a.run ∧ ∀ u ∈ a.run, u ∉ (a.stop t).run → (a.stop t).state u = .zombie := by
  unfold Sched.stop
  split
  · exact ⟨List.Sublist.refl _, fun u member absent => absurd member absent⟩
  · refine ⟨List.erase_sublist, fun u member absent => ?_⟩
    have same : u = t := by
      by_contra other
      exact absent ((List.mem_erase_of_ne other).mpr member)
    simp [Sched.bury, same]

theorem Sched.stop_advance (t : Addr) (a : Sched) : Advance a (a.stop t) :=
  .leaves (a.stop_run t).1 (a.stop_run t).2 (a.stop_table t).2.2.2.2.2.1

theorem Sched.stopTid_advance (tid : Int) (a : Sched) : Advance a (a.stopTid tid).2 := by
  unfold Sched.stopTid
  split
  · exact .unmoved rfl rfl
  next t found =>
    split
    · exact .unmoved rfl rfl
    · exact a.stop_advance t

theorem Sched.stopEach_zombie {u : Addr} (zombie : a.state u = .zombie) (tgid : Int) (ts : List Addr) :
    (a.stopEach tgid ts).state u = .zombie := by
  induction ts generalizing a with
  | nil => exact zombie
  | cons t ts ih =>
    unfold Sched.stopEach
    apply ih
    split
    · exact Sched.stop_zombie zombie t
    · exact zombie

theorem Sched.stopEach_advance (tgid : Int) (ts : List Addr) (a : Sched) : Advance a (a.stopEach tgid ts) := by
  suffices (a.stopEach tgid ts).run.Sublist a.run ∧
      (∀ u ∈ a.run, u ∉ (a.stopEach tgid ts).run → (a.stopEach tgid ts).state u = .zombie) ∧
      (a.stopEach tgid ts).current = a.current from .leaves this.1 this.2.1 this.2.2
  induction ts generalizing a with
  | nil => exact ⟨List.Sublist.refl _, fun u member absent => absurd member absent, rfl⟩
  | cons t ts ih =>
    unfold Sched.stopEach
    split
    · obtain ⟨left, stopped, current⟩ := ih (a.stop t)
      refine ⟨left.trans (a.stop_run t).1, fun u member absent => ?_, current.trans (a.stop_table t).2.2.2.2.2.1⟩
      -- either this stop or a later one took it
      by_cases still : u ∈ (a.stop t).run
      · exact stopped u still absent
      · exact Sched.stopEach_zombie ((a.stop_run t).2 u member still) tgid ts
    · exact ih a

theorem Sched.reapList_processor (zs : List Addr) (a : Sched) :
    (a.reapList zs).run = a.run ∧ (a.reapList zs).current = a.current := by
  obtain ⟨all, zombies, reaped⟩ := a.reapList_eq zs
  rw [reaped]
  exact ⟨rfl, rfl⟩

theorem Sched.alloc_processor (grants : Grants) (a : Sched) :
    (a.alloc grants).2.run = a.run ∧ (a.alloc grants).2.current = a.current := by
  unfold Sched.alloc
  split
  · dsimp only
    split
    · exact ⟨rfl, rfl⟩
    · split <;> exact ⟨rfl, rfl⟩
  · exact ⟨rfl, rfl⟩

theorem Sched.create_advance (kind : ThreadKind) (group : Option Int) (grants : Grants) (a : Sched) :
    Advance a (a.create kind group grants).2 := by
  obtain ⟨run, current⟩ := a.alloc_processor grants
  unfold Sched.create
  split
  next after failed =>
    rw [failed] at run current
    exact .unmoved run current
  next t after allocated =>
    rw [allocated] at run current
    exact .joins [t] (by simpa [Sched.publish, Sched.write] using run) current

theorem Sched.after_advance (a : Sched) (op : ThreadOp) : Advance a (a.after op) := by
  cases op with
  | createKernel entry grants => exact a.create_advance _ _ grants
  | createProcess entry stackBase stackTop grants => exact a.create_advance _ _ grants
  | createUser entry arg returnPc stack grants => exact a.create_advance _ _ grants
  | fork parentTc stack grants mem => exact a.create_advance _ _ grants
  | schedule => exact a.schedule_advance
  | yield => exact a.schedule_advance
  | prepare flags queue entry =>
    obtain ⟨run, current, -⟩ := a.prepareLocked_processor flags queue entry
    exact .unmoved run current
  | wait flags => exact a.waitLocked_advance flags
  | finish entry => exact a.finish_advance entry
  | sleep flags queue entry => exact a.sleepLocked_advance flags queue entry
  | wakeOne queue => exact a.wakeFirst_advance _
  | wakeAll queue =>
    obtain ⟨⟨new, run⟩, current⟩ := a.wakeEach_run (a.queued queue)
    exact .joins new run current
  | stopTid tid status => exact a.stopTid_advance tid
  | stopProcess tgid status => exact a.stopEach_advance tgid a.all
  | markCurrentZombie status => exact a.stop_advance a.current
  | reap =>
    obtain ⟨run, current⟩ := a.reapList_processor a.zombies
    exact .unmoved run current

variable {k k' : Kernel} {board : Board}

theorem exec_advance (rep : Rep k a) (ok : SchedOk a) {op : ThreadOp} (allowed : Allowed k op)
    (executes : exec board k op = some k') : ∃ b, Rep k' b ∧ SchedOk b ∧ Advance a b := by
  obtain ⟨result, b, follows, after, okAfter, next⟩ := exec_next board rep ok op allowed
  obtain rfl : result = k' := Option.some.inj (follows.symm.trans executes)
  refine ⟨b, after, okAfter, ?_⟩
  obtain rfl | rfl := next
  · exact .unmoved rfl rfl
  · exact a.after_advance op

def dispatched (k k' : Kernel) : Option Addr := if k'.current = k.current then none else k'.current

def Trace (board : Board) : Kernel → List (ThreadOp × Kernel) → Prop
  | _, [] => True
  | k, (op, k') :: rest => Allowed k op ∧ exec board k op = some k' ∧ Trace board k' rest

def dispatches : Kernel → List (ThreadOp × Kernel) → List Addr
  | _, [] => []
  | k, (_, k') :: rest => (dispatched k k').toList ++ dispatches k' rest

def OnRunQueue (k : Kernel) (t : Addr) : Prop := ∃ run, Fifo k.next k.runHead k.runTail run ∧ t ∈ run

theorem Rep.onRunQueue (rep : Rep k a) {t : Addr} (queued : OnRunQueue k t) : t ∈ a.run := by
  obtain ⟨run, fifo, member⟩ := queued
  rwa [rep.run.stack.unique fifo.stack]

theorem Rep.dispatched_none (rep : Rep k a) (after : Rep k' b) (same : b.current = a.current) :
    dispatched k k' = none := by
  rw [dispatched, rep.current, after.current, same, if_pos rfl]

theorem Rep.dispatched_some (rep : Rep k a) (after : Rep k' b) (other : b.current ≠ a.current) :
    dispatched k k' = some b.current := by
  rw [dispatched, rep.current, after.current, if_neg fun same => other (Option.some.inj same)]

theorem Rep.serves {t : Addr} (trace : List (ThreadOp × Kernel)) (rep : Rep k a) (ok : SchedOk a)
    (waits : t ∈ a.run) (runs : Trace board k trace) (undispatched : t ∉ dispatches k trace)
    (live : ∀ step ∈ trace, step.2.state t ≠ .zombie) : Serves t a.run (dispatches k trace) := by
  induction trace generalizing k a with
  | nil => exact .done a.run
  | cons step trace ih =>
    obtain ⟨op, k'⟩ := step
    obtain ⟨allowed, executes, rest⟩ := runs
    obtain ⟨b, after, okAfter, advance⟩ := exec_advance rep ok allowed executes
    have alive : b.state t ≠ .zombie := after.state ▸ live _ List.mem_cons_self
    have distinct := ok.queues.run_nodup
    simp only [dispatches, List.mem_append, not_or] at undispatched
    have later := fun waits' => ih after okAfter waits' rest undispatched.2 fun step member =>
      live step (List.mem_cons_of_mem _ member)
    cases advance with
    | joins new run same =>
      rw [dispatches, rep.dispatched_none after same]
      exact .pass distinct ⟨a.run, new, List.Sublist.refl _, waits, run⟩ (later (by simp [run, waits]))
    | leaves left stopped same =>
      have stays : t ∈ b.run := by
        by_contra gone
        exact alive (stopped t waits gone)
      rw [dispatches, rep.dispatched_none after same]
      exact .pass distinct ⟨b.run, [], left, stays, (List.append_nil _).symm⟩ (later stays)
    | takes first behind new queue run current =>
      have other : b.current ≠ a.current := fun same =>
        ok.current_not_run (by rw [← same, current, queue]; exact List.mem_cons_self)
      rw [rep.dispatched_some after other, current] at undispatched
      have passed : first ≠ t := fun same => undispatched.1 (by simp [same])
      rw [queue] at waits distinct
      have stays : t ∈ behind := (List.mem_cons.mp waits).resolve_left passed.symm
      rw [dispatches, rep.dispatched_some after other, current, queue]
      exact .serve (List.nodup_cons.mp distinct).2 passed ⟨behind, new, List.Sublist.refl _, stays, run⟩
        (later (by simp [run, stays]))
    | idles empty current =>
      rw [empty] at waits
      cases waits

theorem Rep.idle_only (rep : Rep k a) (ok : SchedOk a) {op : ThreadOp} (allowed : Allowed k op)
    (executes : exec board k op = some k') {u : Addr} (chosen : dispatched k k' = some u) (idle : k.isIdle u = true) :
    k.runHead = none := by
  obtain ⟨b, after, okAfter, advance⟩ := exec_advance rep ok allowed executes
  cases advance with
  | joins new run same => simp [rep.dispatched_none after same] at chosen
  | leaves left stopped same => simp [rep.dispatched_none after same] at chosen
  | takes first behind new queue run current =>
    have other : b.current ≠ a.current := fun same =>
      ok.current_not_run (by rw [← same, current, queue]; exact List.mem_cons_self)
    rw [rep.dispatched_some after other, current] at chosen
    obtain rfl := Option.some.inj chosen
    -- nobody puts an idle thread on the queue
    have worker := ((ok.queues.mem_run first).mp (by rw [queue]; exact List.mem_cons_self)).2.2
    simp [rep.idle, worker] at idle
  | idles empty current => rw [rep.run.first, empty, List.head?_nil]

def firstDispatched : Kernel := (schedule pairCreated).getD pairCreated

theorem firstDispatched_schedules : schedule pairCreated = some firstDispatched := by
  obtain ⟨a, rep, ok⟩ := threadRun_rep pairCreated_run
  obtain ⟨switched, schedules, -⟩ := rep.schedule ok
  rw [firstDispatched, schedules]
  rfl

theorem threadRun_roundRobin {board : Board} {bootIdle : Addr} {k : Kernel} (run : ThreadRun board bootIdle k) :
    (∀ t trace, OnRunQueue k t → Trace board k trace → t ∉ dispatches k trace →
      (∀ step ∈ trace, step.2.state t ≠ .zombie) → ∀ u, u ≠ t → (dispatches k trace).count u ≤ 1) ∧
    ∀ op k' u, Allowed k op → exec board k op = some k' → dispatched k k' = some u → k.isIdle u = true →
      k.runHead = none := by
  obtain ⟨a, rep, ok⟩ := threadRun_rep run
  constructor
  · intro t trace queued runs undispatched live u _
    exact (rep.serves trace ok (rep.onRunQueue queued) runs undispatched live).count_le_one ok.queues.run_nodup u
  · intro op k' u allowed executes chosen idle
    exact rep.idle_only ok allowed executes chosen idle

theorem threadRun_roundRobin_pair :
    dispatches pairCreated [(.schedule, firstDispatched)] = [0x80300000] ∧
      (dispatches pairCreated [(.schedule, firstDispatched)]).count 0x80300000 ≤ 1 := by
  have served : dispatches pairCreated [(.schedule, firstDispatched)] = [0x80300000] := by decide +kernel
  have queued : OnRunQueue pairCreated 0x80310000 := by
    refine ⟨[0x80300000, 0x80310000], ⟨⟨?_, ?_, trivial⟩, ?_, ?_⟩, by decide⟩
    all_goals decide +kernel
  have runs : Trace .qemu pairCreated [(.schedule, firstDispatched)] :=
    ⟨trivial, firstDispatched_schedules, trivial⟩
  refine ⟨served, (threadRun_roundRobin pairCreated_run).1 0x80310000 _ queued runs
    (by rw [served]; decide) ?_ _ (by decide)⟩
  intro step member
  obtain rfl := List.mem_singleton.mp member
  decide +kernel

end OrangeKernel.Thread
