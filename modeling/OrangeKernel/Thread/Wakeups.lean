import OrangeKernel.Thread.RoundRobin

set_option autoImplicit false

-- A registration stays linked after its thread was woken, so a wake has to look at the thread's
-- state.

namespace OrangeKernel.Thread

open Function Intrusive Memory

def sleepers (task : Addr → Option Addr) (state : Addr → ThreadState) (es : List Addr) : List Addr :=
  ((es.filterMap task).filter fun t => state t = .waiting).eraseDups

theorem eraseDups_nodup (xs : List Addr) : xs.eraseDups.Nodup := by
  -- the recursion of `eraseDups` is on the length, not on the tail
  induction length : xs.length using Nat.strong_induction_on generalizing xs with
  | _ n ih =>
    cases xs with
    | nil => simp
    | cons x xs =>
      rw [List.eraseDups_cons, List.nodup_cons, List.mem_eraseDups]
      have shorter : (xs.filter fun y => !y == x).length < n :=
        length ▸ Nat.lt_succ_of_le (List.length_filter_le _ xs)
      exact ⟨by simp, ih _ shorter _ rfl⟩

variable {st : ThreadState} {ts : List Addr}

section Sleepers

variable {task : Addr → Option Addr} {state : Addr → ThreadState} {es : List Addr} {e t : Addr}

theorem sleepers_nodup (task : Addr → Option Addr) (state : Addr → ThreadState) (es : List Addr) :
    (sleepers task state es).Nodup :=
  eraseDups_nodup _

theorem mem_sleepers : t ∈ sleepers task state es ↔ (∃ e ∈ es, task e = some t) ∧ state t = .waiting := by
  rw [sleepers, List.mem_eraseDups, List.mem_filter, List.mem_filterMap, decide_eq_true_iff]

theorem sleepers_cons_awake (owned : task e = some t) (awake : state t ≠ .waiting) :
    sleepers task state (e :: es) = sleepers task state es := by
  simp [sleepers, owned, awake]

theorem filter_woken (awake : st ≠ .waiting) (ts : List Addr) :
    (ts.filter fun u => update state t st u = .waiting) =
      (ts.filter fun u => state u = .waiting).filter fun u => !u == t := by
  rw [List.filter_filter]
  refine List.filter_congr fun u _ => ?_
  by_cases same : u = t
  · simp [same, awake]
  · simp [same]

theorem sleepers_cons_asleep (owned : task e = some t) (asleep : state t = .waiting)
    (awake : st ≠ .waiting) :
    sleepers task state (e :: es) = t :: sleepers task (update state t st) es := by
  simp [sleepers, owned, asleep, filter_woken awake, List.eraseDups_cons]

theorem sleepers_woken (first : sleepers task state es = t :: ts)
    (awake : st ≠ .waiting) : sleepers task (update state t st) es = ts := by
  unfold sleepers at first ⊢
  rw [filter_woken awake]
  cases found : (es.filterMap task).filter fun u => state u = .waiting with
  | nil => simp [found] at first
  | cons u us =>
    rw [found, List.eraseDups_cons] at first
    obtain ⟨rfl, rest⟩ := List.cons.inj first
    simpa using rest

end Sleepers

def wakeTask (k : Kernel) (t : Addr) : Kernel :=
  if threadCurrent k = some t then k.setState t .running
  else threadRequestResched (schedEnqueue t (k.setState t .runnable))

variable {t : Addr} {k : Kernel}

theorem wakeWaiterLocked_eq {e : Addr} (owned : k.task e = some t) :
    wakeWaiterLocked e k =
      some (if k.state t = .waiting then (true, wakeTask k t) else (false, k)) := by
  unfold wakeWaiterLocked wakeTask
  rw [owned, Option.bind_eq_bind, Option.bind_some]
  by_cases asleep : k.state t = .waiting
  · rw [if_neg (not_not.mpr asleep), if_pos asleep]
    split <;> rfl
  · rw [if_pos asleep, if_neg asleep]

def Sched.Asleep (a : Sched) (t : Addr) : Prop := a.state t = .waiting ∧ ∃ e, a.owner e = some t

variable {a : Sched}

theorem Rep.wakeTask (rep : Rep k a) (ok : SchedOk a) (asleep : a.Asleep t) :
    Rep (wakeTask k t) (a.wake t) ∧ SchedOk (a.wake t) := by
  obtain ⟨waiting, e, owned⟩ := asleep
  obtain ⟨after, wakes, woken⟩ := rep.wakeWaiter ok owned
  rw [wakeWaiterLocked_eq (by rw [rep.owner, owned]), rep.state, if_pos waiting] at wakes
  obtain ⟨-, rfl⟩ := Prod.mk.inj (Option.some.inj wakes)
  exact ⟨woken, ok.wake (ok.registered owned)⟩

def Sched.awake (a : Sched) (t : Addr) : ThreadState := if t = a.current then .running else .runnable

theorem Sched.awake_ne_waiting (a : Sched) (t : Addr) : a.awake t ≠ .waiting := by
  unfold Sched.awake
  split <;> decide

theorem Sched.wake_eq (asleep : a.state t = .waiting) :
    a.wake t = { a with
      state := update a.state t (a.awake t)
      run := a.run ++ [t].filter (· ≠ a.current) } := by
  unfold Sched.wake Sched.awake
  rw [if_neg (not_not.mpr asleep)]
  split
  next same => simp [same]
  next other => simp [other]

def Sched.wakeList (a : Sched) (ts : List Addr) : Sched :=
  { a with
    state := fun t => if t ∈ ts then a.awake t else a.state t
    run := a.run ++ ts.filter (· ≠ a.current) }

theorem Sched.wake_wakeList (asleep : a.state t = .waiting) (absent : t ∉ ts) :
    (a.wake t).wakeList ts = a.wakeList (t :: ts) := by
  rw [Sched.wake_eq asleep, Sched.wakeList, Sched.wakeList]
  have states : (fun u => if u ∈ ts then a.awake u else update a.state t (a.awake t) u) =
      fun u => if u ∈ t :: ts then a.awake u else a.state u := by
    funext u
    by_cases same : u = t
    · simp [same, absent]
    · simp [same]
  have queue : (a.run ++ [t].filter (· ≠ a.current)) ++ ts.filter (· ≠ a.current) =
      a.run ++ (t :: ts).filter (· ≠ a.current) := by
    rw [List.append_assoc, ← List.filter_append, List.singleton_append]
  simp only [Sched.mk.injEq, and_true, true_and]
  exact ⟨queue, states⟩

theorem Rep.wakeTasks (rep : Rep k a) (ok : SchedOk a) (nodup : ts.Nodup) (asleep : ∀ t ∈ ts, a.Asleep t) :
    Rep (ts.foldl Thread.wakeTask k) (a.wakeList ts) ∧ SchedOk (a.wakeList ts) := by
  induction ts generalizing k a with
  | nil =>
    have same : a.wakeList [] = a := by simp [Sched.wakeList]
    rw [same]
    exact ⟨rep, ok⟩
  | cons t ts ih =>
    obtain ⟨absent, nodup⟩ := List.nodup_cons.mp nodup
    obtain ⟨first, rest⟩ := List.forall_mem_cons.mp asleep
    obtain ⟨woken, okWoken⟩ := rep.wakeTask ok first
    rw [← Sched.wake_wakeList first.1 absent]
    refine ih woken okWoken nodup fun u member => ?_
    have other : u ≠ t := fun same => absent (same ▸ member)
    obtain ⟨waiting, e, owned⟩ := rest u member
    rw [Sched.Asleep, Sched.wake_eq first.1]
    exact ⟨(update_of_ne other _ _).trans waiting, e, owned⟩

def Sched.sleepersOf (a : Sched) (q : Addr) : List Addr := sleepers a.owner a.state (a.queued q)

variable {es : List Addr}

theorem Sched.asleep_of_mem (member : t ∈ sleepers a.owner a.state es) :
    a.Asleep t := by
  obtain ⟨⟨e, -, owned⟩, waiting⟩ := mem_sleepers.mp member
  exact ⟨waiting, e, owned⟩

theorem Rep.wakeAllFrom_eq {q : Addr} {l : List Addr} (rep : Rep k a) (ok : SchedOk a)
    (queued : a.queued q = l ++ es) (fuel : Nat) (enough : es.length < fuel) :
    Thread.wakeAllFrom fuel es.head? k =
      some ((sleepers a.owner a.state es).foldl Thread.wakeTask k) := by
  induction fuel, es, enough using walk_induction generalizing k a l with
  | nil fuel => rfl
  | cons fuel e es _ ih =>
    obtain ⟨t, owned⟩ := ok.owned queued
    rw [List.head?_cons, Thread.wakeAllFrom, Option.bind_eq_bind, wakeWaiterLocked_eq (by rw [rep.owner, owned]),
      rep.state]
    by_cases asleep : a.state t = .waiting
    · obtain ⟨woken, okWoken⟩ := rep.wakeTask ok ⟨asleep, e, owned⟩
      have same := Sched.wake_eq asleep
      have still : (a.wake t).queued q = l ++ e :: es := by rw [same, queued]
      rw [if_pos asleep, Option.bind_some]
      dsimp only
      rw [woken.entryNext still,
        ih woken okWoken (l := l ++ [e]) (by rw [still, List.append_assoc, List.singleton_append]),
        sleepers_cons_asleep owned asleep (a.awake_ne_waiting t), same, List.foldl_cons]
    · rw [if_neg asleep, Option.bind_some]
      dsimp only
      rw [rep.entryNext queued,
        ih rep ok (l := l ++ [e]) (by rw [queued, List.append_assoc, List.singleton_append]),
        sleepers_cons_awake owned asleep]

theorem Rep.wakeOneFrom_eq {q : Addr} {l : List Addr} (rep : Rep k a) (ok : SchedOk a)
    (queued : a.queued q = l ++ es) (fuel : Nat) (enough : es.length < fuel) :
    Thread.wakeOneFrom fuel es.head? k =
      some (((sleepers a.owner a.state es).take 1).foldl Thread.wakeTask k) := by
  induction fuel, es, enough using walk_induction generalizing l with
  | nil fuel => rfl
  | cons fuel e es _ ih =>
    obtain ⟨t, owned⟩ := ok.owned queued
    rw [List.head?_cons, Thread.wakeOneFrom, Option.bind_eq_bind, wakeWaiterLocked_eq (by rw [rep.owner, owned]),
      rep.state]
    by_cases asleep : a.state t = .waiting
    · rw [if_pos asleep, sleepers_cons_asleep owned asleep (a.awake_ne_waiting t)]
      rfl
    · rw [if_neg asleep, Option.bind_some, sleepers_cons_awake owned asleep]
      dsimp only
      rw [if_neg Bool.false_ne_true, rep.entryNext queued]
      exact ih (l := l ++ [e]) (by rw [queued, List.append_assoc, List.singleton_append])

def wakeOnes (queue : Addr) : Nat → Kernel → Option Kernel
  | 0, k => some k
  | n + 1, k => do
    let after ← waitQueueWakeOne queue k
    wakeOnes queue n after

section Walks

variable (rep : Rep k a) (ok : SchedOk a) (q : Addr)
include rep ok

theorem Rep.wakeAll_eq : waitQueueWakeAll q k = some ((a.sleepersOf q).foldl Thread.wakeTask k) := by
  unfold waitQueueWakeAll
  rw [rep.queued.first]
  exact rep.wakeAllFrom_eq ok (l := []) rfl walkLimit (length_lt_walkLimit (ok.wait.queued_nodup q))

theorem Rep.wakeOne_eq :
    waitQueueWakeOne q k = some (((a.sleepersOf q).take 1).foldl Thread.wakeTask k) := by
  unfold waitQueueWakeOne
  rw [rep.queued.first]
  exact rep.wakeOneFrom_eq ok (l := []) rfl walkLimit (length_lt_walkLimit (ok.wait.queued_nodup q))

end Walks

theorem Rep.wakeOnes_eq (rep : Rep k a) (ok : SchedOk a) (q : Addr) (n : Nat) :
    wakeOnes q n k = some (((a.sleepersOf q).take n).foldl Thread.wakeTask k) := by
  induction n generalizing k a with
  | zero => rfl
  | succ n ih =>
    rw [wakeOnes, rep.wakeOne_eq ok, Option.bind_eq_bind, Option.bind_some]
    cases first : a.sleepersOf q with
    | nil => simpa [first] using ih rep ok
    | cons t ts =>
      have member : t ∈ a.sleepersOf q := by
        rw [first]
        exact List.mem_cons_self
      have asleep := Sched.asleep_of_mem member
      obtain ⟨woken, okWoken⟩ := rep.wakeTask ok asleep
      have left : (a.wake t).sleepersOf q = ts := by
        rw [Sched.wake_eq asleep.1]
        exact sleepers_woken first (a.awake_ne_waiting t)
      have rest := ih woken okWoken
      rw [left] at rest
      exact rest

theorem Sched.wakeList_sleepersOf (a : Sched) (q : Addr) : (a.wakeList (a.sleepersOf q)).sleepersOf q = [] := by
  refine List.eq_nil_iff_forall_not_mem.mpr fun t member => ?_
  obtain ⟨registered, waiting⟩ := mem_sleepers.mp member
  simp only [Sched.wakeList] at waiting
  split at waiting
  next => exact a.awake_ne_waiting t waiting
  next awake => exact awake (mem_sleepers.mpr ⟨registered, waiting⟩)

def ThreadOp.prepares : ThreadOp → Bool
  | .prepare .. | .sleep .. => true
  | _ => false

def preparers : Kernel → List (ThreadOp × Kernel) → List Addr
  | _, [] => []
  | k, (op, k') :: rest => (if op.prepares then (threadCurrent k).toList else []) ++ preparers k' rest

variable {u : Addr}

theorem waiting_of_update {state : Addr → ThreadState} (awake : st ≠ .waiting)
    (waiting : update state t st u = .waiting) : state u = .waiting := by
  rw [update_apply] at waiting
  split at waiting
  next => exact absurd waiting awake
  next => exact waiting

theorem Sched.create_waiting (kind : ThreadKind) (group : Option Int) (grants : Grants)
    (waiting : (a.create kind group grants).2.state u = .waiting) : a.state u = .waiting := by
  obtain ⟨n, same⟩ | ⟨t, -, failed | made⟩ := a.create_cases kind group grants
  · rwa [same] at waiting
  · rw [failed] at waiting
    exact waiting_of_update (by decide) waiting
  · rw [made] at waiting
    -- published, filled in, allocated
    have filled := waiting_of_update (by decide) waiting
    have allocated := waiting_of_update (by decide) filled
    exact waiting_of_update (by decide) allocated

theorem Sched.prepareLocked_waiting {flags : LocalFlags} {queue entry : Option Addr}
    (waiting : (a.prepareLocked flags queue entry).2.state u = .waiting) : a.state u = .waiting ∨ u = a.current := by
  cases queue with
  | none => exact .inl waiting
  | some q =>
    cases entry with
    | none => exact .inl waiting
    | some e =>
      obtain refused | ⟨accepted, -⟩ := a.prepareLocked_cases flags q e
      · rw [refused] at waiting
        exact .inl waiting
      · rw [accepted, Sched.prepare] at waiting
        by_cases same : u = a.current
        · exact .inr same
        · exact .inl (by simpa [same] using waiting)

theorem Sched.waitLocked_waiting {flags : LocalFlags} (ok : SchedOk a)
    (waiting : (a.waitLocked flags).2.state u = .waiting) : a.state u = .waiting := by
  unfold Sched.waitLocked at waiting
  split at waiting
  next => exact waiting
  next =>
    split at waiting
    next => exact (ok.switched.waiting u).mp waiting
    next => exact waiting

theorem Sched.finish_waiting {e : Addr} (waiting : (a.finish e).state u = .waiting) :
    a.state u = .waiting := by
  unfold Sched.finish at waiting
  split at waiting
  next =>
    dsimp only at waiting
    split at waiting
    next => exact waiting_of_update (by decide) waiting
    next => exact waiting
  next => exact waiting

theorem Sched.wake_waiting (waiting : (a.wake t).state u = .waiting) :
    a.state u = .waiting := by
  by_cases asleep : a.state t = .waiting
  · rw [Sched.wake_eq asleep] at waiting
    exact waiting_of_update (a.awake_ne_waiting t) waiting
  · rwa [Sched.wake, if_pos asleep] at waiting

theorem Sched.wakeEach_waiting (waiting : (a.wakeEach es).state u = .waiting) : a.state u = .waiting := by
  induction es generalizing a with
  | nil => exact waiting
  | cons e es ih =>
    unfold Sched.wakeEach at waiting
    split at waiting
    next => exact ih waiting
    next => exact Sched.wake_waiting (ih waiting)

theorem Sched.stopEach_waiting {tgid : Int} (waiting : (a.stopEach tgid ts).state u = .waiting) :
    a.state u = .waiting := by
  induction ts generalizing a with
  | nil => exact waiting
  | cons t ts ih =>
    unfold Sched.stopEach at waiting
    have first := ih waiting
    split at first
    next => exact Sched.stop_waiting first
    next => exact first

theorem Sched.after_waiting (ok : SchedOk a) {op : ThreadOp} (waiting : (a.after op).state u = .waiting) :
    a.state u = .waiting ∨ (op.prepares = true ∧ u = a.current) := by
  cases op with
  | createKernel entry grants => exact .inl (Sched.create_waiting _ _ grants waiting)
  | createProcess entry stackBase stackTop grants => exact .inl (Sched.create_waiting _ _ grants waiting)
  | createUser entry arg returnPc stack grants => exact .inl (Sched.create_waiting _ _ grants waiting)
  | fork parentTc stack grants mem => exact .inl (Sched.create_waiting _ _ grants waiting)
  | schedule | yield => exact .inl ((ok.switched.waiting u).mp waiting)
  | prepare flags queue entry => exact (Sched.prepareLocked_waiting waiting).imp_right fun same => ⟨rfl, same⟩
  | wait flags => exact .inl (Sched.waitLocked_waiting ok waiting)
  | finish entry => exact .inl (Sched.finish_waiting waiting)
  | sleep flags queue entry =>
    rw [Sched.after, Sched.sleepLocked] at waiting
    dsimp only at waiting
    have prepared : (a.prepareLocked flags queue (some entry)).2.state u = .waiting := by
      split at waiting
      next => exact waiting
      next => exact Sched.waitLocked_waiting (ok.prepareLocked flags queue (some entry)) waiting
    exact (Sched.prepareLocked_waiting prepared).imp_right fun same => ⟨rfl, same⟩
  | wakeOne queue =>
    rw [Sched.after, Sched.wakeOne] at waiting
    obtain ⟨same, -⟩ | ⟨-, -, t, -, -, woken⟩ := a.wakeFirst_cases (a.queued queue)
    · rw [same] at waiting
      exact .inl waiting
    · rw [woken] at waiting
      exact .inl (Sched.wake_waiting waiting)
  | wakeAll queue => exact .inl (Sched.wakeEach_waiting waiting)
  | stopTid tid status =>
    rw [Sched.after, Sched.stopTid] at waiting
    left
    split at waiting
    next => exact waiting
    next =>
      split at waiting
      next => exact waiting
      next => exact Sched.stop_waiting waiting
  | stopProcess tgid status => exact .inl (Sched.stopEach_waiting waiting)
  | markCurrentZombie status => exact .inl (Sched.stop_waiting waiting)
  | reap =>
    obtain ⟨all, zombies, reaped⟩ := a.reapList_eq a.zombies
    rw [Sched.after, Sched.reap, reaped] at waiting
    exact .inl waiting

def reached : Kernel → List (ThreadOp × Kernel) → Kernel
  | k, [] => k
  | _, (_, k') :: rest => reached k' rest

theorem Rep.reached_awake {board : Board} (trace : List (ThreadOp × Kernel)) (rep : Rep k a) (ok : SchedOk a)
    (runs : Trace board k trace) (awake : k.state t ≠ .waiting) (others : t ∉ preparers k trace) :
    (reached k trace).state t ≠ .waiting ∧ ∃ b, Rep (reached k trace) b ∧ SchedOk b := by
  induction trace generalizing k a with
  | nil => exact ⟨awake, a, rep, ok⟩
  | cons step rest ih =>
    obtain ⟨op, k'⟩ := step
    obtain ⟨allowed, executes, runs⟩ := runs
    rw [preparers, List.mem_append, not_or] at others
    obtain ⟨result, b, follows, after, okAfter, which⟩ := exec_next board rep ok op allowed
    obtain rfl : result = k' := Option.some.inj (follows.symm.trans executes)
    refine ih after okAfter runs (fun waiting => ?_) others.2
    rw [after.state] at waiting
    rw [rep.state] at awake
    obtain rfl | rfl := which
    · exact awake waiting
    · obtain before | ⟨prepares, rfl⟩ := Sched.after_waiting ok waiting
      · exact awake before
      · refine others.1 ?_
        rw [if_pos prepares, threadCurrent, rep.current]
        exact Option.mem_toList.mpr rfl

structure Moved (a : Sched) (k k' : Kernel) (ts : List Addr) : Prop where
  state : ∀ t, k'.state t = if t ∈ ts then if k.current = some t then .running else .runnable else k.state t
  lists : Rep k' { a with
    state := k'.state
    run := a.run ++ ts.filter (k.current ≠ some ·) }

theorem Rep.moved (rep : Rep k a) (ok : SchedOk a) (nodup : ts.Nodup) (asleep : ∀ t ∈ ts, a.Asleep t) :
    Moved a k (ts.foldl Thread.wakeTask k) ts := by
  obtain ⟨after, -⟩ := rep.wakeTasks ok nodup asleep
  have current : ∀ t, k.current = some t ↔ t = a.current := fun t => by
    rw [rep.current, Option.some.injEq, eq_comm]
  refine ⟨fun t => ?_, ?_⟩
  · rw [after.state, rep.state]
    simp only [Sched.wakeList, Sched.awake, current]
  · have lists := after
    rw [Sched.wakeList] at lists
    simp only [ne_eq, current]
    rw [after.state]
    exact lists

structure Awake (t : Addr) (k : Kernel) : Prop where
  state : k.state t ≠ .waiting
  returns : threadCurrent k = some t → ∀ flags, ∃ ret, waitQueueWaitLocked flags k = some (ret, k) ∧
    (flags.irqsEnabled = false → flags.bottomHalf = false → k.waitEntries t ≠ none → ret = 0)

theorem Rep.awake (rep : Rep k a) (ok : SchedOk a) (awake : k.state t ≠ .waiting) :
    Awake t k := by
  refine ⟨awake, fun current flags => ?_⟩
  have same : a.current = t := Option.some.inj (rep.current.symm.trans current)
  unfold waitQueueWaitLocked
  rw [current]
  dsimp only
  split
  next refused =>
    refine ⟨-1, rfl, fun irqsOff thread registered => ?_⟩
    exfalso
    obtain ⟨member, alive, worker⟩ :=
      ok.sleep.regs_live t fun empty => registered (by rw [rep.regs.first, empty]; rfl)
    have running : k.state t = .running := by
      have queue := ok.current.off_queue
      have started := ok.sleep.not_new t member
      rw [same] at queue
      rw [rep.state] at awake ⊢
      cases state : a.state t with
      | running => rfl
      | runnable => exact absurd state queue
      | new => exact absurd state started
      | waiting => exact absurd state awake
      | zombie => exact absurd state alive
    simp [irqsOff, thread, rep.idle, worker, registered, running] at refused
  next => exact ⟨0, rfl, fun _ _ _ => rfl⟩

theorem threadRun_wakeups {board : Board} {bootIdle : Addr} {k : Kernel} (run : ThreadRun board bootIdle k) (q : Addr) :
    ∃ (a : Sched) (order : List Addr), Rep k a ∧ order = sleepers k.task k.state (a.queued q) ∧ order.Nodup ∧
      (∀ t, t ∈ order ↔ (∃ e ∈ a.queued q, k.task e = some t) ∧ k.state t = .waiting) ∧
      (∀ n, ∃ woken, wakeOnes q n k = some woken ∧ Moved a k woken (order.take n) ∧
        ∀ t ∈ order.take n, ∀ trace, Trace board woken trace → t ∉ preparers woken trace →
          Awake t (reached woken trace)) ∧
      waitQueueWakeAll q k = wakeOnes q order.length k ∧
      ∀ woken, waitQueueWakeAll q k = some woken → waitQueueWakeAll q woken = some woken := by
  obtain ⟨a, rep, ok⟩ := threadRun_rep run
  have order : a.sleepersOf q = sleepers k.task k.state (a.queued q) := by rw [Sched.sleepersOf, rep.owner, rep.state]
  have nodup : (a.sleepersOf q).Nodup := sleepers_nodup _ _ _
  have asleep : ∀ t ∈ a.sleepersOf q, a.Asleep t := fun t member => Sched.asleep_of_mem member
  refine ⟨a, a.sleepersOf q, rep, order, nodup, fun t => order ▸ mem_sleepers, fun n => ?_,
    ?_, fun woken wakes => ?_⟩
  · have nodup' := nodup.sublist (List.take_sublist n _)
    have asleep' : ∀ t ∈ (a.sleepersOf q).take n, a.Asleep t :=
      fun t member => asleep t (List.mem_of_mem_take member)
    have moved := rep.moved ok nodup' asleep'
    obtain ⟨after, okAfter⟩ := rep.wakeTasks ok nodup' asleep'
    refine ⟨_, rep.wakeOnes_eq ok q n, moved, fun t member trace runs others => ?_⟩
    have awake : (((a.sleepersOf q).take n).foldl wakeTask k).state t ≠ .waiting := by
      rw [moved.state, if_pos member]
      split <;> decide
    obtain ⟨still, b, repLast, okLast⟩ := after.reached_awake trace okAfter runs awake others
    exact repLast.awake okLast still
  · rw [rep.wakeOnes_eq ok, List.take_length, rep.wakeAll_eq ok]
  · rw [rep.wakeAll_eq ok] at wakes
    cases wakes
    obtain ⟨after, okAfter⟩ := rep.wakeTasks ok nodup asleep
    rw [after.wakeAll_eq okAfter, a.wakeList_sleepersOf]
    rfl

def registeredTwice : Kernel :=
  (waitQueuePrepareLocked ⟨false, false⟩ (some 0x80400000) (some 0x80304100)
    (waitQueuePrepareLocked ⟨false, false⟩ (some 0x80400000) (some 0x80304040) firstDispatched).2).2

theorem threadRun_wakeups_registeredTwice :
    ∃ woken, waitQueueWakeAll 0x80400000 registeredTwice = some woken ∧ woken.state 0x80300000 = .running ∧
      waitQueueWakeAll 0x80400000 woken = some woken ∧
      ∃ ret, waitQueueWaitLocked ⟨false, false⟩ woken = some (ret, woken) := by
  have dispatched : ThreadRun .qemu 0x80200000 firstDispatched :=
    .step .schedule pairCreated_run trivial firstDispatched_schedules
  have run : ThreadRun .qemu 0x80200000 registeredTwice :=
    .step (.prepare ⟨false, false⟩ (some 0x80400000) (some 0x80304100))
      (.step (.prepare ⟨false, false⟩ (some 0x80400000) (some 0x80304040)) dispatched trivial rfl) trivial rfl
  obtain ⟨a, order, rep, -, -, members, ones, all, again⟩ := threadRun_wakeups run 0x80400000
  have first : (0x80304040 : Addr) ∈ a.queued 0x80400000 :=
    List.mem_of_mem_head? ((rep.queued.first _).symm.trans (by decide +kernel))
  have member : (0x80300000 : Addr) ∈ order :=
    (members _).mpr ⟨⟨0x80304040, first, by decide +kernel⟩, by decide +kernel⟩
  obtain ⟨woken, wakes, moved, awake⟩ := ones order.length
  rw [List.take_length] at moved awake
  have state := moved.state 0x80300000
  rw [if_pos member, if_pos (by decide +kernel)] at state
  have current : threadCurrent woken = some 0x80300000 :=
    moved.lists.current.trans (rep.current.symm.trans (by decide +kernel))
  obtain ⟨ret, returns, -⟩ := (awake _ member [] trivial List.not_mem_nil).returns current ⟨false, false⟩
  exact ⟨woken, all.trans wakes, state, again woken (all.trans wakes), ret, returns⟩

end OrangeKernel.Thread
