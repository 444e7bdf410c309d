import OrangeKernel.Thread.State
import Mathlib.Data.List.Nodup

set_option autoImplicit false

namespace OrangeKernel.Thread

open Function

@[ext] structure Sched where
  run : List Addr
  zombies : List Addr
  all : List Addr
  queued : Addr → List Addr
  regs : Addr → List Addr
  owner : Addr → Option Addr
  place : Addr → Option Addr
  state : Addr → ThreadState
  tid : Addr → Int
  tgid : Addr → Int
  kind : Addr → ThreadKind
  idle : Addr → Bool
  bootIdle : Addr
  current : Addr
  nextTid : Nat

structure WaitOk (queued regs : Addr → List Addr) (owner place : Addr → Option Addr) : Prop where
  queued_nodup : ∀ q, (queued q).Nodup
  regs_nodup : ∀ t, (regs t).Nodup
  mem_queued : ∀ e q, e ∈ queued q ↔ place e = some q
  mem_regs : ∀ e t, e ∈ regs t ↔ owner e = some t
  linked : ∀ e, place e = none ↔ owner e = none

structure TableOk (all : List Addr) (idle : Addr → Bool) (bootIdle : Addr) (tid : Addr → Int) (nextTid : Nat) :
    Prop where
  nodup : all.Nodup
  boot_mem : bootIdle ∈ all
  idle_iff : ∀ t ∈ all, idle t = true ↔ t = bootIdle
  tid_inj : ∀ t ∈ all, ∀ u ∈ all, tid t = tid u → t = u
  tid_bound : ∀ t ∈ all, 0 ≤ tid t ∧ tid t < nextTid

structure QueuesOk (run zombies all : List Addr) (state : Addr → ThreadState) (idle : Addr → Bool) : Prop where
  run_nodup : run.Nodup
  zombies_nodup : zombies.Nodup
  mem_run : ∀ t, t ∈ run ↔ t ∈ all ∧ state t = .runnable ∧ idle t = false
  mem_zombies : ∀ t, t ∈ zombies ↔ t ∈ all ∧ state t = .zombie

structure CurrentOk (all : List Addr) (state : Addr → ThreadState) (current : Addr) : Prop where
  member : current ∈ all
  off_queue : state current ≠ .runnable
  only : ∀ t ∈ all, state t = .running → t = current

structure SleepOk (all : List Addr) (state : Addr → ThreadState) (idle : Addr → Bool) (regs : Addr → List Addr) :
    Prop where
  not_new : ∀ t ∈ all, state t ≠ .new
  idle_live : ∀ t ∈ all, idle t = true → state t ≠ .zombie
  waiting : ∀ t ∈ all, state t = .waiting → regs t ≠ []
  regs_live : ∀ t, regs t ≠ [] → t ∈ all ∧ state t ≠ .zombie ∧ idle t = false

structure SchedOk (a : Sched) : Prop where
  wait : WaitOk a.queued a.regs a.owner a.place
  table : TableOk a.all a.idle a.bootIdle a.tid a.nextTid
  queues : QueuesOk a.run a.zombies a.all a.state a.idle
  current : CurrentOk a.all a.state a.current
  sleep : SleepOk a.all a.state a.idle a.regs

variable {a : Sched} {t : Addr}

theorem SchedOk.current_not_run (ok : SchedOk a) : a.current ∉ a.run := fun member =>
  ok.current.off_queue ((ok.queues.mem_run _).mp member).2.1

theorem SchedOk.boot_runnable (ok : SchedOk a) (away : a.bootIdle ≠ a.current) :
    a.state a.bootIdle = .runnable := by
  have member := ok.table.boot_mem
  have idle := (ok.table.idle_iff _ member).mpr rfl
  cases state : a.state a.bootIdle with
  | running => exact absurd (ok.current.only _ member state) away
  | runnable => rfl
  | new => exact absurd state (ok.sleep.not_new _ member)
  | waiting =>
    have live := ok.sleep.regs_live _ (ok.sleep.waiting _ member state)
    simp [idle] at live
  | zombie => exact absurd state (ok.sleep.idle_live _ member idle)

def Sched.switchTo (next : Addr) (a : Sched) : Sched :=
  { a with
    state := fun t => if t = next then .running
      else if t = a.current ∧ a.state t = .running then .runnable else a.state t
    run := if a.state a.current = .running ∧ a.idle a.current = false then a.run ++ [a.current] else a.run
    current := next }

def Sched.schedule (a : Sched) : Sched :=
  match a.run with
  | next :: rest => { a with run := rest }.switchTo next
  | [] => if a.idle a.current then a else a.switchTo a.bootIdle

theorem Sched.switchTo_next (next : Addr) (a : Sched) : (a.switchTo next).state next = .running := if_pos rfl

-- Apart from the thread that comes and the one that leaves while it runs, every thread keeps its state.
theorem Sched.switchTo_cases (next : Addr) (a : Sched) (t : Addr) :
    t = next ∧ (a.switchTo next).state t = .running ∨
      t ≠ next ∧ t = a.current ∧ a.state t = .running ∧ (a.switchTo next).state t = .runnable ∨
      t ≠ next ∧ ¬ (t = a.current ∧ a.state t = .running) ∧ (a.switchTo next).state t = a.state t := by
  by_cases comes : t = next
  · exact .inl ⟨comes, if_pos comes⟩
  by_cases leaves : t = a.current ∧ a.state t = .running
  · exact .inr (.inl ⟨comes, leaves.1, leaves.2, (if_neg comes).trans (if_pos leaves)⟩)
  · exact .inr (.inr ⟨comes, leaves, (if_neg comes).trans (if_neg leaves)⟩)

theorem Sched.mem_switchTo_run (next : Addr) (a : Sched) (t : Addr) :
    t ∈ (a.switchTo next).run ↔ t ∈ a.run ∨ t = a.current ∧ a.state t = .running ∧ a.idle t = false := by
  unfold Sched.switchTo
  dsimp only
  split
  next preempted =>
    rw [List.mem_append, List.mem_singleton]
    constructor
    · rintro (queued | rfl)
      · exact .inl queued
      · exact .inr ⟨rfl, preempted⟩
    · rintro (queued | ⟨same, -⟩)
      · exact .inl queued
      · exact .inr same
  next stays =>
    refine ⟨.inl, ?_⟩
    rintro (queued | ⟨rfl, preempted⟩)
    · exact queued
    · exact absurd preempted stays

theorem SchedOk.switchTo (ok : SchedOk a) {next : Addr} (rest : List Addr) (other : next ≠ a.current)
    (member : next ∈ a.all) (runnable : a.state next = .runnable) (nodup : rest.Nodup)
    (left : ∀ t, t ∈ rest ↔ t ∈ a.run ∧ t ≠ next) : SchedOk ({ a with run := rest }.switchTo next) := by
  have outRest : a.current ∉ rest := fun inRest => ok.current_not_run ((left _).mp inRest).1
  have split := Sched.switchTo_cases next { a with run := rest }
  refine ⟨ok.wait, ok.table, ⟨?_, ok.queues.zombies_nodup, fun t => ?_, fun t => ?_⟩,
    ⟨member, ?_, fun t inAll now => ?_⟩,
    ⟨fun t inAll => ?_, fun t inAll idle => ?_, fun t inAll now => ?_, fun t registered => ?_⟩⟩
  · simp only [Sched.switchTo]
    split
    · exact nodup.append (List.nodup_singleton _) (by simpa using outRest)
    · exact nodup
  · rw [Sched.mem_switchTo_run]
    obtain ⟨rfl, now⟩ | ⟨-, rfl, running, now⟩ | ⟨comes, stays, now⟩ := split t
    · simp [now, left, other]
    · have inAll : a.current ∈ ({ a with run := rest }.switchTo next).all := ok.current.member
      have idle : ({ a with run := rest }.switchTo next).idle = a.idle := rfl
      dsimp only at now running ⊢
      simp [now, running, outRest, inAll, idle]
    · have queued : t ∈ rest ↔ t ∈ a.run := (left t).trans (and_iff_left comes)
      have unmoved : ¬ (t = a.current ∧ a.state t = .running ∧ a.idle t = false) := fun moved =>
        stays ⟨moved.1, moved.2.1⟩
      rw [now, queued, or_iff_left unmoved]
      exact ok.queues.mem_run t
  · show t ∈ a.zombies ↔ t ∈ a.all ∧ ({ a with run := rest }.switchTo next).state t = .zombie
    have before := ok.queues.mem_zombies t
    obtain ⟨rfl, now⟩ | ⟨-, rfl, running, now⟩ | ⟨-, -, now⟩ := split t
    · simp [now, before, runnable]
    · dsimp only at now running ⊢
      simp [now, ok.queues.mem_zombies, running]
    · rw [now]
      exact before
  · show ({ a with run := rest }.switchTo next).state next ≠ .runnable
    rw [Sched.switchTo_next]
    decide
  · obtain ⟨rfl, -⟩ | ⟨-, -, -, preempted⟩ | ⟨-, stays, same⟩ := split t
    · rfl
    · rw [preempted] at now
      cases now
    · rw [same] at now
      exact absurd ⟨ok.current.only t inAll now, now⟩ stays
  · obtain ⟨-, now⟩ | ⟨-, -, -, now⟩ | ⟨-, -, now⟩ := split t
    · simp [now]
    · simp [now]
    · rw [now]
      exact ok.sleep.not_new t inAll
  · obtain ⟨-, now⟩ | ⟨-, -, -, now⟩ | ⟨-, -, now⟩ := split t
    · simp [now]
    · simp [now]
    · rw [now]
      exact ok.sleep.idle_live t inAll idle
  · obtain ⟨-, comes⟩ | ⟨-, -, -, leaves⟩ | ⟨-, -, same⟩ := split t
    · simp [comes] at now
    · simp [leaves] at now
    · rw [same] at now
      exact ok.sleep.waiting t inAll now
  · obtain ⟨inAll, alive, worker⟩ := ok.sleep.regs_live t registered
    refine ⟨inAll, ?_, worker⟩
    obtain ⟨-, now⟩ | ⟨-, -, -, now⟩ | ⟨-, -, now⟩ := split t
    · simp [now]
    · simp [now]
    · rw [now]
      exact alive

theorem SchedOk.schedule (ok : SchedOk a) : SchedOk a.schedule := by
  unfold Sched.schedule
  split
  next next rest run =>
    have member : next ∈ a.run := by simp [run]
    obtain ⟨inAll, runnable, -⟩ := (ok.queues.mem_run next).mp member
    have nodup := ok.queues.run_nodup
    rw [run, List.nodup_cons] at nodup
    refine ok.switchTo rest (fun same => ok.current_not_run (same ▸ member)) inAll runnable nodup.2 fun t => ?_
    rw [run, List.mem_cons]
    constructor
    · intro inRest
      exact ⟨.inr inRest, fun same => nodup.1 (same ▸ inRest)⟩
    · rintro ⟨same | inRest, differs⟩
      · exact absurd same differs
      · exact inRest
  next run =>
    split
    · exact ok
    next busy =>
      have away : a.bootIdle ≠ a.current := by
        intro same
        exact busy ((ok.table.idle_iff _ ok.current.member).mpr same.symm)
      have idle := (ok.table.idle_iff _ ok.table.boot_mem).mpr rfl
      refine ok.switchTo a.run away ok.table.boot_mem (ok.boot_runnable away) ok.queues.run_nodup fun t => ?_
      refine ⟨fun inRun => ⟨inRun, ?_⟩, And.left⟩
      rintro rfl
      simp [((ok.queues.mem_run _).mp inRun).2.2] at idle

structure Switched (a b : Sched) : Prop where
  owner : b.owner = a.owner
  place : b.place = a.place
  all : b.all = a.all
  idle : b.idle = a.idle
  waiting : ∀ t, b.state t = .waiting ↔ a.state t = .waiting
  zombie : ∀ t, b.state t = .zombie ↔ a.state t = .zombie
  awake : ∀ t, (b.state t = .running ∨ b.state t = .runnable) ↔ (a.state t = .running ∨ a.state t = .runnable)
  current : (b = a ∧ a.idle a.current = true) ∨ b.state b.current = .running

theorem Sched.switchTo_switched {next : Addr} (runnable : a.state next = .runnable) (rest : List Addr) :
    Switched a ({ a with run := rest }.switchTo next) := by
  refine ⟨rfl, rfl, rfl, rfl, fun t => ?_, fun t => ?_, fun t => ?_, Or.inr (Sched.switchTo_next _ _)⟩
  all_goals
    obtain ⟨rfl, now⟩ | ⟨-, -, running, now⟩ | ⟨-, -, now⟩ :=
      Sched.switchTo_cases next { a with run := rest } t
    · simp [now, runnable]
    · have running : a.state t = .running := running
      simp [now, running]
    · rw [now]

theorem SchedOk.switched (ok : SchedOk a) : Switched a a.schedule := by
  unfold Sched.schedule
  split
  next next rest run =>
    have member : next ∈ a.run := by simp [run]
    exact Sched.switchTo_switched ((ok.queues.mem_run next).mp member).2.1 rest
  next run =>
    split
    next idle =>
      exact ⟨rfl, rfl, rfl, rfl, fun _ => Iff.rfl, fun _ => Iff.rfl, fun _ => Iff.rfl, Or.inl ⟨rfl, idle⟩⟩
    next busy =>
      have away : a.bootIdle ≠ a.current := fun same =>
        busy ((ok.table.idle_iff _ ok.current.member).mpr same.symm)
      exact Sched.switchTo_switched (ok.boot_runnable away) a.run

variable {queued regs : Addr → List Addr} {owner place : Addr → Option Addr}

theorem iff_ite_of_not {P : Addr → Prop} {q : Prop} (out : ¬ P t) (no : ¬ q) (u : Addr) :
    P u ↔ if u = t then q else P u := by
  by_cases same : u = t
  · subst same
    simp [out, no]
  · simp [same]

theorem SchedOk.restate (ok : SchedOk a) (member : t ∈ a.all) (st : ThreadState)
    {run zombies : List Addr}
    (wait : WaitOk queued regs owner place) (run_nodup : run.Nodup) (zombies_nodup : zombies.Nodup)
    (mem_run : ∀ u, u ∈ run ↔ if u = t then st = .runnable ∧ a.idle t = false else u ∈ a.run)
    (mem_zombies : ∀ u, u ∈ zombies ↔ if u = t then st = .zombie else u ∈ a.zombies)
    (off_queue : t = a.current → st ≠ .runnable) (only : st = .running → t = a.current) (not_new : st ≠ .new)
    (same_regs : ∀ u, u ≠ t → regs u = a.regs u) (waiting : st = .waiting → regs t ≠ [])
    (regs_live : regs t ≠ [] → st ≠ .zombie ∧ a.idle t = false)
    (idle_live : a.idle t = true → st ≠ .zombie) :
    SchedOk { a with
      run := run
      zombies := zombies
      queued := queued
      regs := regs
      owner := owner
      place := place
      state := update a.state t st } := by
  refine ⟨wait, ok.table, ⟨run_nodup, zombies_nodup, fun u => ?_, fun u => ?_⟩,
    ⟨ok.current.member, ?_, fun u inAll => ?_⟩,
    ⟨fun u inAll => ?_, fun u inAll => ?_, fun u inAll => ?_, fun u => ?_⟩⟩
  · rw [mem_run u]
    by_cases same : u = t
    · subst same
      simp [member]
    · simpa [same] using ok.queues.mem_run u
  · rw [mem_zombies u]
    by_cases same : u = t
    · subst same
      simp [member]
    · simpa [same] using ok.queues.mem_zombies u
  · by_cases same : a.current = t
    · subst same
      simpa using off_queue rfl
    · simpa [same] using ok.current.off_queue
  · by_cases same : u = t
    · subst same
      simpa using only
    · simpa [same] using ok.current.only u inAll
  · by_cases same : u = t
    · subst same
      simpa using not_new
    · simpa [same] using ok.sleep.not_new u inAll
  · by_cases same : u = t
    · subst same
      simpa using idle_live
    · simpa [same] using ok.sleep.idle_live u inAll
  · by_cases same : u = t
    · subst same
      simpa using waiting
    · simpa [same, same_regs u same] using ok.sleep.waiting u inAll
  · by_cases same : u = t
    · subst same
      simpa [member] using regs_live
    · simpa [same, same_regs u same] using ok.sleep.regs_live u

def Sched.prepare (q e : Addr) (a : Sched) : Sched :=
  { a with
    queued := update a.queued q (a.queued q ++ [e])
    regs := update a.regs a.current (e :: a.regs a.current)
    owner := update a.owner e (some a.current)
    place := update a.place e (some q)
    state := update a.state a.current .waiting }

variable {e : Addr}

theorem WaitOk.register
    (ok : WaitOk queued regs owner place) (free : owner e = none) (t q : Addr) :
    WaitOk (update queued q (queued q ++ [e])) (update regs t (e :: regs t))
      (update owner e (some t)) (update place e (some q)) := by
  have unplaced := (ok.linked e).mpr free
  have unqueued : e ∉ queued q := by simp [ok.mem_queued, unplaced]
  have unowned : e ∉ regs t := by simp [ok.mem_regs, free]
  refine ⟨fun q' => ?_, fun t' => ?_, fun e' q' => ?_, fun e' t' => ?_, fun e' => ?_⟩
  · have nodup := ok.queued_nodup q'
    by_cases here : q' = q
    · subst here
      simpa using nodup.append (List.nodup_singleton e) (by simpa using unqueued)
    · simpa [here] using nodup
  · have nodup := ok.regs_nodup t'
    by_cases here : t' = t
    · subst here
      simpa using ⟨unowned, nodup⟩
    · simpa [here] using nodup
  · by_cases same : e' = e
    · subst same
      by_cases here : q' = q
      · simp [here]
      · have elsewhere : e' ∉ queued q' := by simp [ok.mem_queued, unplaced]
        simp [here, elsewhere, Ne.symm here]
    · by_cases here : q' = q
      · subst here
        simp [same, ok.mem_queued]
      · simp [here, same, ok.mem_queued]
  · by_cases same : e' = e
    · subst same
      by_cases here : t' = t
      · simp [here]
      · have elsewhere : e' ∉ regs t' := by simp [ok.mem_regs, free]
        simp [here, elsewhere, Ne.symm here]
    · by_cases here : t' = t
      · subst here
        simp [same, ok.mem_regs]
      · simp [here, same, ok.mem_regs]
  · by_cases same : e' = e
    · simp [same]
    · simpa [same] using ok.linked e'

theorem SchedOk.prepare (ok : SchedOk a) (q : Addr) (free : a.owner e = none)
    (worker : a.idle a.current = false) (awake : a.state a.current ≠ .zombie) : SchedOk (a.prepare q e) := by
  have alive : a.current ∉ a.zombies := fun member => awake ((ok.queues.mem_zombies _).mp member).2
  exact ok.restate ok.current.member .waiting (ok.wait.register free a.current q) ok.queues.run_nodup
    ok.queues.zombies_nodup (iff_ite_of_not ok.current_not_run (by simp)) (iff_ite_of_not alive (by simp)) (by simp)
    (by simp) (by simp) (fun u other => by simp [other]) (by simp) (by simp [worker]) (by simp)

def Sched.prepareLocked (flags : LocalFlags) (queue entry : Option Addr) (a : Sched) : Int × Sched :=
  match queue, entry with
  | some q, some e =>
    if flags.irqsEnabled ∨ flags.bottomHalf ∨ a.idle a.current ∨
        (a.state a.current ≠ .running ∧ a.state a.current ≠ .waiting) ∨ a.owner e ≠ none then (-1, a)
    else (0, a.prepare q e)
  | _, _ => (-1, a)

def Sched.waitLocked (flags : LocalFlags) (a : Sched) : Int × Sched :=
  if flags.irqsEnabled ∨ flags.bottomHalf ∨ a.idle a.current ∨ a.regs a.current = [] ∨
      (a.state a.current ≠ .waiting ∧ a.state a.current ≠ .running) then (-1, a)
  else if a.state a.current = .waiting then (0, a.schedule)
  else (0, a)

def Sched.sleepLocked (flags : LocalFlags) (queue : Option Addr) (entry : Addr) (a : Sched) : Int × Sched :=
  let (ret, prepared) := a.prepareLocked flags queue (some entry)
  if ret ≠ 0 then (ret, prepared) else prepared.waitLocked flags

theorem Sched.prepareLocked_cases (flags : LocalFlags) (q e : Addr) (a : Sched) :
    a.prepareLocked flags (some q) (some e) = (-1, a) ∨
      (a.prepareLocked flags (some q) (some e) = (0, a.prepare q e) ∧ flags.irqsEnabled = false ∧
        flags.bottomHalf = false ∧ a.idle a.current = false ∧ a.state a.current ≠ .zombie ∧
        a.owner e = none) := by
  unfold Sched.prepareLocked
  dsimp only
  split
  · exact Or.inl rfl
  next accepted =>
    simp only [not_or, not_and, not_not, Bool.not_eq_true] at accepted
    obtain ⟨irqsOff, thread, worker, awake, free⟩ := accepted
    refine Or.inr ⟨rfl, irqsOff, thread, worker, fun zombie => ?_, free⟩
    simp [zombie] at awake

theorem SchedOk.prepareLocked (ok : SchedOk a) (flags : LocalFlags) (queue entry : Option Addr) :
    SchedOk (a.prepareLocked flags queue entry).2 := by
  cases queue with
  | none => exact ok
  | some q =>
    cases entry with
    | none => exact ok
    | some e =>
      obtain refused | ⟨accepted, -, -, worker, alive, free⟩ := a.prepareLocked_cases flags q e
      · rw [refused]
        exact ok
      · rw [accepted]
        exact ok.prepare q free worker alive

theorem SchedOk.waitLocked (ok : SchedOk a) (flags : LocalFlags) : SchedOk (a.waitLocked flags).2 := by
  unfold Sched.waitLocked
  split
  · exact ok
  · split
    · exact ok.schedule
    · exact ok

theorem SchedOk.sleepLocked (ok : SchedOk a) (flags : LocalFlags) (queue : Option Addr) (entry : Addr) :
    SchedOk (a.sleepLocked flags queue entry).2 := by
  have prepared := ok.prepareLocked flags queue (some entry)
  unfold Sched.sleepLocked
  dsimp only
  split
  · exact prepared
  · exact prepared.waitLocked flags

def Sched.detach (e t q : Addr) (a : Sched) : Sched :=
  { a with
    queued := update a.queued q ((a.queued q).erase e)
    regs := update a.regs t ((a.regs t).erase e)
    owner := update a.owner e none
    place := update a.place e none }

def Sched.finish (e : Addr) (a : Sched) : Sched :=
  match a.owner e, a.place e with
  | some t, some q =>
    let detached := a.detach e t q
    if t = a.current ∧ a.state t = .waiting ∧ detached.regs t = [] then
      { detached with state := update a.state t .running }
    else detached
  | _, _ => a

theorem WaitOk.detach
    (ok : WaitOk queued regs owner place) {q : Addr} (owned : owner e = some t) (placed : place e = some q) :
    WaitOk (update queued q ((queued q).erase e)) (update regs t ((regs t).erase e))
      (update owner e none) (update place e none) := by
  refine ⟨fun q' => ?_, fun t' => ?_, fun e' q' => ?_, fun e' t' => ?_, fun e' => ?_⟩
  · have nodup := ok.queued_nodup q'
    by_cases here : q' = q
    · subst here
      simpa using nodup.erase e
    · simpa [here] using nodup
  · have nodup := ok.regs_nodup t'
    by_cases here : t' = t
    · subst here
      simpa using nodup.erase e
    · simpa [here] using nodup
  · have erased := (ok.queued_nodup q).mem_erase_iff (a := e') (b := e)
    by_cases same : e' = e
    · subst same
      by_cases here : q' = q
      · subst here
        simp [erased]
      · simp [here, ok.mem_queued, placed, Ne.symm here]
    · by_cases here : q' = q
      · subst here
        simp [same, erased, ok.mem_queued]
      · simp [here, same, ok.mem_queued]
  · have erased := (ok.regs_nodup t).mem_erase_iff (a := e') (b := e)
    by_cases same : e' = e
    · subst same
      by_cases here : t' = t
      · subst here
        simp [erased]
      · simp [here, ok.mem_regs, owned, Ne.symm here]
    · by_cases here : t' = t
      · subst here
        simp [same, erased, ok.mem_regs]
      · simp [here, same, ok.mem_regs]
  · by_cases same : e' = e
    · simp [same]
    · simpa [same] using ok.linked e'

theorem SchedOk.finish (ok : SchedOk a) (own : ∀ t, a.owner e = some t → t = a.current) :
    SchedOk (a.finish e) := by
  unfold Sched.finish
  split
  next t q owned placed =>
    obtain rfl := own t owned
    have registered : a.regs a.current ≠ [] := List.ne_nil_of_mem ((ok.wait.mem_regs e a.current).mpr owned)
    have live := ok.sleep.regs_live _ registered
    have off := ok.current_not_run
    have alive : a.current ∉ a.zombies := fun member => live.2.1 ((ok.queues.mem_zombies _).mp member).2
    have wait := ok.wait.detach owned placed
    dsimp only [Sched.detach]
    split
    next woken =>
      exact ok.restate ok.current.member .running wait ok.queues.run_nodup ok.queues.zombies_nodup
        (iff_ite_of_not off (by simp)) (iff_ite_of_not alive (by simp)) (by simp) (by simp) (by simp)
        (fun u other => by simp [other]) (by simp) (by simp [live.2.2]) (by simp)
    next stays =>
      have kept := ok.restate ok.current.member (a.state a.current) wait ok.queues.run_nodup ok.queues.zombies_nodup
        (iff_ite_of_not off fun both => ok.current.off_queue both.1) (iff_ite_of_not alive live.2.1)
        (fun _ => ok.current.off_queue)
        (fun _ => rfl) (ok.sleep.not_new _ ok.current.member) (fun u other => by simp [other])
        (fun asleep empty => stays ⟨rfl, asleep, empty⟩) (fun _ => live.2) (fun _ => live.2.1)
      rwa [update_eq_self] at kept
  · exact ok

theorem Sched.finish_links (a : Sched) (e f t q : Addr) :
    ((a.finish e).owner f = some t → a.owner f = some t) ∧
    ((a.finish e).place f = some q → a.place f = some q) := by
  unfold Sched.finish
  split
  · dsimp only
    split
    all_goals
      by_cases same : f = e
      · simp [Sched.detach, same]
      · simp [Sched.detach, same]
  · exact ⟨id, id⟩

def Sched.wake (t : Addr) (a : Sched) : Sched :=
  if a.state t ≠ .waiting then a
  else if t = a.current then { a with state := update a.state t .running }
  else
    { a with
      state := update a.state t .runnable
      run := a.run ++ [t] }

def Sched.wakeFirst : List Addr → Sched → Sched
  | [], a => a
  | e :: es, a =>
    match a.owner e with
    | none => a.wakeFirst es
    | some t => if a.state t = .waiting then a.wake t else a.wakeFirst es

def Sched.wakeOne (q : Addr) (a : Sched) : Sched := a.wakeFirst (a.queued q)

def Sched.wakeEach : List Addr → Sched → Sched
  | [], a => a
  | e :: es, a =>
    match a.owner e with
    | none => a.wakeEach es
    | some t => (a.wake t).wakeEach es

def Sched.wakeAll (q : Addr) (a : Sched) : Sched := a.wakeEach (a.queued q)

theorem Sched.wake_state (asleep : a.state t = .waiting) :
    (a.wake t).state = update a.state t (if t = a.current then .running else .runnable) := by
  unfold Sched.wake
  rw [if_neg (not_not.mpr asleep)]
  split <;> rfl

theorem Sched.wake_table (t : Addr) (a : Sched) :
    (a.wake t).all = a.all ∧ (a.wake t).idle = a.idle ∧ (a.wake t).current = a.current ∧
      (a.wake t).queued = a.queued ∧ (a.wake t).owner = a.owner ∧ (a.wake t).place = a.place := by
  unfold Sched.wake
  split
  · simp
  · split <;> simp

theorem SchedOk.wake (ok : SchedOk a) (registered : a.regs t ≠ []) : SchedOk (a.wake t) := by
  obtain ⟨member, -, worker⟩ := ok.sleep.regs_live t registered
  unfold Sched.wake
  split
  · exact ok
  next asleep =>
    have off : t ∉ a.run := fun inRun => by
      have runnable := ((ok.queues.mem_run t).mp inRun).2.1
      simp [runnable] at asleep
    have alive : t ∉ a.zombies := fun dead => by
      have zombie := ((ok.queues.mem_zombies t).mp dead).2
      simp [zombie] at asleep
    split
    next isCurrent =>
      exact ok.restate member .running ok.wait ok.queues.run_nodup ok.queues.zombies_nodup
        (iff_ite_of_not off (by simp)) (iff_ite_of_not alive (by simp)) (by simp) (fun _ => isCurrent) (by simp)
        (fun _ _ => rfl) (by simp) (by simp [worker]) (by simp)
    next away =>
      have nodup : (a.run ++ [t]).Nodup :=
        ok.queues.run_nodup.append (List.nodup_singleton t) (by simpa using off)
      refine ok.restate member .runnable ok.wait nodup ok.queues.zombies_nodup (fun u => ?_)
        (iff_ite_of_not alive (by simp)) (fun isCurrent => absurd isCurrent away) (by simp) (by simp)
        (fun _ _ => rfl) (by simp) (by simp [worker]) (by simp)
      by_cases same : u = t
      · simp [same, worker]
      · simp [same]

theorem SchedOk.registered (ok : SchedOk a) (owned : a.owner e = some t) : a.regs t ≠ [] :=
  List.ne_nil_of_mem ((ok.wait.mem_regs e t).mpr owned)

theorem SchedOk.wakeFirst (ok : SchedOk a) (es : List Addr) : SchedOk (a.wakeFirst es) := by
  induction es with
  | nil => exact ok
  | cons e es ih =>
    unfold Sched.wakeFirst
    split
    · exact ih
    next t owned =>
      split
      · exact ok.wake (ok.registered owned)
      · exact ih

theorem Sched.wakeFirst_cases (es : List Addr) (a : Sched) :
    (a.wakeFirst es = a ∧ ∀ e ∈ es, ∀ t, a.owner e = some t → a.state t ≠ .waiting) ∨
      ∃ e ∈ es, ∃ t, a.owner e = some t ∧ a.state t = .waiting ∧ a.wakeFirst es = a.wake t := by
  induction es with
  | nil => exact Or.inl ⟨rfl, by simp⟩
  | cons e es ih =>
    unfold Sched.wakeFirst
    cases owned : a.owner e with
    | none => simpa [owned] using ih
    | some t =>
      by_cases asleep : a.state t = .waiting
      · refine Or.inr ⟨e, List.mem_cons_self, t, owned, asleep, ?_⟩
        simp [asleep]
      · simpa [owned, asleep] using ih

theorem SchedOk.wakeEach (ok : SchedOk a) (es : List Addr) : SchedOk (a.wakeEach es) := by
  induction es generalizing a with
  | nil => exact ok
  | cons e es ih =>
    unfold Sched.wakeEach
    split
    · exact ih ok
    next t owned => exact ih (ok.wake (ok.registered owned))

def Sched.cancel (t : Addr) (a : Sched) : Sched :=
  { a with
    queued := fun q => (a.queued q).filter fun e => a.owner e ≠ some t
    regs := update a.regs t []
    owner := fun e => if a.owner e = some t then none else a.owner e
    place := fun e => if a.owner e = some t then none else a.place e
    state := if t = a.current ∧ a.state t = .waiting ∧ a.regs t ≠ [] then update a.state t .running
      else a.state }

def Sched.bury (t : Addr) (a : Sched) : Sched :=
  { a with
    state := update a.state t .zombie
    zombies := t :: a.zombies }

def Sched.stop (t : Addr) (a : Sched) : Sched :=
  if a.idle t = true ∨ a.state t = .zombie then a else (({ a with run := a.run.erase t }).cancel t).bury t

theorem WaitOk.cancel
    (ok : WaitOk queued regs owner place) (t : Addr) :
    WaitOk (fun q => (queued q).filter fun e => owner e ≠ some t) (update regs t [])
      (fun e => if owner e = some t then none else owner e) (fun e => if owner e = some t then none else place e) := by
  refine ⟨fun q => (ok.queued_nodup q).filter _, fun t' => ?_, fun e q => ?_, fun e t' => ?_, fun e => ?_⟩
  · have nodup := ok.regs_nodup t'
    by_cases here : t' = t
    · simp [here]
    · simpa [here] using nodup
  · rw [List.mem_filter, decide_eq_true_iff, ok.mem_queued e q]
    by_cases cancelled : owner e = some t
    · simp [cancelled]
    · simp [cancelled]
  · by_cases cancelled : owner e = some t
    · by_cases here : t' = t
      · simp [cancelled, here]
      · simp [cancelled, here, ok.mem_regs, Ne.symm here]
    · by_cases here : t' = t
      · simp [here, cancelled]
      · simp [here, cancelled, ok.mem_regs]
  · by_cases cancelled : owner e = some t
    · simp [cancelled]
    · simpa [cancelled] using ok.linked e

theorem SchedOk.stop (ok : SchedOk a) (member : t ∈ a.all) : SchedOk (a.stop t) := by
  unfold Sched.stop
  split
  · exact ok
  next alive =>
    have fresh : t ∉ a.zombies := fun dead => alive (Or.inr ((ok.queues.mem_zombies t).mp dead).2)
    have erased := fun u => ok.queues.run_nodup.mem_erase_iff (a := u) (b := t)
    have queued : ∀ u, u ∈ a.run.erase t ↔
        if u = t then ThreadState.zombie = .runnable ∧ a.idle t = false else u ∈ a.run := by
      intro u
      rw [erased u]
      by_cases same : u = t
      · simp [same]
      · simp [same]
    have dead : ∀ u, u ∈ t :: a.zombies ↔ if u = t then ThreadState.zombie = .zombie else u ∈ a.zombies := by
      intro u
      rw [List.mem_cons]
      by_cases same : u = t
      · simp [same]
      · simp [same]
    have buried := ok.restate member .zombie (ok.wait.cancel t) (ok.queues.run_nodup.erase t)
      (List.nodup_cons.mpr ⟨fresh, ok.queues.zombies_nodup⟩) queued dead (by simp) (by simp) (by simp)
      (fun u other => by simp [other]) (by simp) (by simp) (fun idle => absurd (Or.inl idle) alive)
    have states : (({ a with run := a.run.erase t }).cancel t).bury t = { a with
        run := a.run.erase t
        zombies := t :: a.zombies
        queued := fun q => (a.queued q).filter fun e => a.owner e ≠ some t
        regs := update a.regs t []
        owner := fun e => if a.owner e = some t then none else a.owner e
        place := fun e => if a.owner e = some t then none else a.place e
        state := update a.state t .zombie } := by
      simp only [Sched.bury, Sched.cancel]
      split <;> simp
    rw [states]
    exact buried

def Sched.stopTid (tid : Int) (a : Sched) : Int × Sched :=
  match a.all.find? fun t => a.tid t = tid with
  | none => (-1, a)
  | some t => if a.idle t then (-1, a) else (0, a.stop t)

def Sched.stopEach (tgid : Int) : List Addr → Sched → Sched
  | [], a => a
  | t :: ts, a => (if a.kind t = .user ∧ a.tgid t = tgid then a.stop t else a).stopEach tgid ts

def Sched.stopProcess (tgid : Int) (a : Sched) : Int × Sched :=
  (if a.all.any fun t => a.kind t = .user ∧ a.tgid t = tgid then 0 else -1, a.stopEach tgid a.all)

theorem Sched.stop_table (t : Addr) (a : Sched) :
    (a.stop t).all = a.all ∧ (a.stop t).tid = a.tid ∧ (a.stop t).tgid = a.tgid ∧ (a.stop t).kind = a.kind ∧
      (a.stop t).idle = a.idle ∧ (a.stop t).current = a.current ∧ (a.stop t).bootIdle = a.bootIdle ∧
      (a.stop t).nextTid = a.nextTid := by
  unfold Sched.stop
  split <;> simp [Sched.bury, Sched.cancel]

theorem Sched.stop_state (t : Addr) (a : Sched) (u : Addr) :
    (a.stop t).state u = a.state u ∨ (u = t ∧ (a.stop t).state u = .zombie) := by
  unfold Sched.stop
  split
  · exact .inl rfl
  · by_cases same : u = t
    · exact .inr ⟨same, by simp [Sched.bury, same]⟩
    · left
      simp only [Sched.bury, Sched.cancel, update_of_ne same]
      split <;> simp [update_of_ne same]

theorem Sched.stop_zombie {u : Addr} (zombie : a.state u = .zombie) (t : Addr) :
    (a.stop t).state u = .zombie := by
  obtain kept | ⟨-, stopped⟩ := a.stop_state t u
  · rw [kept, zombie]
  · exact stopped

theorem Sched.stop_self (worker : a.idle t = false) : (a.stop t).state t = .zombie := by
  by_cases dead : a.state t = .zombie
  · exact stop_zombie dead t
  · simp [Sched.stop, Sched.bury, worker, dead]

theorem Sched.stop_waiting {u : Addr} (waiting : (a.stop t).state u = .waiting) : a.state u = .waiting := by
  obtain kept | ⟨-, stopped⟩ := a.stop_state t u
  · rw [← kept, waiting]
  · simp [stopped] at waiting

theorem SchedOk.stopTid (ok : SchedOk a) (tid : Int) : SchedOk (a.stopTid tid).2 := by
  unfold Sched.stopTid
  split
  · exact ok
  next t found =>
    split
    · exact ok
    · exact ok.stop (List.mem_of_find?_eq_some found)

theorem SchedOk.find_self (ok : SchedOk a) (member : t ∈ a.all) :
    (a.all.find? fun u => a.tid u = a.tid t) = some t := by
  cases lookup : a.all.find? fun u => a.tid u = a.tid t with
  | none => simpa using List.find?_eq_none.mp lookup t member
  | some u =>
    have same : a.tid u = a.tid t := by simpa using List.find?_some lookup
    rw [ok.table.tid_inj u (List.mem_of_find?_eq_some lookup) t member same]

theorem SchedOk.stopTid_self (ok : SchedOk a) (member : t ∈ a.all) :
    (a.stopTid (a.tid t)).2 = a.stop t := by
  unfold Sched.stopTid
  rw [ok.find_self member]
  dsimp only
  split
  next idle => simp [Sched.stop, idle]
  · rfl

theorem SchedOk.stopTid_state (ok : SchedOk a) (tid : Int) :
    (∀ t ∈ a.all, a.idle t = false → a.tid t = tid → (a.stopTid tid).2.state t = .zombie) ∧
      ∀ t, a.tid t ≠ tid → (a.stopTid tid).2.state t = a.state t := by
  constructor
  · rintro t member worker rfl
    rw [ok.stopTid_self member]
    exact Sched.stop_self worker
  · intro t other
    unfold Sched.stopTid
    split
    · rfl
    next u found =>
      have named : a.tid u = tid := by simpa using List.find?_some found
      split
      · rfl
      · exact (a.stop_state u t).resolve_right fun both => other (both.1 ▸ named)

theorem SchedOk.stopEach (ok : SchedOk a) (tgid : Int) {ts : List Addr} (members : ∀ t ∈ ts, t ∈ a.all) :
    SchedOk (a.stopEach tgid ts) := by
  induction ts generalizing a with
  | nil => exact ok
  | cons t ts ih =>
    unfold Sched.stopEach
    have rest : ∀ u ∈ ts, u ∈ a.all := fun u member => members u (List.mem_cons_of_mem _ member)
    split
    · refine ih (ok.stop (members t List.mem_cons_self)) ?_
      rw [(a.stop_table t).1]
      exact rest
    · exact ih ok rest

theorem Sched.stopEach_state (tgid : Int) (ts : List Addr) (a : Sched) :
    (∀ t ∈ ts, a.idle t = false → a.kind t = .user ∧ a.tgid t = tgid →
      (a.stopEach tgid ts).state t = .zombie) ∧
      (∀ t, ¬ (a.kind t = .user ∧ a.tgid t = tgid) → (a.stopEach tgid ts).state t = a.state t) ∧
      ∀ t, a.state t = .zombie → (a.stopEach tgid ts).state t = .zombie := by
  induction ts generalizing a with
  | nil => exact ⟨by simp, fun _ _ => rfl, fun _ => id⟩
  | cons u ts ih =>
    unfold Sched.stopEach
    split
    next named =>
      obtain ⟨-, -, sameTgid, sameKind, sameIdle, -⟩ := a.stop_table u
      obtain ⟨stopped, kept, dead⟩ := ih (a.stop u)
      rw [sameTgid, sameKind] at kept stopped
      rw [sameIdle] at stopped
      refine ⟨fun t member worker inGroup => ?_, fun t other => ?_, fun t zombie => dead t (stop_zombie zombie u)⟩
      · obtain rfl | rest := List.mem_cons.mp member
        · exact dead t (stop_self worker)
        · exact stopped t rest worker inGroup
      · rw [kept t other]
        exact (a.stop_state u t).resolve_right fun both => other (both.1 ▸ named)
    next outside =>
      obtain ⟨stopped, kept, dead⟩ := ih a
      refine ⟨fun t member worker inGroup => ?_, kept, dead⟩
      obtain rfl | rest := List.mem_cons.mp member
      · exact absurd inGroup outside
      · exact stopped t rest worker inGroup

def Sched.reapHead (z : Addr) (rest : List Addr) (a : Sched) : Sched :=
  { a with
    zombies := rest
    all := a.all.erase z }

def Sched.reapList : List Addr → Sched → Sched
  | [], a => a
  | z :: rest, a => if z = a.current then a else (a.reapHead z rest).reapList rest

def Sched.reap (a : Sched) : Sched := a.reapList a.zombies

theorem Sched.reapList_eq (zs : List Addr) (a : Sched) :
    ∃ all zombies, a.reapList zs = { a with all := all, zombies := zombies } := by
  induction zs generalizing a with
  | nil => exact ⟨a.all, a.zombies, rfl⟩
  | cons z zs ih =>
    unfold Sched.reapList
    split
    · exact ⟨a.all, a.zombies, rfl⟩
    · exact ih (a.reapHead z zs)

theorem SchedOk.reapHead (ok : SchedOk a) {z : Addr} {rest : List Addr} (zombies : a.zombies = z :: rest)
    (away : z ≠ a.current) : SchedOk (a.reapHead z rest) := by
  obtain ⟨member, dead⟩ := (ok.queues.mem_zombies z).mp (by simp [zombies])
  have nodup := ok.queues.zombies_nodup
  rw [zombies, List.nodup_cons] at nodup
  have left : ∀ t, t ∈ a.all.erase z ↔ t ≠ z ∧ t ∈ a.all := fun t => ok.table.nodup.mem_erase_iff
  have notIdle : z ≠ a.bootIdle := by
    intro idle
    exact ok.sleep.idle_live z member ((ok.table.idle_iff z member).mpr idle) dead
  refine ⟨ok.wait, ⟨ok.table.nodup.erase z, ?_, fun t inAll => ?_, fun t inAll u inAll' => ?_, fun t inAll => ?_⟩,
    ⟨ok.queues.run_nodup, nodup.2, fun t => ?_, fun t => ?_⟩, ⟨?_, ok.current.off_queue, fun t inAll => ?_⟩,
    ⟨fun t inAll => ?_, fun t inAll => ?_, fun t inAll => ?_, fun t registered => ?_⟩⟩
  · exact (left _).mpr ⟨notIdle.symm, ok.table.boot_mem⟩
  · exact ok.table.idle_iff t ((left t).mp inAll).2
  · exact ok.table.tid_inj t ((left t).mp inAll).2 u ((left u).mp inAll').2
  · exact ok.table.tid_bound t ((left t).mp inAll).2
  · show t ∈ a.run ↔ t ∈ a.all.erase z ∧ a.state t = .runnable ∧ a.idle t = false
    rw [left, ok.queues.mem_run t]
    constructor
    · rintro ⟨inAll, runnable, worker⟩
      refine ⟨⟨?_, inAll⟩, runnable, worker⟩
      rintro rfl
      simp [dead] at runnable
    · rintro ⟨⟨-, inAll⟩, runnable, worker⟩
      exact ⟨inAll, runnable, worker⟩
  · have before := ok.queues.mem_zombies t
    rw [zombies, List.mem_cons] at before
    show t ∈ rest ↔ t ∈ a.all.erase z ∧ a.state t = .zombie
    rw [left]
    constructor
    · intro inRest
      obtain ⟨inAll, zombie⟩ := before.mp (.inr inRest)
      exact ⟨⟨fun same => nodup.1 (same ▸ inRest), inAll⟩, zombie⟩
    · rintro ⟨⟨differs, inAll⟩, zombie⟩
      exact (before.mpr ⟨inAll, zombie⟩).resolve_left differs
  · exact (left _).mpr ⟨away.symm, ok.current.member⟩
  · exact ok.current.only t ((left t).mp inAll).2
  · exact ok.sleep.not_new t ((left t).mp inAll).2
  · exact ok.sleep.idle_live t ((left t).mp inAll).2
  · exact ok.sleep.waiting t ((left t).mp inAll).2
  · obtain ⟨inAll, alive, worker⟩ := ok.sleep.regs_live t registered
    refine ⟨(left t).mpr ⟨?_, inAll⟩, alive, worker⟩
    rintro rfl
    exact alive dead

theorem SchedOk.reap (ok : SchedOk a) : SchedOk a.reap := by
  have loop : ∀ (zs : List Addr) (b : Sched), SchedOk b → b.zombies = zs → SchedOk (b.reapList zs) := by
    intro zs
    induction zs with
    | nil => exact fun b okB _ => okB
    | cons z zs ih =>
      intro b okB zombies
      unfold Sched.reapList
      split
      · exact okB
      next away => exact ih _ (okB.reapHead zombies away) rfl
  exact loop _ a ok rfl

def Sched.write (t : Addr) (tid tgid : Int) (kind : ThreadKind) (state : ThreadState) (a : Sched) : Sched :=
  { a with
    tid := update a.tid t tid
    tgid := update a.tgid t tgid
    kind := update a.kind t kind
    state := update a.state t state
    idle := update a.idle t false }

def Sched.publish (t : Addr) (a : Sched) : Sched :=
  { a with
    all := t :: a.all
    run := a.run ++ [t]
    state := update a.state t .runnable }

theorem SchedOk.write (ok : SchedOk a) (fresh : t ∉ a.all) (tid tgid : Int) (kind : ThreadKind)
    (state : ThreadState) : SchedOk (a.write t tid tgid kind state) := by
  have ne : ∀ u ∈ a.all, u ≠ t := by
    rintro u inAll rfl
    exact fresh inAll
  refine ⟨ok.wait,
    ⟨ok.table.nodup, ok.table.boot_mem, fun u inAll => ?_, fun u inAll v inAll' => ?_, fun u inAll => ?_⟩,
    ⟨ok.queues.run_nodup, ok.queues.zombies_nodup, fun u => ?_, fun u => ?_⟩,
    ⟨ok.current.member, ?_, fun u inAll => ?_⟩,
    ⟨fun u inAll => ?_, fun u inAll => ?_, fun u inAll => ?_, fun u registered => ?_⟩⟩
  · simpa [Sched.write, ne u inAll] using ok.table.idle_iff u inAll
  · simpa [Sched.write, ne u inAll, ne v inAll'] using ok.table.tid_inj u inAll v inAll'
  · simpa [Sched.write, ne u inAll] using ok.table.tid_bound u inAll
  · rw [Sched.write, ok.queues.mem_run u]
    exact and_congr_right fun inAll => by simp [ne u inAll]
  · rw [Sched.write, ok.queues.mem_zombies u]
    exact and_congr_right fun inAll => by simp [ne u inAll]
  · simpa [Sched.write, ne _ ok.current.member] using ok.current.off_queue
  · simpa [Sched.write, ne u inAll] using ok.current.only u inAll
  · simpa [Sched.write, ne u inAll] using ok.sleep.not_new u inAll
  · simpa [Sched.write, ne u inAll] using ok.sleep.idle_live u inAll
  · simpa [Sched.write, ne u inAll] using ok.sleep.waiting u inAll
  · have live := ok.sleep.regs_live u registered
    simpa [Sched.write, ne u live.1] using live

theorem SchedOk.publish (ok : SchedOk a) (fresh : t ∉ a.all) (worker : a.idle t = false)
    (above : ∀ u ∈ a.all, a.tid u < a.tid t) (bound : a.tid t < a.nextTid) : SchedOk (a.publish t) := by
  have off : t ∉ a.run := fun inRun => fresh ((ok.queues.mem_run t).mp inRun).1
  have boot : 0 ≤ a.tid a.bootIdle := (ok.table.tid_bound _ ok.table.boot_mem).1
  have below := above _ ok.table.boot_mem
  have inTable := ok.current.member
  have old : ∀ u ∈ a.all, (a.publish t).state u = a.state u := by
    intro u inAll
    have other : u ≠ t := fun same => fresh (same ▸ inAll)
    exact update_of_ne other _ _
  have new : (a.publish t).state t = .runnable := update_self _ _ _
  refine ⟨ok.wait, ⟨List.nodup_cons.mpr ⟨fresh, ok.table.nodup⟩, List.mem_cons_of_mem _ ok.table.boot_mem,
    List.forall_mem_cons.mpr ⟨?_, ok.table.idle_iff⟩, fun u inAll v inAll' same => ?_,
    List.forall_mem_cons.mpr ⟨⟨Int.le_trans boot (Int.le_of_lt below), bound⟩, ok.table.tid_bound⟩⟩,
    ⟨ok.queues.run_nodup.append (List.nodup_singleton t) (by simpa using off), ok.queues.zombies_nodup, fun u => ?_,
      fun u => ?_⟩,
    ⟨List.mem_cons_of_mem _ inTable, ?_, List.forall_mem_cons.mpr ⟨?_, fun u inAll => ?_⟩⟩,
    ⟨List.forall_mem_cons.mpr ⟨?_, fun u inAll => ?_⟩, List.forall_mem_cons.mpr ⟨?_, fun u inAll => ?_⟩,
      List.forall_mem_cons.mpr ⟨?_, fun u inAll => ?_⟩, fun u registered => ?_⟩⟩
  · refine iff_of_false (by simp [Sched.publish, worker]) fun same => ?_
    exact fresh (same ▸ ok.table.boot_mem)
  · obtain rfl | first : u = t ∨ u ∈ a.all := List.mem_cons.mp inAll
    · obtain rfl | second : v = u ∨ v ∈ a.all := List.mem_cons.mp inAll'
      · rfl
      · exact absurd same.symm (Int.ne_of_lt (above v second))
    · obtain rfl | second : v = t ∨ v ∈ a.all := List.mem_cons.mp inAll'
      · exact absurd same (Int.ne_of_lt (above u first))
      · exact ok.table.tid_inj u first v second same
  · show u ∈ a.run ++ [t] ↔ u ∈ t :: a.all ∧ (a.publish t).state u = .runnable ∧ a.idle u = false
    by_cases same : u = t
    · subst same
      simp [new, worker]
    · simp [same, ok.queues.mem_run u, Sched.publish]
  · show u ∈ a.zombies ↔ u ∈ t :: a.all ∧ (a.publish t).state u = .zombie
    by_cases same : u = t
    · subst same
      simp [new, ok.queues.mem_zombies, fresh]
    · simp [same, ok.queues.mem_zombies u, Sched.publish]
  · show (a.publish t).state a.current ≠ .runnable
    rw [old _ inTable]
    exact ok.current.off_queue
  · simp [new]
  · rw [old u inAll]
    exact ok.current.only u inAll
  · simp [new]
  · rw [old u inAll]
    exact ok.sleep.not_new u inAll
  · simp [new]
  · rw [old u inAll]
    exact ok.sleep.idle_live u inAll
  · simp [new]
  · rw [old u inAll]
    exact ok.sleep.waiting u inAll
  · obtain ⟨inAll, alive, works⟩ := ok.sleep.regs_live u registered
    rw [old u inAll]
    exact ⟨List.mem_cons_of_mem _ inAll, alive, works⟩

theorem SchedOk.skipTid (ok : SchedOk a) : SchedOk { a with nextTid := a.nextTid + 1 } := by
  refine ⟨ok.wait, ⟨ok.table.nodup, ok.table.boot_mem, ok.table.idle_iff, ok.table.tid_inj, fun t inAll => ?_⟩,
    ok.queues, ok.current, ok.sleep⟩
  have bound := ok.table.tid_bound t inAll
  dsimp only
  omega

end OrangeKernel.Thread
