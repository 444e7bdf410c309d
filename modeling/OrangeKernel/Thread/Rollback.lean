import OrangeKernel.Thread.Identity

set_option autoImplicit false

namespace OrangeKernel.Thread

open Intrusive Memory ByteMemory
open Fdt (Text)

structure Undisturbed (members : List Addr) (k k' : Kernel) (a b : Sched) : Prop where
  state : ∀ u ∈ members, b.state u = a.state u
  tid : ∀ u ∈ members, b.tid u = a.tid u
  blocks : ∀ u ∈ members, threadBlocks k' u = threadBlocks k u
  worker : ∀ u ∈ members, k'.isIdle u = k.isIdle u
  kind : ∀ u ∈ members, k'.kind u = k.kind u
  current : b.current = a.current
  next : a.nextTid ≤ b.nextTid

theorem Undisturbed.refl (members : List Addr) (k : Kernel) (a : Sched) : Undisturbed members k k a a :=
  ⟨fun _ _ => rfl, fun _ _ => rfl, fun _ _ => rfl, fun _ _ => rfl, fun _ _ => rfl, rfl, le_rfl⟩

variable {k : Kernel} {a b : Sched}

theorem Undisturbed.trans {members : List Addr} {l m : Kernel} {c : Sched} (first : Undisturbed members k l a b)
    (second : Undisturbed members l m b c) : Undisturbed members k m a c where
  state u member := (second.state u member).trans (first.state u member)
  tid u member := (second.tid u member).trans (first.tid u member)
  blocks u member := (second.blocks u member).trans (first.blocks u member)
  worker u member := (second.worker u member).trans (first.worker u member)
  kind u member := (second.kind u member).trans (first.kind u member)
  current := second.current.trans first.current
  next := first.next.trans second.next

variable {k' : Kernel}

theorem Undisturbed.subset {members fewer : List Addr} (same : Undisturbed members k k' a b)
    (inside : ∀ u ∈ fewer, u ∈ members) : Undisturbed fewer k k' a b where
  state u member := same.state u (inside u member)
  tid u member := same.tid u (inside u member)
  blocks u member := same.blocks u (inside u member)
  worker u member := same.worker u (inside u member)
  kind u member := same.kind u (inside u member)
  current := same.current
  next := same.next

variable {grants : Grants}

theorem Sched.alloc_others (fresh : grants.FreshFor a) :
    (a.alloc grants).2.all = a.all ∧ (a.alloc grants).2.zombies = a.zombies ∧
    a.nextTid ≤ (a.alloc grants).2.nextTid ∧
      ∀ u ∈ a.all, (a.alloc grants).2.state u = a.state u ∧ (a.alloc grants).2.tid u = a.tid u := by
  have other : ∀ t, grants.task = some t → ∀ u ∈ a.all, u ≠ t := by
    rintro t task u member rfl
    exact fresh u task member
  unfold Sched.alloc
  split
  · dsimp only
    split
    · exact ⟨rfl, rfl, Nat.le_succ _, fun u member => ⟨rfl, rfl⟩⟩
    next t task =>
      split <;>
        exact ⟨rfl, rfl, Nat.le_succ _, fun u member =>
          ⟨Function.update_of_ne (other t task u member) _ _, Function.update_of_ne (other t task u member) _ _⟩⟩
  · exact ⟨rfl, rfl, le_rfl, fun u member => ⟨rfl, rfl⟩⟩

structure Listed (new : List Addr) (a b : Sched) : Prop where
  all : b.all = new ++ a.all
  run : b.run = a.run ++ new
  zombies : b.zombies = a.zombies

variable {kind : ThreadKind} {group : Option Int}

theorem Sched.create_failed (fresh : grants.FreshFor a) (failed : (a.create kind group grants).1 < 0) :
    Listed [] a (a.create kind group grants).2 ∧ a.nextTid ≤ (a.create kind group grants).2.nextTid ∧
      (a.create kind group grants).2.current = a.current ∧
      ∀ u ∈ a.all, (a.create kind group grants).2.state u = a.state u ∧
        (a.create kind group grants).2.tid u = a.tid u := by
  obtain ⟨run, current⟩ := a.alloc_processor grants
  obtain ⟨all, zombies, next, others⟩ := Sched.alloc_others fresh
  unfold Sched.create at failed ⊢
  split at failed
  next after none =>
    rw [none] at all zombies next others run current
    exact ⟨⟨all, by simpa using run, zombies⟩, next, current, others⟩
  next t after allocated =>
    dsimp only at failed
    omega

theorem Sched.create_made (fresh : grants.FreshFor a) (made : 0 ≤ (a.create kind group grants).1) :
    ∃ t, grants.task = some t ∧ Listed [t] a (a.create kind group grants).2 ∧
      (a.create kind group grants).2.tid t = (a.create kind group grants).1 ∧
      (a.create kind group grants).1 = a.nextTid ∧ a.nextTid < (a.create kind group grants).2.nextTid ∧
      (a.create kind group grants).2.current = a.current ∧
      ∀ u ∈ a.all, (a.create kind group grants).2.state u = a.state u ∧
        (a.create kind group grants).2.tid u = a.tid u := by
  unfold Sched.create at made ⊢
  split at made
  · simp at made
  next t after allocated =>
    obtain ⟨task, rfl⟩ := Sched.alloc_some allocated
    have other : ∀ u ∈ a.all, u ≠ t := by
      rintro u member rfl
      exact fresh u task member
    refine ⟨t, task, ⟨rfl, rfl, rfl⟩, by simp [Sched.publish, Sched.write], rfl,
      Nat.lt_succ_self _, rfl, fun u member => ?_⟩
    constructor <;> simp [Sched.publish, Sched.write, Function.update_of_ne (other u member)]

variable {ret : Int}

theorem Created.listed (ok : SchedOk a) (fresh : grants.FreshFor a) {taken given freed : List UInt64}
    (created : Created a kind group grants ret k') (built : Built k k' grants ret taken given freed) :
    ∃ b, Rep k' b ∧ SchedOk b ∧ Undisturbed a.all k k' a b ∧
      ((ret < 0 ∧ Listed [] a b) ∨
        (0 ≤ ret ∧ ∃ t, grants.task = some t ∧ t ∉ a.all ∧ Listed [t] a b ∧
          b.tid t = ret ∧ ret = a.nextTid)) := by
  have agree : ∀ u ∈ a.all, AgreeAt u k k' := by
    intro u member
    cases built with
    | failed returns undone all => exact undone.others u fun task => fresh u task member
    | made t returns task others =>
      refine others u ?_
      rintro rfl
      exact fresh u task member
  have blocks : ∀ u ∈ a.all, threadBlocks k' u = threadBlocks k u := fun u member =>
    AgreeAt.threadBlocks (agree u member)
  have worker : ∀ u ∈ a.all, k'.isIdle u = k.isIdle u := fun u member => (agree u member).2.1
  have kinds : ∀ u ∈ a.all, k'.kind u = k.kind u := fun u member => (agree u member).1
  obtain ⟨returns, rep⟩ | ⟨returns, rep⟩ := created
  · refine ⟨a, rep, ok, ⟨fun _ _ => rfl, fun _ _ => rfl, blocks, worker, kinds, rfl, le_rfl⟩,
      .inl ⟨by omega, ?_⟩⟩
    exact ⟨rfl, (List.append_nil _).symm, rfl⟩
  · by_cases failed : ret < 0
    · obtain ⟨listed, next, current, others⟩ := Sched.create_failed fresh (returns ▸ failed)
      exact ⟨_, rep, ok.create fresh kind group,
        ⟨fun u member => (others u member).1, fun u member => (others u member).2, blocks,
          worker, kinds, current, next⟩,
        .inl ⟨failed, listed⟩⟩
    · have made : 0 ≤ (a.create kind group grants).1 := by omega
      obtain ⟨t, task, listed, number, same, next, current, others⟩ := Sched.create_made fresh made
      exact ⟨_, rep, ok.create fresh kind group,
        ⟨fun u member => (others u member).1, fun u member => (others u member).2, blocks,
          worker, kinds, current, next.le⟩,
        .inr ⟨by omega, t, task, fresh t task, listed, by rw [number, returns], by rw [returns, same]⟩⟩

inductive OwnPath (board : Board) (May : OwnOp → Prop) (Keeps : Ledger → Prop) (s : Ledger) : Ledger → Prop where
  | start (keeps : Keeps s) : OwnPath board May Keeps s s
  | step {m m' : Ledger} (op : OwnOp) (path : OwnPath board May Keeps s m) (may : May op) (allowed : OwnAllowed m op)
      (result : ownStep board m op = some m') (keeps : Keeps m') : OwnPath board May Keeps s m'

def OwnOp.IsCall : OwnOp → Prop
  | .exec .. => False
  | _ => True

def CallPath (board : Board) (s s' : Ledger) : Prop :=
  OwnPath board OwnOp.IsCall (fun m => m.kernel.current = s.kernel.current) s s'

variable {board : Board} {s s' : Ledger}

theorem Kept.after (kept : Kept s) {op : OwnOp} (allowed : OwnAllowed s op) (steps : ownStep board s op = some s') :
    Kept s' := by
  obtain ⟨result, again, after⟩ := kept.step board allowed
  obtain rfl := Option.some.inj (again.symm.trans steps)
  exact after

theorem Kept.live (kept : Kept s) : (s.held ++ s.lent).Nodup := by
  obtain ⟨a, -, live⟩ := kept
  exact live

variable {May : OwnOp → Prop} {Keeps : Ledger → Prop} {m : Ledger}

theorem OwnPath.kept (path : OwnPath board May Keeps s m) (kept : Kept s) : Kept m := by
  induction path with
  | start => exact kept
  | step op _ _ allowed result _ ih => exact ih.after allowed result

theorem OwnPath.keeps (path : OwnPath board May Keeps s m) : Keeps m := by
  cases path with
  | start keeps => exact keeps
  | step _ _ _ _ _ keeps => exact keeps

theorem Holds.relist {held : List UInt64} (holds : Holds k a held) (rep : Rep k b) (ok : SchedOk b) :
    Holds k b held := by
  have same : b.all = a.all := rep.all.unique holds.rep.all
  exact ⟨rep, ok, same ▸ holds.blocks, same ▸ holds.kstack, same ▸ holds.userStack⟩

theorem mem_ownedBlocks_iff {all : List Addr} {block : UInt64} :
    block ∈ ownedBlocks k all ↔ ∃ u ∈ all, k.isIdle u = false ∧ block ∈ threadBlocks k u := by
  simp [ownedBlocks, and_assoc]

def ThreadOp.task : ThreadOp → Option Addr
  | .createKernel _ grants | .createProcess _ _ _ grants | .createUser _ _ _ _ grants | .fork _ _ grants _ =>
    grants.task
  | _ => none

variable {op : ThreadOp}

theorem exec_created (rep : Rep k a) (ok : SchedOk a) (allowed : Allowed k op)
    (returns : createRet board k op = some ret) :
    ∃ k' b, exec board k op = some k' ∧ Rep k' b ∧ SchedOk b ∧ Undisturbed a.all k k' a b ∧
      ((ret < 0 ∧ Listed [] a b) ∨
        (0 ≤ ret ∧ ∃ t, op.task = some t ∧ t ∉ a.all ∧ Listed [t] a b ∧ b.tid t = ret ∧
          ret = a.nextTid)) := by
  cases op with
  | createKernel entry grants =>
    cases returns
    have fresh := Grants.Fresh.forSched allowed rep
    obtain ⟨b, listed⟩ := Created.listed ok fresh (rep.createKernel ok fresh entry)
      (threadCreateKernel_built entry grants k)
    exact ⟨_, b, rfl, listed⟩
  | createProcess entry stackBase stackTop grants =>
    cases returns
    have fresh := Grants.Fresh.forSched allowed rep
    obtain ⟨b, listed⟩ := Created.listed ok fresh (rep.createProcess ok fresh board entry stackBase stackTop)
      (userProcessCreate_built board entry stackBase stackTop grants k)
    exact ⟨_, b, rfl, listed⟩
  | createUser entry arg returnPc stack grants =>
    cases returns
    have fresh := Grants.Fresh.forSched allowed rep
    obtain ⟨b, listed⟩ := Created.listed ok fresh (rep.createUser ok fresh board entry arg returnPc stack)
      (threadCreateUser_built board entry arg returnPc stack grants k)
    exact ⟨_, b, rfl, listed⟩
  | fork parentTc stack grants mem =>
    have fresh := Grants.Fresh.forSched allowed rep
    obtain ⟨out, forks, created⟩ := rep.fork ok fresh board parentTc stack mem
    simp only [createRet, forks, Option.map_some, Option.some.injEq] at returns
    obtain rfl := returns
    obtain ⟨b, listed⟩ := Created.listed ok fresh created (sysFork_built forks)
    exact ⟨out.kernel, b, by simp [exec, forks], listed⟩
  | schedule | yield | prepare | wait | finish | sleep | wakeOne | wakeAll | stopTid | stopProcess
  | markCurrentZombie | reap => simp [createRet] at returns

theorem handed_failed (returns : createRet board k op = some ret) (failed : ret < 0) : handed board k op = [] := by
  cases op with
  | createProcess entry stackBase stackTop grants =>
    cases returns
    exact if_pos failed
  | createKernel | createUser | fork | schedule | yield | prepare | wait | finish | sleep | wakeOne | wakeAll | stopTid
  | stopProcess | markCurrentZombie | reap => rfl

theorem ownStep_kernel (steps : ownStep board s (.thread op) = some s') :
    exec board s.kernel op = some s'.kernel := by
  simp only [ownStep, Option.bind_eq_bind, Option.bind_eq_some_iff, Option.some.injEq] at steps
  obtain ⟨after, executes, -, -, -, -, rfl⟩ := steps
  exact executes

structure Batch (board : Board) (s₀ : Ledger) (a₀ : Sched) (stopped started : List Addr) (tids : List Int)
    (extra : List UInt64) (s : Ledger) (a : Sched) : Prop where
  path : CallPath board s₀ s
  holds : Holds s.kernel a s.held
  members : ∀ u, u ∈ a.all ↔ u ∈ stopped ∨ u ∈ started ∨ u ∈ a₀.all
  run : a.run = a₀.run ++ started.reverse
  zombies : a.zombies = stopped ++ a₀.zombies
  new : ∀ t, t ∈ stopped ∨ t ∈ started → t ∉ a₀.all
  numbers : started.map a.tid = tids
  same : Undisturbed a₀.all s₀.kernel s.kernel a₀ a
  lent : s.lent = extra ++ s₀.lent

variable {t : Addr}

section Spawn

variable {s₀ : Ledger} {a₀ : Sched} {stopped started : List Addr} {tids : List Int} {extra : List UInt64}

theorem Batch.first (holds : Holds s.kernel a s.held) : Batch board s a [] [] [] [] s a where
  path := .start rfl
  holds := holds
  members u := by simp
  run := (List.append_nil _).symm
  zombies := rfl
  new t member := by simp at member
  numbers := rfl
  same := .refl _ _ _
  lent := rfl

theorem Batch.onward (batch : Batch board s₀ a₀ stopped started tids extra s a) {op : OwnOp}
    (allowed : OwnAllowed s op) (call : op.IsCall) (steps : ownStep board s op = some s')
    (same : s'.kernel.current = s.kernel.current) :
    CallPath board s₀ s' :=
  .step op batch.path call allowed steps (same.trans (OwnPath.keeps batch.path))

variable {stack : UInt64}

theorem Batch.lend (batch : Batch board s₀ a₀ stopped started tids [] s a) (some : stack ≠ 0)
    (allowed : OwnAllowed s (.lend stack)) (steps : ownStep board s (.lend stack) = .some s') :
    Batch board s₀ a₀ stopped started tids [stack] s' a := by
  have path := batch.onward allowed trivial steps
  simp only [ownStep, if_neg some, Option.some.injEq] at steps
  subst steps
  exact { batch with path := path rfl, lent := by simp [batch.lent] }

theorem Batch.giveBack (batch : Batch board s₀ a₀ stopped started tids [stack] s a)
    (allowed : OwnAllowed s (.giveBack stack)) (steps : ownStep board s (.giveBack stack) = some s') :
    Batch board s₀ a₀ stopped started tids [] s' a := by
  have path := batch.onward allowed trivial steps
  simp only [ownStep, kfreeEach, batch.lent, List.cons_append, List.mem_cons, true_or, if_true, List.erase_cons_head,
    Option.map_some, Option.some.injEq] at steps
  subst steps
  exact { batch with path := path rfl, lent := rfl }

theorem Batch.create (kept₀ : Kept s₀) {entry stackTop : UInt64}
    (batch : Batch board s₀ a₀ [] started tids [stack] s a)
    (allowed : OwnAllowed s (.thread (.createProcess entry stack stackTop grants)))
    (steps : ownStep board s (.thread (.createProcess entry stack stackTop grants)) = some s')
    (returns : (userProcessCreate board entry stack stackTop grants s.kernel).ret = ret) :
    (ret < 0 ∧ ∃ b, Batch board s₀ a₀ [] started tids [stack] s' b) ∨
      (0 ≤ ret ∧ ∃ t b, Batch board s₀ a₀ [] (t :: started) (ret :: tids) [] s' b) := by
  obtain ⟨k', b, executes, rep, ok, same, ends⟩ :=
    exec_created batch.holds.rep batch.holds.ok (batch.holds.allowed allowed) (congrArg some returns)
  obtain rfl : k' = s'.kernel := Option.some.inj (executes.symm.trans (ownStep_kernel steps))
  have path := batch.onward allowed trivial steps (by rw [rep.current, same.current, batch.holds.rep.current])
  obtain ⟨c, holds, -⟩ := path.kept kept₀
  have older : ∀ u ∈ a₀.all, u ∈ a.all := fun u member => (batch.members u).mpr (.inr (.inr member))
  have kept := batch.same.trans (same.subset older)
  have lent := ownStep_lent steps
  have numbers : started.map b.tid = tids := by
    rw [← batch.numbers]
    exact List.map_congr_left fun t member => same.tid t ((batch.members t).mpr (.inr (.inl member)))
  obtain ⟨failed, listed⟩ | ⟨made, t, -, absent, listed, number, -⟩ := ends
  · refine .inl ⟨failed, b, path, holds.relist rep ok, fun u => ?_, ?_, ?_, batch.new, numbers, kept, ?_⟩
    · rw [listed.all, List.nil_append, batch.members]
    · rw [listed.run, List.append_nil, batch.run]
    · rw [listed.zombies, batch.zombies]
    · rw [lent, handed, returns, if_pos failed, List.diff_nil, batch.lent]
  · refine .inr ⟨made, t, b, path, holds.relist rep ok, fun u => ?_, ?_, ?_, fun u isNew => ?_, ?_, kept, ?_⟩
    · rw [listed.all, List.singleton_append, List.mem_cons, batch.members]
      simp [or_assoc]
    · rw [listed.run, batch.run, List.reverse_cons, List.append_assoc]
    · rw [listed.zombies, batch.zombies]
    · obtain impossible | member := isNew
      · cases impossible
      · rcases List.mem_cons.mp member with rfl | earlier
        · exact fun old => absent (older u old)
        · exact batch.new u (.inr earlier)
    · rw [List.map_cons, number, numbers]
    · rw [lent, handed, returns, if_neg (by omega), batch.lent]
      simp

theorem SchedOk.stop_queued (ok : SchedOk a) (queued : t ∈ a.run) :
    (a.stopTid (a.tid t)).2 = a.stop t ∧ (a.stop t).run = a.run.erase t ∧ (a.stop t).zombies = t :: a.zombies := by
  obtain ⟨member, runnable, worker⟩ := (ok.queues.mem_run t).mp queued
  refine ⟨ok.stopTid_self member, ?_, ?_⟩
  · simp [Sched.stop, worker, runnable, Sched.bury, Sched.cancel]
  · simp [Sched.stop, worker, runnable, Sched.bury, Sched.cancel]

theorem Batch.stop (kept₀ : Kept s₀) {tid : Int}
    (batch : Batch board s₀ a₀ stopped (t :: started) (tid :: tids) [] s a)
    (allowed : OwnAllowed s (.thread (.stopTid tid (-1))))
    (steps : ownStep board s (.thread (.stopTid tid (-1))) = some s') :
    ∃ b, Batch board s₀ a₀ (t :: stopped) started tids [] s' b := by
  have numbers := batch.numbers
  rw [List.map_cons, List.cons.injEq] at numbers
  obtain ⟨rfl, numbers⟩ := numbers
  have ok := batch.holds.ok
  have distinct : (a₀.run ++ (started.reverse ++ [t])).Nodup := by
    have queue := ok.queues.run_nodup
    rwa [batch.run, List.reverse_cons] at queue
  have queued : t ∈ a.run := by simp [batch.run]
  obtain ⟨stops, left, zombies⟩ := ok.stop_queued queued
  obtain ⟨after, runs, rep⟩ := batch.holds.rep.stopTid ok (a.tid t) (-1)
  obtain rfl : after = s'.kernel := by
    have executes := ownStep_kernel steps
    simpa [exec, runs] using executes
  rw [stops] at rep
  have table := threadStopTid_table runs
  obtain ⟨all, tid, -, -, -, current, -, nextTid⟩ := a.stop_table t
  have path := batch.onward allowed trivial steps (by rw [rep.current, current, batch.holds.rep.current])
  obtain ⟨c, holds, -⟩ := path.kept kept₀
  have absent := batch.new t (.inr List.mem_cons_self)
  have same : Undisturbed a₀.all s.kernel s'.kernel a (a.stop t) :=
    { state := fun u member => by
        obtain kept | ⟨rfl, -⟩ := a.stop_state t u
        · exact kept
        · exact absurd member absent
      tid := fun u _ => by rw [tid]
      blocks := fun u _ => by simp only [threadBlocks, table.kind, table.kstackBase, table.userStackBase]
      worker := fun u _ => by rw [table.isIdle]
      kind := fun u _ => by rw [table.kind]
      current := current
      next := nextTid.ge }
  refine ⟨a.stop t, path, holds.relist rep (ok.stop ((batch.members t).mpr (.inr (.inl List.mem_cons_self)))),
    fun u => ?_, ?_, ?_, fun u isNew => ?_, by rw [tid, numbers], batch.same.trans same, ?_⟩
  · rw [all, batch.members, List.mem_cons, List.mem_cons]
    tauto
  · rw [left, batch.run, List.reverse_cons, ← List.append_assoc]
    rw [← List.append_assoc] at distinct
    exact List.erase_append_right _ (List.disjoint_of_nodup_append distinct |>.symm (by simp)) |>.trans (by simp)
  · rw [zombies, batch.zombies, List.cons_append]
  · exact batch.new u (by simp only [List.mem_cons] at isNew ⊢; tauto)
  · exact (ownStep_lent steps).trans batch.lent

theorem Sched.reapList_rest (zs : List Addr) (a : Sched) :
    (a.reapList zs).state = a.state ∧ (a.reapList zs).tid = a.tid ∧ (a.reapList zs).nextTid = a.nextTid ∧
      (a.reapList zs).kind = a.kind := by
  obtain ⟨all, zombies, reaped⟩ := a.reapList_eq zs
  rw [reaped]
  exact ⟨rfl, rfl, rfl, rfl⟩

theorem SchedOk.reap_members (ok : SchedOk a) :
    a.all.Perm (a.zombies.takeWhile (· ≠ a.current) ++ a.reap.all) :=
  Sched.reapList_all (fun z member => ((ok.queues.mem_zombies z).mp member).1) ok.queues.zombies_nodup

structure Cleared (s₀ s : Ledger) (a₀ a : Sched) : Prop where
  holds : Holds s.kernel a s.held
  older : ∀ u ∈ a.all, u ∈ a₀.all
  gone : ∀ u ∈ a₀.all, u ∉ a.all → a₀.state u = .zombie
  run : a.run = a₀.run
  same : Undisturbed a₀.all s₀.kernel s.kernel a₀ a
  lent : s.lent = s₀.lent

theorem Batch.reap (kept₀ : Kept s₀) (holds₀ : Holds s₀.kernel a₀ s₀.held)
    (batch : Batch board s₀ a₀ stopped [] [] [] s a) (allowed : OwnAllowed s (.thread .reap))
    (steps : ownStep board s (.thread .reap) = some s') :
    CallPath board s₀ s' ∧ ∃ b, Cleared s₀ s' a₀ b := by
  have ok := batch.holds.ok
  obtain ⟨after, runs, rep, blocks⟩ := batch.holds.rep.reap ok
  obtain rfl : after = s'.kernel := by
    have executes := ownStep_kernel steps
    simpa [exec, runs] using executes
  obtain ⟨queue, current⟩ := a.reapList_processor a.zombies
  have path :=
    batch.onward allowed trivial steps (by rw [rep.current, batch.holds.rep.current]; exact congrArg some current)
  obtain ⟨c, holds, -⟩ := path.kept kept₀
  have parts := ok.reap_members
  have reaped : a.zombies.takeWhile (· ≠ a.current) = stopped ++ a₀.zombies.takeWhile (· ≠ a.current) := by
    -- the calling thread is not of the batch
    rw [batch.zombies, List.takeWhile_append_of_pos fun t member => ?_]
    have absent := batch.new t (.inl member)
    simp only [ne_eq, decide_not, Bool.not_eq_eq_eq_not, Bool.not_true, decide_eq_false_iff_not]
    rintro rfl
    exact absent (batch.same.current ▸ holds₀.ok.current.member)
  rw [reaped] at parts
  have distinct := parts.nodup_iff.mp ok.table.nodup
  obtain ⟨states, numbers, next, -⟩ := a.reapList_rest a.zombies
  have same : Undisturbed a₀.all s.kernel s'.kernel a a.reap :=
    { state := fun u _ => congrFun states u
      tid := fun u _ => congrFun numbers u
      blocks := fun u _ => by simp only [threadBlocks, blocks.kind, blocks.kstackBase, blocks.userStackBase]
      worker := fun u _ => by rw [blocks.isIdle]
      kind := fun u _ => by rw [blocks.kind]
      current := current
      next := next.ge }
  refine ⟨path, a.reap, holds.relist rep ok.reap, fun u left => ?_, fun u old left => ?_, ?_,
    batch.same.trans same, ?_⟩
  · have member := parts.mem_iff.mpr (List.mem_append_right _ left)
    obtain isStopped | isStarted | old := (batch.members u).mp member
    · exact absurd left (List.disjoint_of_nodup_append distinct (List.mem_append_left _ isStopped))
    · cases isStarted
    · exact old
  · have member := parts.mem_iff.mp ((batch.members u).mpr (.inr (.inr old)))
    obtain taken := (List.mem_append.mp member).resolve_right left
    obtain isStopped | zombie := List.mem_append.mp taken
    · exact absurd old (batch.new u (.inl isStopped))
    · exact ((holds₀.ok.queues.mem_zombies u).mp ((List.takeWhile_sublist _).subset zombie)).2
  · exact queue.trans (batch.run.trans (List.append_nil _))
  · exact (ownStep_lent steps).trans batch.lent

theorem spawnFail_cleared (kept₀ : Kept s₀) (holds₀ : Holds s₀.kernel a₀ s₀.held) (tids : List Int)
    (batch : Batch board s₀ a₀ stopped started tids [] s a) :
    ∃ s', spawnFail board tids s = some s' ∧
      CallPath board s₀ s' ∧ ∃ b, Cleared s₀ s' a₀ b := by
  have here := batch.path.kept kept₀
  induction tids generalizing stopped started s a with
  | nil =>
    obtain rfl : started = [] := List.map_eq_nil_iff.mp batch.numbers
    have allowed : OwnAllowed s (.thread .reap) := ⟨here.live, by simp [offered], trivial⟩
    obtain ⟨s', steps, -⟩ := here.step board allowed
    exact ⟨s', steps, batch.reap kept₀ holds₀ allowed steps⟩
  | cons tid tids ih =>
    cases started with
    | nil => cases batch.numbers
    | cons t started =>
      have allowed : OwnAllowed s (.thread (.stopTid tid (-1))) := ⟨here.live, by simp [offered], trivial⟩
      obtain ⟨middle, steps, after⟩ := here.step board allowed
      obtain ⟨b, stopped⟩ := batch.stop kept₀ allowed steps
      obtain ⟨s', rest, cleared⟩ := ih stopped after
      exact ⟨s', by simp [spawnFail, steps, rest], cleared⟩

theorem spawnFrom_cleared (kept₀ : Kept s₀) (holds₀ : Holds s₀.kernel a₀ s₀.held) {entry : UInt64}
    (answers : List (UInt64 × Grants)) (batch : Batch board s₀ a₀ [] started tids [] s a)
    (allowed : SpawnAllowed board entry answers s) :
    ∃ ret s', spawnFrom board entry answers tids s = some (ret, s') ∧ CallPath board s₀ s' ∧
      (ret < 0 → ∃ b, Cleared s₀ s' a₀ b) := by
  induction answers generalizing started tids s a with
  | nil => exact ⟨0, s, rfl, batch.path, fun failed => absurd failed (by decide)⟩
  | cons answer rest ih =>
    obtain ⟨stack, grants⟩ := answer
    have here := batch.path.kept kept₀
    unfold spawnFrom
    by_cases failed : stack = 0
    · obtain ⟨s', fails, path, cleared⟩ := spawnFail_cleared kept₀ holds₀ tids batch
      exact ⟨-1, s', by simp [failed, fails], path, fun _ => cleared⟩
    · obtain ⟨lends, allowed⟩ := allowed.resolve_left failed
      obtain ⟨lent, lendSteps, afterLend⟩ := here.step board lends
      obtain ⟨creates, allowed⟩ := allowed lent lendSteps
      obtain ⟨created, createSteps, afterCreate⟩ := afterLend.step board creates
      simp only [if_neg failed, lendSteps, createSteps, Option.bind_eq_bind, Option.bind_some]
      have outcome := (batch.lend failed lends lendSteps).create kept₀ creates createSteps rfl
      split
      next refused =>
        obtain ⟨-, b, refusedBatch⟩ | ⟨made, -⟩ := outcome
        · have owned : OwnAllowed created (.giveBack stack) := by
            change stack ∈ created.lent
            simp [refusedBatch.lent]
          obtain ⟨returned, returnSteps, -⟩ := afterCreate.step board owned
          obtain ⟨s', fails, path, cleared⟩ :=
            spawnFail_cleared kept₀ holds₀ tids (refusedBatch.giveBack owned returnSteps)
          exact ⟨-1, s', by simp [returnSteps, fails], path, fun _ => cleared⟩
        · omega
      next made =>
        obtain ⟨refused, -⟩ | ⟨-, t, b, larger⟩ := outcome
        · exact absurd refused made
        · exact ih larger (allowed created createSteps (by omega))

end Spawn

def Skips (low high : Nat) (a : Sched) : Prop :=
  high ≤ a.nextTid ∧ ∀ t ∈ a.all, a.tid t < low ∨ high ≤ a.tid t

theorem exec_sorts (executes : exec board k op = some k') :
    Quiet op ∨ op = .reap ∨ ∃ ret, createRet board k op = some ret := by
  cases op with
  | createKernel | createProcess | createUser => exact .inr (.inr ⟨_, rfl⟩)
  | fork parentTc stack grants mem =>
    obtain ⟨out, forks, -⟩ := Option.map_eq_some_iff.mp executes
    exact .inr (.inr ⟨out.ret, by simp [createRet, forks]⟩)
  | reap => exact .inr (.inl rfl)
  | schedule | yield | prepare | wait | finish | sleep | wakeOne | wakeAll | stopTid | stopProcess
  | markCurrentZombie => exact .inl trivial

def newThread (board : Board) (k : Kernel) : OwnOp → Option Addr
  | .thread op => (createRet board k op).bind fun ret => if 0 ≤ ret then op.task else none
  | _ => none

structure SameThread (t : Addr) (k k' : Kernel) : Prop where
  kind : k'.kind t = k.kind t
  isIdle : k'.isIdle t = k.isIdle t
  kstackBase : k'.kstackBase t = k.kstackBase t

theorem SameThread.refl (t : Addr) (k : Kernel) : SameThread t k k := ⟨rfl, rfl, rfl⟩

theorem threadBlocks_kstack (same : threadBlocks k' t = threadBlocks k t) :
    k'.kstackBase t = k.kstackBase t := by
  unfold threadBlocks at same
  simp only [List.cons_append] at same
  exact (List.cons.inj (List.cons.inj same).2).1

inductive AfterExec (k k' : Kernel) (a b : Sched) (new : Option Addr) (t : Addr) : Prop where
  | old (member : t ∈ a.all) (other : new ≠ some t) (same : SameThread t k k') (tid : b.tid t = a.tid t)
      (dead : a.state t = .zombie → b.state t = .zombie)
  | new (isNew : new = some t) (absent : t ∉ a.all) (number : a.nextTid ≤ b.tid t)

theorem exec_members (rep : Rep k a) (ok : SchedOk a) (allowed : Allowed k op)
    (executes : exec board k op = some k') :
    ∃ b, Rep k' b ∧ SchedOk b ∧ a.nextTid ≤ b.nextTid ∧
      ∀ t ∈ b.all, AfterExec k k' a b (newThread board k (.thread op)) t := by
  have nobody : ∀ t, createRet board k op = none → newThread board k (.thread op) ≠ some t := fun t quiet => by
    simp [newThread, quiet]
  obtain quiet | rfl | ⟨ret, returns⟩ := exec_sorts executes
  · obtain ⟨after, b, runs, repAfter, okAfter, next⟩ := exec_next board rep ok op allowed
    obtain rfl := Option.some.inj (runs.symm.trans executes)
    have table := (exec_quiet quiet executes).1
    have silent : createRet board k op = none := by
      cases op with
      | createKernel | createProcess | createUser | fork | reap => exact quiet.elim
      | schedule | yield | prepare | wait | finish | sleep | wakeOne | wakeAll | stopTid | stopProcess
      | markCurrentZombie => rfl
    have unchanged : ∀ t, SameThread t k after := fun t =>
      ⟨by rw [table.kind], by rw [table.isIdle], by rw [table.kstackBase]⟩
    obtain rfl | rfl := next
    · exact ⟨b, repAfter, okAfter, le_rfl, fun t member => .old member (nobody t silent) (unchanged t) rfl id⟩
    · have same := a.after_threads quiet
      refine ⟨_, repAfter, okAfter, same.nextTid.ge, fun t member => ?_⟩
      rw [same.all] at member
      exact .old member (nobody t silent) (unchanged t) (congrFun same.tid t) (Sched.after_zombie ok quiet)
  · obtain ⟨after, runs, repAfter, same⟩ := rep.reap ok
    obtain rfl : after = k' := by simpa [exec, runs] using executes
    obtain ⟨states, tid, next, -⟩ := a.reapList_rest a.zombies
    refine ⟨a.reap, repAfter, ok.reap, next.ge, fun t left => ?_⟩
    exact .old (ok.reap_members.mem_iff.mpr (List.mem_append_right _ left)) (nobody t rfl)
      ⟨by rw [same.kind], by rw [same.isIdle], by rw [same.kstackBase]⟩ (congrFun tid t) (congrFun states t).trans
  · obtain ⟨after, b, runs, repAfter, okAfter, same, ends⟩ := exec_created rep ok allowed returns
    obtain rfl := Option.some.inj (runs.symm.trans executes)
    refine ⟨b, repAfter, okAfter, same.next, fun t member => ?_⟩
    have old : t ∈ a.all → newThread board k (.thread op) ≠ some t →
        AfterExec k after a b (newThread board k (.thread op)) t := fun inside other =>
      .old inside other ⟨same.kind t inside, same.worker t inside, threadBlocks_kstack (same.blocks t inside)⟩
        (same.tid t inside) (same.state t inside).trans
    obtain ⟨failed, listed⟩ | ⟨made, new, task, absent, listed, number, isNext⟩ := ends
    · rw [listed.all, List.nil_append] at member
      exact old member (by simp [newThread, returns, Int.not_le.mpr failed])
    · have isNew : newThread board k (.thread op) = some new := by simp [newThread, returns, made, task]
      rw [listed.all, List.singleton_append] at member
      rcases List.mem_cons.mp member with rfl | inside
      · exact .new isNew absent (by omega)
      · refine old inside fun same => absent ?_
        rw [isNew] at same
        exact Option.some.inj same ▸ inside

theorem Holds.skips (holds : Holds s.kernel a s.held) {low high : Nat} (skips : Skips low high a) {op : OwnOp}
    (allowed : OwnAllowed s op) (steps : ownStep board s op = some s') :
    ∃ b, Rep s'.kernel b ∧ SchedOk b ∧ Skips low high b := by
  cases op with
  | thread op =>
    obtain ⟨b, rep, ok, next, members⟩ :=
      exec_members holds.rep holds.ok (holds.allowed allowed) (ownStep_kernel steps)
    have above := skips.1
    refine ⟨b, rep, ok, by omega, fun t member => ?_⟩
    cases members t member with
    | old inside _ _ tid _ =>
      rw [tid]
      exact skips.2 t inside
    | new _ _ number => omega
  | exec boot fuel path frame mem =>
    obtain ⟨⟨ret, mem', after⟩, runs, rfl⟩ := Option.map_eq_some_iff.mp steps
    exact ⟨a, holds.rep.executed runs, holds.ok, skips⟩
  | lend stack =>
    simp only [ownStep, Option.some.injEq] at steps
    refine ⟨a, ?_, holds.ok, skips⟩
    subst steps
    split <;> exact holds.rep
  | giveBack stack =>
    obtain ⟨lent, -, rfl⟩ := Option.map_eq_some_iff.mp steps
    exact ⟨a, holds.rep, holds.ok, skips⟩

theorem OwnPath.skips (path : OwnPath board May Keeps s m) (kept : Kept s) (holds : Holds s.kernel a s.held)
    {low high : Nat} (skips : Skips low high a) : ∃ b, Holds m.kernel b m.held ∧ Skips low high b := by
  induction path with
  | start => exact ⟨a, holds, skips⟩
  | step op path _ allowed result _ ih =>
    obtain ⟨b, holdsNow, skipsNow⟩ := ih
    obtain ⟨c, rep, ok, skipsAfter⟩ := holdsNow.skips skipsNow allowed result
    obtain ⟨d, holdsAfter, -⟩ := (path.kept kept).after allowed result
    exact ⟨c, holdsAfter.relist rep ok, skipsAfter⟩

structure Unharmed (board : Board) (s s' : Ledger) (run all all' : List Addr) : Prop where
  runQueue : Fifo s.kernel.next s.kernel.runHead s.kernel.runTail run
  sameQueue : Fifo s'.kernel.next s'.kernel.runHead s'.kernel.runTail run
  allThreads : Stack s.kernel.allNext s.kernel.allThreads all
  allThreads' : Stack s'.kernel.allNext s'.kernel.allThreads all'
  states : ∀ u ∈ all, s'.kernel.state u = s.kernel.state u
  live : ∀ u, (u ∈ all' ∧ s'.kernel.state u ≠ .zombie) ↔ (u ∈ all ∧ s.kernel.state u ≠ .zombie)
  -- Apart from the blocks of threads that were zombies already.
  blocks : ∀ block, (∀ z ∈ all, s.kernel.state z = .zombie → block ∉ threadBlocks s.kernel z) →
    (block ∈ s'.held ++ s'.lent ↔ block ∈ s.held ++ s.lent)
  lent : s'.lent = s.lent
  path : CallPath board s s'
  never : ∀ m, OwnPath board (fun _ => True) (fun _ => True) s' m → ∀ later,
    Stack m.kernel.allNext m.kernel.allThreads later →
    ∀ t, t ∈ later ∨ m.kernel.current = some t →
      m.kernel.tid t < s.kernel.nextTid ∨ s'.kernel.nextTid ≤ m.kernel.tid t

theorem Cleared.unharmed (kept : Kept s) (holds : Holds s.kernel a s.held) (cleared : Cleared s s' a b)
    (path : CallPath board s s') : Unharmed board s s' a.run a.all b.all := by
  have same := cleared.same
  have rep := cleared.holds.rep
  refine ⟨holds.rep.run, cleared.run ▸ rep.run, holds.rep.all, rep.all, fun u member => ?_, fun u => ?_,
    fun block apart => ?_, cleared.lent, path, fun m later members listed t known => ?_⟩
  · rw [rep.state, holds.rep.state, same.state u member]
  · rw [rep.state, holds.rep.state]
    constructor
    · rintro ⟨member, alive⟩
      have old := cleared.older u member
      exact ⟨old, same.state u old ▸ alive⟩
    · rintro ⟨old, alive⟩
      refine ⟨?_, (same.state u old).symm ▸ alive⟩
      by_contra left
      exact alive (cleared.gone u old left)
  · rw [List.mem_append, List.mem_append, cleared.lent, cleared.holds.blocks.mem_iff, holds.blocks.mem_iff,
      mem_ownedBlocks_iff, mem_ownedBlocks_iff]
    refine or_congr ⟨?_, ?_⟩ Iff.rfl
    · rintro ⟨u, member, worker, owned⟩
      have old := cleared.older u member
      exact ⟨u, old, same.worker u old ▸ worker, same.blocks u old ▸ owned⟩
    · rintro ⟨u, old, worker, owned⟩
      refine ⟨u, ?_, (same.worker u old).symm ▸ worker, (same.blocks u old).symm ▸ owned⟩
      -- a thread that went was a zombie, and the block is not one of a zombie
      by_contra left
      exact apart u old (by rw [holds.rep.state, cleared.gone u old left]) owned
  · have skips : Skips a.nextTid b.nextTid b := by
      refine ⟨le_rfl, fun u member => .inl ?_⟩
      rw [same.tid u (cleared.older u member)]
      exact (holds.ok.table.tid_bound u (cleared.older u member)).2
    obtain ⟨c, now, skipped⟩ := later.skips (path.kept kept) cleared.holds skips
    rw [now.rep.tid, holds.rep.next_tid, rep.next_tid]
    refine skipped.2 t ?_
    obtain member | current := known
    · rwa [now.rep.all.unique listed]
    · rw [(now.rep.isCurrent t).mp current]
      exact now.ok.current.member

def halfBatch : List (UInt64 × Grants) :=
  [(0x80310000, ⟨some 0x80300000, 0x80304000⟩), (0x80330000, ⟨some 0x80308000, 0⟩)]

theorem Holds.failedCall (kept : Kept s) (holds : Holds s.kernel a s.held) (allowed : OwnAllowed s (.thread op))
    (returns : createRet board s.kernel op = some ret) (failed : ret < 0)
    (steps : ownStep board s (.thread op) = some s') : Unharmed board s s' a.run a.all a.all := by
  obtain ⟨k', b, executes, rep, ok, same, ends⟩ := exec_created holds.rep holds.ok (holds.allowed allowed) returns
  obtain rfl : k' = s'.kernel := Option.some.inj (executes.symm.trans (ownStep_kernel steps))
  obtain ⟨-, listed⟩ | ⟨made, -⟩ := ends
  · obtain ⟨c, holds', -⟩ := kept.after allowed steps
    have path : CallPath board s s' :=
      .step (.thread op) (.start rfl) trivial allowed steps (by rw [rep.current, same.current, holds.rep.current])
    have cleared : Cleared s s' a b :=
      { holds := holds'.relist rep ok
        older := fun u member => by rwa [listed.all] at member
        gone := fun u member left => absurd member (by rwa [listed.all] at left)
        run := by rw [listed.run, List.append_nil]
        same := same
        lent := by rw [ownStep_lent steps, handed_failed returns failed, List.diff_nil] }
    have unharmed := cleared.unharmed kept holds path
    rwa [listed.all, List.nil_append] at unharmed
  · omega

theorem ownRun_failedCreation {board : Board} {bootIdle : Addr} {s : Ledger} (run : OwnRun board bootIdle s) :
    (∀ op ret, OwnAllowed s (.thread op) → createRet board s.kernel op = some ret → ret < 0 →
      ∃ s' runnable all, ownStep board s (.thread op) = some s' ∧ Unharmed board s s' runnable all all) ∧
    ∀ boot mem, ∃ bound, ∀ fuel, bound ≤ fuel → ∀ name answers,
      SpawnAllowed board (UInt64.ofNat (userCodeBase board)) answers s →
      ∃ ret s', execSpawn board boot fuel name answers mem s = some (ret, s') ∧
        (ret < 0 → ∃ runnable all all', Unharmed board s s' runnable all all') := by
  have kept := run.kept
  obtain ⟨a, holds, -⟩ := run.kept
  have nothing : Unharmed board s s a.run a.all a.all :=
    Cleared.unharmed kept holds ⟨holds, fun _ member => member, fun _ member left => absurd member left, rfl,
      .refl _ _ _, rfl⟩ (.start rfl)
  constructor
  · intro op ret allowed returns failed
    obtain ⟨s', steps, -⟩ := run.next allowed
    exact ⟨s', a.run, a.all, steps, holds.failedCall kept allowed returns failed steps⟩
  · intro boot mem
    obtain ⟨bound, searched⟩ := searched_of_le boot mem
    refine ⟨bound, fun fuel enough name answers allowed => ?_⟩
    unfold execSpawn
    split
    · exact ⟨-1, s, rfl, fun _ => ⟨_, _, _, nothing⟩⟩
    · obtain ⟨image, mem', loads⟩ := holds.rep.loads board (searched fuel enough) name
      rw [loads]
      obtain ⟨rfl, -⟩ | ⟨size, rfl, -⟩ := execLoadImage_cases loads
      · exact ⟨-1, s, rfl, fun _ => ⟨_, _, _, nothing⟩⟩
      · have started : threadSystemBootstrapInit s.kernel = s.kernel := by
          simp [threadSystemBootstrapInit, holds.rep.current]
        simp only [Option.bind_eq_bind, Option.bind_some, started]
        obtain ⟨ret, s', spawns, path, cleared⟩ := spawnFrom_cleared kept holds answers (.first holds) allowed
        refine ⟨ret, s', spawns, fun failed => ?_⟩
        obtain ⟨b, back⟩ := cleared failed
        exact ⟨_, _, _, back.unharmed kept holds path⟩

def oneProgram : List UInt8 :=
  Cpio.archive [Cpio.plainRecord (Text.ofAscii "bin/a.bin") [0x13, 0, 0, 0] 0x81a4 (by decide) (by decide)]
    Cpio.endOfFiles []

def oneProgramMemory : Mem where
  byte x := if x < 0x2000 then 0 else oneProgram.getD (x - 0x2000) 0

def oneProgramBoot : BootInfo := ⟨0x2000, 0x2000 + UInt64.ofNat oneProgram.length⟩

theorem execSpawn_steady {boot : BootInfo} {fuel later : Nat} {name : Text} {mem : Mem}
    {program : Option Cpio.FindCtx} (le : fuel ≤ later) (finds : findProgram boot fuel name mem = some program)
    {answers : List (UInt64 × Grants)} :
    execSpawn board boot later name answers mem s = execSpawn board boot fuel name answers mem s := by
  simp only [execSpawn, execLoadImage, finds, findProgram_steady le finds]

theorem ownRun_failedCreation_halfBatch :
    ∃ fuel s' runnable all all',
      execSpawn .qemu oneProgramBoot fuel (Text.ofAscii "a") halfBatch oneProgramMemory (ledgerStart 0x80200000) =
        some (-1, s') ∧
      Unharmed .qemu (ledgerStart 0x80200000) s' runnable all all' := by
  have run : OwnRun .qemu 0x80200000 (ledgerStart 0x80200000) := .boot
  have fails : (execSpawn .qemu oneProgramBoot 300 (Text.ofAscii "a") halfBatch oneProgramMemory
      (ledgerStart 0x80200000)).map Prod.fst = some (-1) := by
    decide +kernel
  have allowed : SpawnAllowed .qemu (UInt64.ofNat (userCodeBase .qemu)) halfBatch (ledgerStart 0x80200000) := by
    refine .inr ⟨.inr (by decide), fun lent lends => ?_⟩
    obtain rfl : sampleLent = lent := Option.some.inj lends
    refine ⟨⟨by decide, by decide, List.mem_singleton.mpr rfl⟩, fun created creates _ => ?_⟩
    have one : (ownStep .qemu sampleLent (.thread sampleProcess)).map
        (fun s => (s.held, s.lent, s.kernel.bootIdleThread)) =
          some ([0x80310000, 0x80300000, 0x80304000], [], 0x80200000) := by decide +kernel
    have same : sampleProcess = .createProcess (UInt64.ofNat (userCodeBase .qemu)) 0x80310000
        (0x80310000 + userStackSize) ⟨some 0x80300000, 0x80304000⟩ := rfl
    rw [same, creates] at one
    simp only [Option.map_some, Option.some.injEq, Prod.mk.injEq] at one
    obtain ⟨held, lent, boot⟩ := one
    refine .inr ⟨.inr (by rw [held, lent]; decide), fun again lends => ?_⟩
    cases lends
    refine ⟨⟨?_, ?_, List.mem_cons_self⟩, fun _ _ _ => trivial⟩
    · change (offered _ ++ (created.held ++ (_ :: created.lent))).Nodup
      rw [held, lent]
      decide
    · change created.kernel.bootIdleThread ∉ offered _
      rw [boot]
      decide
  have found : ∃ program, findProgram oneProgramBoot 300 (Text.ofAscii "a") oneProgramMemory = some program :=
    Option.isSome_iff_exists.mp (by decide +kernel)
  obtain ⟨program, found⟩ := found
  obtain ⟨bound, onward⟩ := (ownRun_failedCreation run).2 oneProgramBoot oneProgramMemory
  obtain ⟨ret, s', spawns, unharmed⟩ :=
    onward (max bound 300) (Nat.le_max_left _ _) (Text.ofAscii "a") halfBatch allowed
  rw [← execSpawn_steady (Nat.le_max_right bound 300) found, spawns] at fails
  obtain rfl : ret = -1 := Option.some.inj fails
  obtain ⟨runnable, all, all', kept⟩ := unharmed (by decide)
  exact ⟨_, s', runnable, all, all', spawns, kept⟩

end OrangeKernel.Thread
