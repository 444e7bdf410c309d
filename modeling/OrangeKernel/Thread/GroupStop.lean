import OrangeKernel.Thread.Identity

set_option autoImplicit false

namespace OrangeKernel.Thread

open Intrusive Memory

theorem Sched.create_others (kind : ThreadKind) (group : Option Int) {grants : Grants} (a : Sched) {u : Addr}
    (other : grants.task ≠ some u) :
    (a.create kind group grants).2.kind u = a.kind u ∧ (a.create kind group grants).2.bootIdle = a.bootIdle := by
  obtain ⟨n, same⟩ | ⟨t, task, failed | made⟩ := a.create_cases kind group grants
  · rw [same]
    exact ⟨rfl, rfl⟩
  · have differs : u ≠ t := fun same => other (same ▸ task)
    rw [failed]
    exact ⟨Function.update_of_ne differs _ _, rfl⟩
  · have differs : u ≠ t := fun same => other (same ▸ task)
    rw [made]
    simp [Sched.write, Sched.publish, differs]

variable {k : Kernel} {a : Sched}

theorem Sched.after_bootKind (rep : Rep k a) (ok : SchedOk a) {op : ThreadOp} (allowed : Allowed k op)
    (kernel : a.kind a.bootIdle = .kernel) :
    (a.after op).kind (a.after op).bootIdle = .kernel := by
  have created : ∀ kind group (grants : Grants), grants.Fresh k →
      (a.create kind group grants).2.kind (a.create kind group grants).2.bootIdle = .kernel := by
    intro kind group grants fresh
    have other : grants.task ≠ some a.bootIdle := fun task => fresh.forSched rep _ task ok.table.boot_mem
    obtain ⟨same, boot⟩ := a.create_others kind group other
    rw [boot, same, kernel]
  by_cases quiet : Quiet op
  · have same := a.after_threads quiet
    rw [same.kind, same.bootIdle, kernel]
  · cases op with
    | createKernel entry grants => exact created _ _ grants allowed
    | createProcess entry stackBase stackTop grants => exact created _ _ grants allowed
    | createUser entry arg returnPc stack grants => exact created _ _ grants allowed
    | fork parentTc stack grants mem => exact created _ _ grants allowed
    | reap =>
      obtain ⟨all, zombies, reaped⟩ := a.reapList_eq a.zombies
      rw [Sched.after, Sched.reap, reaped]
      exact kernel
    | schedule | yield | prepare | wait | finish | sleep | wakeOne | wakeAll | stopTid | stopProcess
    | markCurrentZombie => exact absurd trivial quiet

theorem threadRun_bootKind {board : Board} {bootIdle : Addr} (run : ThreadRun board bootIdle k) :
    ∃ a, Rep k a ∧ SchedOk a ∧ a.kind a.bootIdle = .kernel := by
  induction run with
  | boot => exact ⟨schedStart bootIdle, schedStart_rep bootIdle, schedStart_ok bootIdle, rfl⟩
  | step op _ allowed result ih =>
    obtain ⟨a, rep, ok, kernel⟩ := ih
    obtain ⟨k', b, executes, after, okAfter, which⟩ := exec_next board rep ok op allowed
    obtain rfl : k' = _ := Option.some.inj (executes.symm.trans result)
    refine ⟨b, after, okAfter, ?_⟩
    rcases which with rfl | rfl
    · exact kernel
    · exact Sched.after_bootKind rep ok allowed kernel

variable {t : Addr}

theorem SchedOk.user_not_idle (ok : SchedOk a) (kernel : a.kind a.bootIdle = .kernel) (member : t ∈ a.all)
    (user : a.kind t = .user) : a.idle t = false := by
  by_contra idle
  have boot := (ok.table.idle_iff t member).mp (by simpa using idle)
  rw [boot, kernel] at user
  cases user

def Sched.victims (tgid : Int) (ts : List Addr) (a : Sched) : List Addr :=
  ts.filter fun t => a.kind t = .user ∧ a.tgid t = tgid ∧ a.state t ≠ .zombie

theorem Sched.victims_stop (a : Sched) (tgid : Int) {ts : List Addr} (absent : t ∉ ts) :
    (a.stop t).victims tgid ts = a.victims tgid ts := by
  have threads := a.stop_threads t
  refine List.filter_congr fun u member => ?_
  have other : u ≠ t := fun same => absent (same ▸ member)
  have state : (a.stop t).state u = a.state u := (a.stop_state t u).resolve_right fun both => other both.1
  rw [threads.kind, threads.tgid, state]

structure Stopped (a b : Sched) (victims : List Addr) : Prop where
  threads : SameThreads a b
  current : b.current = a.current
  run : b.run = a.run.filter (· ∉ victims)
  zombies : b.zombies = victims.reverse ++ a.zombies
  state : ∀ t, b.state t = if t ∈ victims then .zombie else a.state t
  queued : ∀ q, b.queued q = (a.queued q).filter fun e => (a.owner e).all (· ∉ victims)
  owner : ∀ e, b.owner e = (a.owner e).filter (· ∉ victims)

theorem Stopped.refl (a : Sched) : Stopped a a [] where
  threads := .refl a
  current := rfl
  run := by simp
  zombies := rfl
  state t := by simp
  queued q := by simp
  owner e := by cases a.owner e <;> simp [Option.filter]

theorem Stopped.one (ok : SchedOk a) (worker : a.idle t = false) (alive : a.state t ≠ .zombie) :
    Stopped a (a.stop t) [t] := by
  have stop : a.stop t = (({ a with run := a.run.erase t }).cancel t).bury t := by
    rw [Sched.stop, if_neg (by simp [worker, alive])]
  refine ⟨a.stop_threads t, by rw [stop]; rfl, ?_, by rw [stop]; rfl, fun u => ?_, fun q => ?_, fun e => ?_⟩
  · rw [stop]
    refine (ok.queues.run_nodup.erase_eq_filter t).trans (List.filter_congr fun u _ => ?_)
    simp [bne, beq_eq_decide]
  · rw [stop]
    by_cases same : u = t
    · simp [same, Sched.bury]
    · simp only [Sched.bury, Function.update_of_ne same, Sched.cancel, List.mem_singleton, same, if_false]
      split
      · rw [Function.update_of_ne same]
      · rfl
  · rw [stop]
    refine List.filter_congr fun e _ => ?_
    cases a.owner e <;> simp
  · rw [stop]
    simp only [Sched.bury, Sched.cancel]
    cases owner : a.owner e with
    | none => simp
    | some u => by_cases same : u = t <;> simp [Option.filter, same]

theorem Stopped.trans {b c : Sched} {first second : List Addr} (left : Stopped a b first)
    (right : Stopped b c second) :
    Stopped a c (first ++ second) where
  threads := left.threads.trans right.threads
  current := right.current.trans left.current
  run := by
    rw [right.run, left.run, List.filter_filter]
    refine List.filter_congr fun t _ => ?_
    simp [Bool.and_comm]
  zombies := by rw [right.zombies, left.zombies, List.reverse_append, List.append_assoc]
  state t := by
    rw [right.state, left.state]
    by_cases inSecond : t ∈ second <;> by_cases inFirst : t ∈ first <;> simp [inFirst, inSecond]
  queued q := by
    rw [right.queued, left.queued, List.filter_filter]
    refine List.filter_congr fun e _ => ?_
    rw [left.owner]
    cases a.owner e with
    | none => rfl
    | some t => by_cases inFirst : t ∈ first <;> simp [Option.filter, inFirst]
  owner e := by
    rw [right.owner, left.owner]
    cases a.owner e with
    | none => rfl
    | some t => by_cases inFirst : t ∈ first <;> simp [Option.filter, inFirst]

theorem Sched.stopEach_stopped (ok : SchedOk a) (kernel : a.kind a.bootIdle = .kernel) (tgid : Int) {ts : List Addr}
    (members : ∀ t ∈ ts, t ∈ a.all) (nodup : ts.Nodup) :
    Stopped a (a.stopEach tgid ts) (a.victims tgid ts) := by
  induction ts generalizing a with
  | nil => exact .refl a
  | cons t ts ih =>
    obtain ⟨member, rest⟩ := List.forall_mem_cons.mp members
    obtain ⟨absent, nodup⟩ := List.nodup_cons.mp nodup
    unfold Sched.stopEach
    by_cases hit : a.kind t = .user ∧ a.tgid t = tgid ∧ a.state t ≠ .zombie
    · have one := Stopped.one ok (ok.user_not_idle kernel member hit.1) hit.2.2
      have threads := one.threads
      have more := ih (ok.stop member) (by rw [threads.kind, threads.bootIdle, kernel])
        (fun u later => by rw [threads.all]; exact rest u later) nodup
      rw [a.victims_stop tgid absent] at more
      rw [if_pos ⟨hit.1, hit.2.1⟩, Sched.victims, List.filter_cons_of_pos (by simpa using hit)]
      exact one.trans more
    · have same : (if a.kind t = .user ∧ a.tgid t = tgid then a.stop t else a) = a := by
        split
        next inGroup =>
          have dead : a.state t = .zombie := by
            by_contra alive
            exact hit ⟨inGroup.1, inGroup.2, alive⟩
          simp [Sched.stop, dead]
        · rfl
      rw [same, Sched.victims, List.filter_cons_of_neg (by simpa using hit)]
      exact ih ok kernel rest nodup

variable {after : Kernel}

section Exit

variable (rep : Rep k a) (ok : SchedOk a)
include rep ok

theorem Rep.stopTid_exit (member : t ∈ a.all) (worker : a.idle t = false) {status ret : Int}
    (stops : threadStopTid (a.tid t) status k = some (ret, after)) :
    after.exitStatus = if a.state t = .zombie then k.exitStatus else Function.update k.exitStatus t status := by
  have exitOf : ∀ {l m : Kernel}, m.records = l.records → m.exitStatus = l.exitStatus := congrArg Records.exitStatus
  unfold threadStopTid threadMarkCurrentZombie at stops
  rw [rep.find, ok.find_self member] at stops
  simp only [Option.bind_eq_bind, Option.bind_some, rep.idle, worker, rep.state, Bool.false_eq_true, if_false] at stops
  by_cases current : threadCurrent k = some t
  · simp only [current, if_true, worker, Bool.false_eq_true, false_or] at stops
    obtain ⟨marked, marks, result⟩ := Option.map_eq_some_iff.mp stops
    obtain ⟨-, rfl⟩ := Prod.mk.inj result
    split at marks
    next dead =>
      rw [if_pos dead]
      cases marks
      rfl
    next alive =>
      obtain ⟨cancelled, cancels, rfl⟩ := Option.map_eq_some_iff.mp marks
      rw [if_neg alive, Thread.makeZombie, exitOf (waitQueueCancelFrom_records cancels)]
  · rw [if_neg current] at stops
    split at stops
    next dead =>
      cases stops
      rw [if_pos dead]
    next alive =>
      obtain ⟨removed, removes, rest⟩ := Option.bind_eq_some_iff.mp stops
      obtain ⟨cancelled, cancels, rest⟩ := Option.bind_eq_some_iff.mp rest
      cases rest
      rw [if_neg alive, Thread.makeZombie, exitOf (waitQueueCancelFrom_records cancels),
        exitOf (schedRemoveFrom_records removes)]

end Exit

theorem Rep.stopProcessFrom_exit (tgid status : Int) (rep : Rep k a) (ok : SchedOk a)
    (kernel : a.kind a.bootIdle = .kernel) {l r : List Addr} (all : a.all = l ++ r) {found result : Bool}
    {fuel : Nat} (stops : Thread.stopProcessFrom tgid status fuel r.head? found k = some (result, after)) (u : Addr) :
    after.exitStatus u = if u ∈ a.victims tgid r then status else k.exitStatus u := by
  induction r generalizing k a l found fuel with
  | nil =>
    cases fuel with
    | zero => cases stops
    | succ fuel =>
      cases stops
      simp [Sched.victims]
  | cons t r ih =>
    cases fuel with
    | zero => cases stops
    | succ fuel =>
      have member : t ∈ a.all := by simp [all]
      have absent : t ∉ r := (List.nodup_cons.mp (List.nodup_append.mp (all ▸ ok.table.nodup)).2.1).1
      rw [List.head?_cons] at stops
      unfold Thread.stopProcessFrom at stops
      simp only [rep.kind, rep.tgid, rep.tid] at stops
      by_cases inGroup : a.kind t = .user ∧ a.tgid t = tgid
      · rw [if_pos inGroup] at stops
        obtain ⟨⟨ret, stopped⟩, one, rest⟩ := Option.bind_eq_some_iff.mp stops
        have worker := ok.user_not_idle kernel member inGroup.1
        have status' := rep.stopTid_exit ok member worker one
        obtain ⟨same, runs, done⟩ := rep.stopTid ok (a.tid t) status
        rw [ok.stopTid_self member] at done
        obtain rfl : stopped = same := (Prod.mk.inj (Option.some.inj (one.symm.trans runs))).2
        have threads := a.stop_threads t
        have stack := done.all
        rw [threads.all, all] at stack
        dsimp only at rest
        rw [stack.next_eq] at rest
        have later := ih done (ok.stop member) (by rw [threads.kind, threads.bootIdle, kernel]) (l := l ++ [t])
          (by simpa [threads.all] using all) rest
        rw [later, a.victims_stop tgid absent, status']
        by_cases dead : a.state t = .zombie
        · rw [if_pos dead, Sched.victims, Sched.victims, List.filter_cons_of_neg (by simp [dead])]
        · rw [if_neg dead, Sched.victims, Sched.victims, List.filter_cons_of_pos (by simp [inGroup, dead])]
          by_cases same : u = t
          · simp [same]
          · simp [same]
      · rw [if_neg inGroup] at stops
        have stack := rep.all
        rw [all] at stack
        rw [stack.next_eq] at stops
        have miss : ¬ (a.kind t = .user ∧ a.tgid t = tgid ∧ a.state t ≠ .zombie) :=
          fun hit => inGroup ⟨hit.1, hit.2.1⟩
        rw [ih rep ok kernel (l := l ++ [t]) (by simpa using all) stops, Sched.victims, Sched.victims,
          List.filter_cons_of_neg (by simpa using miss)]

def InGroup (k : Kernel) (tgid : Int) (t : Addr) : Prop := k.kind t = .user ∧ k.tgid t = tgid

theorem threadRun_stopProcess {board : Board} {bootIdle : Addr} {k : Kernel} (run : ThreadRun board bootIdle k)
    (tgid status : Int) :
    ∃ (ret : Int) (k' : Kernel) (a b : Sched) (victims : List Addr),
      threadStopProcess tgid status k = some (ret, k') ∧ Rep k a ∧ Rep k' b ∧
      (∀ t, t ∈ victims ↔ t ∈ a.all ∧ InGroup k tgid t ∧ k.state t ≠ .zombie) ∧ victims.Nodup ∧
      (∀ t, k.isIdle t = true → t ∈ a.all → t ∉ victims) ∧
      (∀ t, k'.state t = if t ∈ victims then .zombie else k.state t) ∧
      (∀ t, k'.exitStatus t = if t ∈ victims then status else k.exitStatus t) ∧
      b.run = a.run.filter (· ∉ victims) ∧
      (∀ q, b.queued q = (a.queued q).filter fun e => (k.task e).all (· ∉ victims)) ∧
      (∀ t ∈ victims, t ∉ b.run ∧ k'.waitEntries t = none ∧ ∀ e, k'.task e ≠ some t) ∧
      b.zombies = victims.reverse ++ a.zombies ∧ b.all = a.all ∧ k'.current = k.current ∧
      (ret = 0 ∨ ret = -1) ∧ (ret = 0 ↔ ∃ t ∈ b.all, InGroup k' tgid t) := by
  obtain ⟨a, rep, ok, kernel⟩ := threadRun_bootKind run
  obtain ⟨k', stops, after⟩ := rep.stopProcess ok tgid status
  have okAfter : SchedOk (a.stopProcess tgid).2 := ok.stopEach tgid fun _ member => member
  have stopped : Stopped a (a.stopProcess tgid).2 (a.victims tgid a.all) :=
    Sched.stopEach_stopped ok kernel tgid (fun _ member => member) ok.table.nodup
  have threads := stopped.threads
  have inGroup : ∀ t, InGroup k tgid t ↔ a.kind t = .user ∧ a.tgid t = tgid := fun t => by
    rw [InGroup, rep.kind, rep.tgid]
  have members : ∀ t, t ∈ a.victims tgid a.all ↔ t ∈ a.all ∧ InGroup k tgid t ∧ k.state t ≠ .zombie :=
    fun t => by
    rw [Sched.victims, List.mem_filter, decide_eq_true_iff, inGroup, rep.state, and_assoc]
  have dead : ∀ t ∈ a.victims tgid a.all, k'.state t = .zombie ∧ t ∈ (a.stopProcess tgid).2.all :=
    fun t victim => by
    rw [after.state, stopped.state, if_pos victim, threads.all]
    exact ⟨rfl, ((members t).mp victim).1⟩
  have lists := after.invariant okAfter
  refine ⟨_, k', a, _, a.victims tgid a.all, stops, rep, after, members, ok.table.nodup.filter _,
    fun t idle member victim => ?_,
    fun t => ?_, fun t => ?_, stopped.run, fun q => ?_, fun t victim => ⟨?_, ?_⟩, stopped.zombies,
    threads.all, ?_, ?_, ?_⟩
  · obtain ⟨-, group, -⟩ := (members t).mp victim
    rw [rep.idle, ok.user_not_idle kernel member ((inGroup t).mp group).1] at idle
    cases idle
  · rw [after.state, stopped.state, rep.state]
  · obtain ⟨⟨found, final⟩, walks, result⟩ := Option.map_eq_some_iff.mp stops
    obtain ⟨-, rfl⟩ := Prod.mk.inj result
    rw [rep.all.first] at walks
    exact rep.stopProcessFrom_exit tgid status ok kernel (l := []) rfl walks t
  · rw [stopped.queued, rep.owner]
  · rw [stopped.run, List.mem_filter]
    exact fun kept => of_decide_eq_true kept.2 victim
  · exact lists.zombie_unlinked t (dead t victim).2 (dead t victim).1
  · rw [after.current, rep.current, stopped.current]
  · simp only [Sched.stopProcess]
    split
    · exact .inl rfl
    · exact .inr rfl
  · have groups : (∃ t ∈ (a.stopProcess tgid).2.all, InGroup k' tgid t) ↔
        (a.all.any fun t => a.kind t = .user ∧ a.tgid t = tgid) = true := by
      simp only [InGroup, after.kind, after.tgid, threads.all, threads.kind, threads.tgid, List.any_eq_true,
        decide_eq_true_eq]
    rw [groups, Sched.stopProcess]
    dsimp only
    split
    next found => exact iff_of_true rfl found
    next absent => exact iff_of_false (by decide) absent

def processCreated : Kernel :=
  (userProcessCreate .qemu 0x83000000 0x84010000 0x84020000 ⟨some 0x80300000, 0x80304000⟩
    (threadSystemBootstrapInit (kernelStart 0x80200000))).kernel

theorem threadRun_stopProcess_created :
    ∃ k' b, threadStopProcess 1 7 processCreated = some (0, k') ∧ Rep k' b ∧ 0x80300000 ∈ b.zombies ∧
      k'.state 0x80300000 = .zombie ∧ k'.exitStatus 0x80300000 = 7 := by
  have run : ThreadRun .qemu 0x80200000 processCreated := .step
    (.createProcess 0x83000000 0x84010000 0x84020000 ⟨some 0x80300000, 0x80304000⟩) .boot
    (Grants.fresh_of_stack (schedStart_rep 0x80200000).all (by decide) _) rfl
  obtain ⟨ret, k', a, b, victims, stops, rep, after, members, -, -, state, exit, -, -, -, zombies, -⟩ :=
    threadRun_stopProcess run 1 7
  have listed : (0x80300000 : Addr) ∈ a.all := List.mem_of_mem_head? (rep.all.first.symm.trans (by decide +kernel))
  have group : InGroup processCreated 1 0x80300000 := by
    unfold InGroup
    decide +kernel
  have victim : (0x80300000 : Addr) ∈ victims := (members _).mpr ⟨listed, group, by decide +kernel⟩
  have stopped := state 0x80300000
  have left := exit 0x80300000
  rw [if_pos victim] at stopped left
  have success : (threadStopProcess 1 7 processCreated).map Prod.fst = some 0 := by decide +kernel
  rw [stops] at success
  obtain rfl : ret = 0 := Option.some.inj success
  refine ⟨k', b, stops, after, ?_, stopped, left⟩
  rw [zombies]
  exact List.mem_append_left _ (List.mem_reverse.mpr victim)

end OrangeKernel.Thread
