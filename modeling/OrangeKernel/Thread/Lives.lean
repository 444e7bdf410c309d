import OrangeKernel.Thread.Fork
import OrangeKernel.Thread.Waiters

set_option autoImplicit false

namespace OrangeKernel.Thread

open Function Intrusive Memory

theorem schedRemoveFrom_hit (t : Addr) (fuel : Nat) (prev : Option Addr) (k : Kernel) :
    schedRemoveFrom t (fuel + 1) prev (some t) k = some { k with
      next := update (setAt k.next prev (k.next t)) t none
      runHead := if prev = none then k.next t else k.runHead
      runTail := if k.runTail = some t then prev else k.runTail } := by
  unfold schedRemoveFrom
  rw [if_pos rfl]
  cases prev with
  | none =>
    by_cases isTail : k.runTail = some t
    · simp [Kernel.setNext, setAt, isTail]
    · simp [Kernel.setNext, setAt, isTail]
  | some p =>
    by_cases isTail : k.runTail = some t
    · simp [Kernel.setNext, setAt, isTail]
    · simp [Kernel.setNext, setAt, isTail]

variable {t : Addr} {l r : List Addr} {k : Kernel} {a : Sched}

theorem Rep.schedRemoveFrom (rep : Rep k a) (run : a.run = l ++ r) (behind : t ∉ l) (fuel : Nat)
    (enough : r.length < fuel) :
    ∃ after, schedRemoveFrom t fuel l.getLast? r.head? k = some after ∧
      Rep after { a with run := a.run.erase t } := by
  induction fuel, r, enough using walk_induction generalizing l with
  | nil fuel =>
    have absent : t ∉ a.run := by simpa [run] using behind
    rw [List.erase_of_not_mem absent]
    exact ⟨k, rfl, rep⟩
  | cons fuel x r _ ih =>
    have fifo := rep.run
    rw [run] at fifo
    rw [List.head?_cons]
    by_cases here : x = t
    · subst here
      have erased : a.run.erase x = l ++ r := by
        rw [run, List.erase_append_right _ behind, List.erase_cons_head]
      rw [schedRemoveFrom_hit, erased]
      exact ⟨_, rfl, { rep with run := fifo.remove }⟩
    · unfold Thread.schedRemoveFrom
      rw [if_neg here, fifo.stack.next_eq]
      have next := ih (l := l ++ [x]) (by simpa using run) (by simpa [Ne.symm here] using behind)
      simpa using next

theorem Rep.schedRemove (rep : Rep k a) (t : Addr) :
    ∃ after, schedRemove t k = some after ∧ Rep after { a with run := a.run.erase t } := by
  unfold Thread.schedRemove
  rw [rep.run.first]
  exact rep.schedRemoveFrom (l := []) rfl (by simp) walkLimit (length_lt_walkLimit rep.run.stack.nodup)

theorem threadListRemoveFrom_hit (t : Addr) (fuel : Nat) (prev : Option Addr) (k : Kernel) :
    threadListRemoveFrom t (fuel + 1) prev (some t) k = some { k with
      allNext := update (setAt k.allNext prev (k.allNext t)) t none
      allThreads := if prev = none then k.allNext t else k.allThreads } := by
  unfold threadListRemoveFrom
  rw [if_pos rfl]
  cases prev <;> simp [Kernel.setAllNext, setAt]

theorem Rep.listRemoveFrom (rep : Rep k a) (all : a.all = l ++ r) (behind : t ∉ l) (fuel : Nat)
    (enough : r.length < fuel) :
    ∃ after, threadListRemoveFrom t fuel l.getLast? r.head? k = some after ∧
      Rep after { a with all := a.all.erase t } := by
  induction fuel, r, enough using walk_induction generalizing l with
  | nil fuel =>
    have absent : t ∉ a.all := by simpa [all] using behind
    rw [List.erase_of_not_mem absent]
    exact ⟨k, rfl, rep⟩
  | cons fuel x r _ ih =>
    have stack := rep.all
    rw [all] at stack
    rw [List.head?_cons]
    by_cases here : x = t
    · subst here
      have erased : a.all.erase x = l ++ r := by
        rw [all, List.erase_append_right _ behind, List.erase_cons_head]
      rw [threadListRemoveFrom_hit, erased]
      exact ⟨_, rfl, { rep with all := stack.remove }⟩
    · unfold threadListRemoveFrom
      rw [if_neg here, stack.next_eq]
      have next := ih (l := l ++ [x]) (by simpa using all) (by simpa [Ne.symm here] using behind)
      simpa using next

theorem Rep.listRemove (rep : Rep k a) (t : Addr) :
    ∃ after, threadListRemove t k = some after ∧ Rep after { a with all := a.all.erase t } := by
  unfold threadListRemove
  rw [rep.all.first]
  exact rep.listRemoveFrom (l := []) rfl (by simp) walkLimit (length_lt_walkLimit rep.all.nodup)

section Stop

variable (rep : Rep k a)
include rep

theorem Rep.findFrom (tid : Int) (all : a.all = l ++ r) (fuel : Nat) (enough : r.length < fuel) :
    findByTidFrom tid k fuel r.head? = some (r.find? fun t => a.tid t = tid) := by
  induction fuel, r, enough using walk_induction generalizing l with
  | nil fuel => rfl
  | cons fuel x r _ ih =>
    have stack := rep.all
    rw [all] at stack
    rw [List.head?_cons, List.find?_cons]
    unfold findByTidFrom
    rw [rep.tid, stack.next_eq]
    by_cases here : a.tid x = tid
    · simp [here]
    · simpa [here] using ih (l := l ++ [x]) (by simpa using all)

theorem Rep.find (tid : Int) : threadFindByTid tid k = some (a.all.find? fun t => a.tid t = tid) := by
  unfold threadFindByTid
  rw [rep.all.first]
  exact rep.findFrom tid (l := []) rfl walkLimit (length_lt_walkLimit rep.all.nodup)

theorem Rep.makeZombie (alive : t ∉ a.zombies) (status : Int) : Rep (makeZombie t status k) (a.bury t) :=
  { rep with
    state := by simp only [Thread.makeZombie, Sched.bury, rep.state]
    zombies := rep.zombies.push alive }

theorem Rep.isCurrent (t : Addr) : threadCurrent k = some t ↔ t = a.current := by
  unfold threadCurrent
  rw [rep.current]
  simp [eq_comm]

theorem Rep.markCurrentZombie (ok : SchedOk a) (status : Int) :
    ∃ after, threadMarkCurrentZombie status k = some after ∧ Rep after (a.stop a.current) := by
  have entered : threadCurrent k = some a.current := rep.current
  unfold threadMarkCurrentZombie Sched.stop
  rw [entered]
  simp only [rep.idle, rep.state]
  split
  · exact ⟨k, rfl, rep⟩
  next alive =>
    obtain ⟨cancelled, cancels, after⟩ := rep.cancel ok.wait a.current
    have fresh : a.current ∉ a.zombies := fun dead => alive (Or.inr ((ok.queues.mem_zombies _).mp dead).2)
    rw [cancels, List.erase_of_not_mem ok.current_not_run]
    exact ⟨_, rfl, after.makeZombie fresh status⟩

theorem Rep.stopTid (ok : SchedOk a) (tid status : Int) :
    ∃ after, threadStopTid tid status k = some ((a.stopTid tid).1, after) ∧ Rep after (a.stopTid tid).2 := by
  unfold threadStopTid Sched.stopTid
  rw [rep.find]
  simp only [Option.bind_eq_bind, Option.bind_some]
  cases found : a.all.find? fun t => a.tid t = tid with
  | none => exact ⟨k, rfl, rep⟩
  | some t =>
    simp only [rep.isCurrent]
    rw [rep.idle, rep.state]
    by_cases idle : a.idle t = true
    · simp only [idle]
      exact ⟨k, rfl, rep⟩
    · simp only [idle]
      by_cases isCurrent : t = a.current
      · subst isCurrent
        obtain ⟨after, marks, dead⟩ := rep.markCurrentZombie ok status
        exact ⟨after, by simp [marks], dead⟩
      · by_cases dead : a.state t = .zombie
        · have same : a.stop t = a := by simp [Sched.stop, dead]
          exact ⟨k, by simp [isCurrent, dead], by simpa [same] using rep⟩
        · obtain ⟨removed, removes, dequeued⟩ := rep.schedRemove t
          obtain ⟨cancelled, cancels, unregistered⟩ := dequeued.cancel ok.wait t
          have fresh : t ∉ a.zombies := fun zombie => dead ((ok.queues.mem_zombies t).mp zombie).2
          refine ⟨Thread.makeZombie t status cancelled, by simp [isCurrent, dead, removes, cancels], ?_⟩
          have buried := unregistered.makeZombie fresh status
          simpa [Sched.stop, idle, dead] using buried

end Stop

theorem Rep.stopProcessFrom (tgid status : Int) (rep : Rep k a) (ok : SchedOk a) (all : a.all = l ++ r)
    (found : Bool) (fuel : Nat) (enough : r.length < fuel) :
    ∃ after, stopProcessFrom tgid status fuel r.head? found k =
        some (found || r.any fun t => a.kind t = .user ∧ a.tgid t = tgid, after) ∧
      Rep after (a.stopEach tgid r) := by
  induction fuel, r, enough using walk_induction generalizing k a l found with
  | nil fuel => exact ⟨k, by simp [Thread.stopProcessFrom], rep⟩
  | cons fuel t r _ ih =>
    have member : t ∈ a.all := by simp [all]
    rw [List.head?_cons]
    unfold Thread.stopProcessFrom Sched.stopEach
    simp only [rep.kind, rep.tgid, rep.tid]
    by_cases inGroup : a.kind t = .user ∧ a.tgid t = tgid
    · obtain ⟨stopped, stops, after⟩ := rep.stopTid ok (a.tid t) status
      rw [ok.stopTid_self member] at after
      obtain ⟨sameAll, -, sameTgid, sameKind, -⟩ := a.stop_table t
      have stack := after.all
      rw [sameAll, all] at stack
      obtain ⟨final, rest, done⟩ := ih after (ok.stop member) (l := l ++ [t]) (by simpa [sameAll] using all) true
      refine ⟨final, ?_, by simpa [inGroup] using done⟩
      rw [if_pos inGroup, stops]
      simp only [Option.bind_eq_bind, Option.bind_some]
      rw [stack.next_eq, rest]
      simp [inGroup]
    · have stack := rep.all
      rw [all] at stack
      obtain ⟨final, rest, done⟩ := ih rep ok (l := l ++ [t]) (by simpa using all) found
      refine ⟨final, ?_, by simpa [inGroup] using done⟩
      rw [if_neg inGroup, stack.next_eq, rest, List.any_cons, decide_eq_false inGroup, Bool.false_or]

theorem Rep.stopProcess (rep : Rep k a) (ok : SchedOk a) (tgid status : Int) :
    ∃ after, threadStopProcess tgid status k = some ((a.stopProcess tgid).1, after) ∧
      Rep after (a.stopProcess tgid).2 := by
  obtain ⟨after, stops, done⟩ := rep.stopProcessFrom tgid status ok (l := []) rfl false walkLimit
    (length_lt_walkLimit rep.all.nodup)
  unfold threadStopProcess
  rw [rep.all.first, stops]
  exact ⟨after, by simp [Sched.stopProcess], done⟩

structure SameBlocks (k k' : Kernel) : Prop where
  kind : k'.kind = k.kind
  isIdle : k'.isIdle = k.isIdle
  kstackBase : k'.kstackBase = k.kstackBase
  userStackBase : k'.userStackBase = k.userStackBase

theorem SameBlocks.trans {l m : Kernel} (first : SameBlocks k l) (second : SameBlocks l m) : SameBlocks k m :=
  ⟨second.kind.trans first.kind, second.isIdle.trans first.isIdle, second.kstackBase.trans first.kstackBase,
    second.userStackBase.trans first.userStackBase⟩

theorem SameBlocks.blocksOf {k' : Kernel} (same : SameBlocks k k') (z : Addr) : blocksOf z k' = blocksOf z k := by
  simp only [Thread.blocksOf, same.kind, same.kstackBase, same.userStackBase]

theorem threadListRemoveFrom_blocks {target : Addr} {fuel : Nat} {prev cur : Option Addr} {after : Kernel}
    (removes : threadListRemoveFrom target fuel prev cur k = some after) : SameBlocks k after := by
  fun_induction threadListRemoveFrom target fuel prev cur k with
  | case1 => simp at removes
  | case2 =>
    cases removes
    exact ⟨rfl, rfl, rfl, rfl⟩
  | case3 fuel prev k unlinked =>
    cases removes
    cases prev <;> exact ⟨rfl, rfl, rfl, rfl⟩
  | case4 fuel prev cur k other ih => exact ih removes

theorem Rep.reapFrom (rep : Rep k a) (ok : SchedOk a) (freed : List UInt64) (fuel : Nat)
    (enough : a.zombies.length < fuel) :
    ∃ after, reapFrom fuel freed k =
        some (freed ++ (a.zombies.takeWhile (· ≠ a.current)).flatMap (fun z => blocksOf z k), after) ∧
      Rep after (a.reapList a.zombies) ∧ SameBlocks k after := by
  induction fuel generalizing k a freed with
  | zero => simp at enough
  | succ fuel ih =>
    unfold Thread.reapFrom
    rw [rep.zombies.first]
    cases zombies : a.zombies with
    | nil => exact ⟨k, by simp, rep, ⟨rfl, rfl, rfl, rfl⟩⟩
    | cons z rest =>
      rw [List.head?_cons]
      simp only [rep.isCurrent, Sched.reapList]
      by_cases isCurrent : z = a.current
      · rw [if_pos isCurrent, if_pos isCurrent]
        exact ⟨k, by simp [isCurrent], rep, ⟨rfl, rfl, rfl, rfl⟩⟩
      · rw [if_neg isCurrent, if_neg isCurrent]
        obtain ⟨member, dead⟩ := (ok.queues.mem_zombies z).mp (by simp [zombies])
        have worker : k.isIdle z ≠ true := by
          rw [rep.idle]
          exact fun idle => ok.sleep.idle_live z member idle dead
        have stack := rep.zombies
        rw [zombies] at stack
        have popped : Rep { k with zombieHead := k.znext z } { a with zombies := rest } :=
          { rep with zombies := stack.pop }
        obtain ⟨removed, removes, gone⟩ := popped.listRemove z
        have reaped : Rep removed (a.reapHead z rest) := gone
        have listed := threadListRemoveFrom_blocks removes
        have same : SameBlocks k removed := ⟨listed.kind, listed.isIdle, listed.kstackBase, listed.userStackBase⟩
        obtain ⟨after, rest', done, kept⟩ := ih reaped (ok.reapHead zombies isCurrent) (freed ++ blocksOf z removed)
          (by simpa [Sched.reapHead, zombies] using enough)
        refine ⟨after, ?_, done, same.trans kept⟩
        rw [if_neg worker, removes]
        have left : (a.reapHead z rest).zombies.takeWhile (· ≠ (a.reapHead z rest).current) =
            rest.takeWhile (· ≠ a.current) := rfl
        simp only [Option.bind_eq_bind, Option.bind_some, rest', left]
        rw [List.takeWhile_cons_of_pos (by simpa using isCurrent)]
        simp only [same.blocksOf, List.flatMap_cons, List.append_assoc]

theorem Rep.reap (rep : Rep k a) (ok : SchedOk a) :
    ∃ after, threadReapZombies k =
        some ((a.zombies.takeWhile (· ≠ a.current)).flatMap (fun z => blocksOf z k), after) ∧
      Rep after a.reap ∧ SameBlocks k after :=
  rep.reapFrom ok [] walkLimit (length_lt_walkLimit ok.queues.zombies_nodup)

-- A number is used up even if memory runs out afterwards.
def Sched.alloc (grants : Grants) (a : Sched) : Option Addr × Sched :=
  if a.nextTid ≤ int32Max then
    let numbered := { a with nextTid := a.nextTid + 1 }
    match grants.task with
    | none => (none, numbered)
    | some t =>
      if grants.kstack = 0 then (none, numbered.write t 0 0 .kernel .running)
      else (some t, numbered.write t a.nextTid a.nextTid .kernel .new)
  else (none, a)

def Sched.create (kind : ThreadKind) (group : Option Int) (grants : Grants) (a : Sched) : Int × Sched :=
  match a.alloc grants with
  | (none, after) => (-1, after)
  | (some t, after) =>
    (a.nextTid, (after.write t a.nextTid (group.getD a.nextTid) kind .new).publish t)

def Grants.FreshFor (grants : Grants) (a : Sched) : Prop := ∀ t, grants.task = some t → t ∉ a.all

variable {after : Sched} {grants : Grants}

theorem Sched.alloc_some (allocated : a.alloc grants = (some t, after)) :
    grants.task = some t ∧
      after = ({ a with nextTid := a.nextTid + 1 } : Sched).write t a.nextTid a.nextTid .kernel .new := by
  unfold Sched.alloc at allocated
  split at allocated
  · split at allocated
    · simp at allocated
    next u task =>
      split at allocated
      · simp at allocated
      · simp only [Prod.mk.injEq, Option.some.injEq] at allocated
        obtain ⟨rfl, rfl⟩ := allocated
        exact ⟨task, rfl⟩
  · simp at allocated

theorem Sched.create_cases (kind : ThreadKind) (group : Option Int) (grants : Grants) (a : Sched) :
    (∃ n, (a.create kind group grants).2 = { a with nextTid := n }) ∨
      ∃ t, grants.task = some t ∧
        ((a.create kind group grants).2 = ({ a with nextTid := a.nextTid + 1 } : Sched).write t 0 0 .kernel .running ∨
          (a.create kind group grants).2 =
            ((({ a with nextTid := a.nextTid + 1 } : Sched).write t a.nextTid a.nextTid .kernel .new).write t a.nextTid
              (group.getD a.nextTid) kind .new).publish t) := by
  unfold Sched.create
  split
  next after failed =>
    unfold Sched.alloc at failed
    split at failed
    · dsimp only at failed
      split at failed
      · obtain rfl := (Prod.mk.inj failed).2
        exact .inl ⟨_, rfl⟩
      next t task =>
        split at failed
        · obtain rfl := (Prod.mk.inj failed).2
          exact .inr ⟨t, task, .inl rfl⟩
        · cases (Prod.mk.inj failed).1
    · obtain rfl := (Prod.mk.inj failed).2
      exact .inl ⟨_, rfl⟩
  next t after allocated =>
    obtain ⟨task, rfl⟩ := Sched.alloc_some allocated
    exact .inr ⟨t, task, .inr rfl⟩

theorem SchedOk.alloc (ok : SchedOk a) (fresh : grants.FreshFor a) :
    SchedOk (a.alloc grants).2 := by
  unfold Sched.alloc
  split
  · split
    · exact ok.skipTid
    next t task =>
      split
      · exact ok.skipTid.write (fresh t task) _ _ _ _
      · exact ok.skipTid.write (fresh t task) _ _ _ _
  · exact ok

theorem SchedOk.create (ok : SchedOk a) (fresh : grants.FreshFor a) (kind : ThreadKind) (group : Option Int) :
    SchedOk (a.create kind group grants).2 := by
  have allocated := ok.alloc fresh
  unfold Sched.create
  split
  next after result =>
    rw [result] at allocated
    exact allocated
  next t after result =>
    obtain ⟨task, rfl⟩ := Sched.alloc_some result
    have absent := fresh t task
    rw [result] at allocated
    refine (allocated.write absent _ _ _ _).publish absent (by simp [Sched.write]) (fun u inAll => ?_)
      (by simp [Sched.write])
    have other : u ≠ t := fun same => absent (same ▸ inAll)
    simpa [Sched.write, other] using (ok.table.tid_bound u inAll).2

section Create

variable (rep : Rep k a)
include rep

theorem Rep.clearThread (ok : SchedOk a) (fresh : t ∉ a.all) :
    Rep (clearThread t k) (a.write t 0 0 .kernel .running) := by
  have off : t ∉ a.run := fun inRun => fresh ((ok.queues.mem_run t).mp inRun).1
  have alive : t ∉ a.zombies := fun dead => fresh ((ok.queues.mem_zombies t).mp dead).1
  have unregistered : a.regs t = [] := by
    by_contra registered
    exact fresh (ok.sleep.regs_live t registered).1
  have run := rep.run.stack.forget off none
  have heads : update k.waitEntries t none = k.waitEntries := by
    have first := rep.regs.first t
    rw [unregistered, List.head?_nil] at first
    rw [← first, update_eq_self]
  exact { rep with
    run := ⟨run.chain, run.first, rep.run.last⟩
    zombies := rep.zombies.forget alive none
    all := rep.all.forget fresh none
    regs := by
      show Family (taskLinks k) (update k.waitEntries t none) a.regs
      rw [heads]
      exact rep.regs
    tid := by simp only [Thread.clearThread, Sched.write, rep.tid]
    tgid := by simp only [Thread.clearThread, Sched.write, rep.tgid]
    kind := by simp only [Thread.clearThread, Sched.write, rep.kind]
    state := by simp only [Thread.clearThread, Sched.write, rep.state]
    idle := by simp only [Thread.clearThread, Sched.write, rep.idle] }

theorem Rep.alloc (ok : SchedOk a) (fresh : grants.FreshFor a) :
    ∃ freed after, threadAlloc grants k = ((a.alloc grants).1, freed, after) ∧ Rep after (a.alloc grants).2 := by
  unfold threadAlloc threadNextTid Sched.alloc
  rw [rep.next_tid]
  by_cases left : a.nextTid ≤ int32Max
  · have numbered : Rep { k with nextTid := a.nextTid + 1 } { a with nextTid := a.nextTid + 1 } :=
      { rep with next_tid := rfl }
    have positive : ¬ (a.nextTid : Int) < 0 := by omega
    rw [if_pos left, if_pos left]
    dsimp only
    rw [if_neg positive]
    cases task : grants.task with
    | none => exact ⟨[], _, rfl, numbered⟩
    | some t =>
      have cleared := numbered.clearThread ok.skipTid (fresh t task)
      dsimp only
      split
      · exact ⟨[t], _, rfl, cleared⟩
      · refine ⟨[], _, rfl, ?_⟩
        exact { cleared with
          tid := by simp [Thread.clearThread, Sched.write, rep.tid]
          tgid := by simp [Thread.clearThread, Sched.write, rep.tgid]
          state := by simp [Thread.clearThread, Sched.write, rep.state] }
  · rw [if_neg left, if_neg left]
    exact ⟨[], k, rfl, rep⟩

theorem Rep.publish (ok : SchedOk a) (fresh : t ∉ a.all) (new : a.state t = .new) :
    Rep (threadPublish t k) (a.publish t) := by
  have off : t ∉ a.run := fun inRun => fresh ((ok.queues.mem_run t).mp inRun).1
  have listed : Rep (threadListAdd t (k.setState t .runnable)) { a with
      all := t :: a.all
      state := update a.state t .runnable } :=
    { rep.setState t .runnable with all := rep.all.push fresh }
  unfold threadPublish
  rw [rep.state, if_pos new]
  exact listed.enqueue off

end Create

theorem schedEnqueue_ids (t : Addr) (k : Kernel) :
    (schedEnqueue t k).tid = k.tid ∧ (schedEnqueue t k).tgid = k.tgid := by
  unfold schedEnqueue
  cases tail : k.runTail <;> simp [Kernel.setNext, tail]

theorem threadPublish_ids (t : Addr) (k : Kernel) :
    (threadPublish t k).tid = k.tid ∧ (threadPublish t k).tgid = k.tgid := by
  unfold threadPublish
  split
  · exact schedEnqueue_ids t _
  · exact ⟨rfl, rfl⟩

def Created (a : Sched) (kind : ThreadKind) (group : Option Int) (grants : Grants) (ret : Int) (k : Kernel) : Prop :=
  (ret = -1 ∧ Rep k a) ∨ (ret = (a.create kind group grants).1 ∧ Rep k (a.create kind group grants).2)

theorem Created.failed (none : (a.alloc grants).1 = none) (rep : Rep k (a.alloc grants).2) (kind : ThreadKind)
    (group : Option Int) : Created a kind group grants (-1) k := by
  right
  unfold Sched.create
  split
  next after result =>
    rw [result] at rep
    exact ⟨rfl, rep⟩
  next t after result => simp [result] at none

theorem Created.published (ok : SchedOk a) (fresh : grants.FreshFor a)
    (allocated : a.alloc grants = (some t, after)) (kind : ThreadKind) (group : Option Int)
    (rep : Rep k (after.write t a.nextTid (group.getD a.nextTid) kind .new)) :
    Created a kind group grants ((threadPublish t k).tid t) (threadPublish t k) := by
  obtain ⟨task, -⟩ := Sched.alloc_some allocated
  have okAfter := ok.alloc fresh
  have absent : t ∉ after.all := by
    obtain ⟨-, rfl⟩ := Sched.alloc_some allocated
    exact fresh t task
  rw [allocated] at okAfter
  have published := rep.publish (okAfter.write absent _ _ _ _) absent (by simp [Sched.write])
  have result : a.create kind group grants =
      ((a.nextTid : Int), (after.write t a.nextTid (group.getD a.nextTid) kind .new).publish t) := by
    unfold Sched.create
    rw [allocated]
  right
  rw [result]
  refine ⟨?_, published⟩
  rw [published.tid]
  simp [Sched.publish, Sched.write]

theorem Created.forked (ok : SchedOk a) (fresh : grants.FreshFor a) (allocated : a.alloc grants = (some t, after))
    (rep : Rep k (after.write t a.nextTid a.nextTid .user .new)) (context : Option TrapContext) :
    Created a .user none grants ((threadPublish t { k with tc := update k.tc t context }).tgid t)
      (threadPublish t { k with tc := update k.tc t context }) := by
  have ready : Rep { k with tc := update k.tc t context } (after.write t a.nextTid a.nextTid .user .new) :=
    { rep with }
  have leader : k.tgid t = k.tid t := by
    rw [rep.tgid, rep.tid]
    simp [Sched.write]
  have published := Created.published ok fresh allocated .user none ready
  rw [(threadPublish_ids t _).1] at published
  rw [(threadPublish_ids t _).2]
  dsimp only at published ⊢
  rw [leader]
  exact published

theorem Rep.groupSizeFrom (rep : Rep k a) (tgid : Int) (all : a.all = l ++ r) (count fuel : Nat)
    (enough : r.length < fuel) :
    groupSizeFrom tgid k fuel r.head? count =
      some (count + r.countP fun t => a.kind t = .user ∧ a.tgid t = tgid ∧ a.state t ≠ .zombie) := by
  induction fuel, r, enough using walk_induction generalizing l count with
  | nil fuel => rfl
  | cons fuel t r _ ih =>
    have stack := rep.all
    rw [all] at stack
    have rest := fun n => ih (l := l ++ [t]) (by simpa using all) n
    rw [List.head?_cons, List.countP_cons]
    unfold Thread.groupSizeFrom
    rw [rep.kind, rep.tgid, rep.state, stack.next_eq, rest, rest]
    split
    next counted => simp [counted, Nat.add_assoc, Nat.add_comm 1]
    next other => rw [decide_eq_false other]; rfl

theorem Rep.groupSize (rep : Rep k a) (user : a.kind t = .user) :
    threadUserGroupSize t k =
      some (a.all.countP fun u => a.kind u = .user ∧ a.tgid u = a.tgid t ∧ a.state u ≠ .zombie) := by
  unfold threadUserGroupSize
  rw [rep.kind, if_pos user, rep.tgid, rep.all.first]
  simpa using rep.groupSizeFrom (a.tgid t) (l := []) rfl 0 walkLimit (length_lt_walkLimit rep.all.nodup)

section Creators

variable (rep : Rep k a) (ok : SchedOk a) (fresh : grants.FreshFor a)
include rep ok fresh

theorem Rep.createKernel (entry : UInt64) :
    Created a .kernel none grants (threadCreateKernel entry grants k).ret
      (threadCreateKernel entry grants k).kernel := by
  obtain ⟨freed, after, allocs, allocated⟩ := rep.alloc ok fresh
  unfold threadCreateKernel
  split
  · exact Or.inl ⟨rfl, rep⟩
  · rw [allocs]
    cases result : a.alloc grants with
    | mk task dressed =>
      cases task with
      | none => exact Created.failed (by rw [result]) allocated .kernel none
      | some t =>
        rw [result] at allocated
        obtain ⟨-, rfl⟩ := Sched.alloc_some result
        refine Created.published ok fresh result .kernel none ?_
        exact { allocated with
          tid := by simpa [Sched.write] using allocated.tid
          tgid := by simpa [Sched.write] using allocated.tgid
          kind := by simp [Sched.write, allocated.kind]
          state := by simpa [Sched.write] using allocated.state
          idle := by simpa [Sched.write] using allocated.idle }

theorem Rep.prepareUser (board : Board) (entry stackBase stackTop : UInt64) :
    (∃ freed after, threadPrepareUser board entry stackBase stackTop grants k = (none, freed, after) ∧
        ∀ group, Created a .user group grants (-1) after) ∨
      ∃ t freed after dressed, threadPrepareUser board entry stackBase stackTop grants k = (some t, freed, after) ∧
        a.alloc grants = (some t, dressed) ∧ Rep after (dressed.write t a.nextTid a.nextTid .user .new) := by
  obtain ⟨freed, after, allocs, allocated⟩ := rep.alloc ok fresh
  unfold threadPrepareUser
  split
  · exact Or.inl ⟨[], k, rfl, fun _ => Or.inl ⟨rfl, rep⟩⟩
  · rw [allocs]
    cases result : a.alloc grants with
    | mk task dressed =>
      cases task with
      | none => exact Or.inl ⟨freed, after, rfl, fun group => Created.failed (by rw [result]) allocated .user group⟩
      | some t =>
        rw [result] at allocated
        obtain ⟨-, rfl⟩ := Sched.alloc_some result
        refine Or.inr ⟨t, freed, _, _, rfl, rfl, ?_⟩
        exact { allocated with
          tid := by simpa [Sched.write] using allocated.tid
          tgid := by simpa [Sched.write] using allocated.tgid
          kind := by simp [Sched.write, allocated.kind]
          state := by simpa [Sched.write] using allocated.state
          idle := by simpa [Sched.write] using allocated.idle }

theorem Rep.createProcess (board : Board) (entry stackBase stackTop : UInt64) :
    Created a .user none grants (userProcessCreate board entry stackBase stackTop grants k).ret
      (userProcessCreate board entry stackBase stackTop grants k).kernel := by
  unfold userProcessCreate
  obtain ⟨freed, after, prepares, failed⟩ | ⟨t, freed, after, dressed, prepares, allocated, ready⟩ :=
    rep.prepareUser ok fresh board entry stackBase stackTop
  · rw [prepares]
    exact failed none
  · rw [prepares]
    exact Created.published ok fresh allocated .user none ready

theorem Rep.createUser (board : Board) (entry arg returnPc stack : UInt64) :
    Created a .user (some (a.tgid a.current)) grants (threadCreateUser board entry arg returnPc stack grants k).ret
      (threadCreateUser board entry arg returnPc stack grants k).kernel := by
  have entered : threadCurrent k = some a.current := rep.current
  unfold threadCreateUser
  rw [entered]
  dsimp only
  split
  · exact Or.inl ⟨rfl, rep⟩
  · split
    · exact Or.inl ⟨rfl, rep⟩
    · obtain ⟨freed, after, prepares, failed⟩ | ⟨t, freed, after, dressed, prepares, allocated, ready⟩ :=
        rep.prepareUser ok fresh board entry stack (stack + userStackSize)
      · rw [prepares]
        exact failed _
      · rw [prepares]
        obtain ⟨task, rfl⟩ := Sched.alloc_some allocated
        have other : a.current ≠ t := fun same => fresh t task (same ▸ ok.current.member)
        have group : after.tgid a.current = a.tgid a.current := by
          rw [ready.tgid]
          simp [Sched.write, other]
        refine Created.published ok fresh allocated .user _ ?_
        exact { ready with
          tgid := by simp [Sched.write, ready.tgid, group] }

theorem Rep.fork (board : Board) (parentTc : TrapContext) (stack : UInt64) (mem : ByteMemory.Mem) :
    ∃ out, sysFork board parentTc stack grants mem k = some out ∧
      Created a .user none grants out.ret out.kernel := by
  have entered : threadCurrent k = some a.current := rep.current
  unfold sysFork
  rw [entered]
  dsimp only
  by_cases user : k.kind a.current = .user
  · rw [if_neg (not_not.mpr user), rep.groupSize (rep.kind ▸ user)]
    simp only [Option.bind_eq_bind, Option.bind_some]
    split
    · exact ⟨_, rfl, Or.inl ⟨rfl, rep⟩⟩
    · obtain ⟨freed, after, prepares, failed⟩ | ⟨t, freed, after, dressed, prepares, allocated, ready⟩ :=
        rep.prepareUser ok fresh board (k.userEntry a.current) stack ((stack + userStackSize) &&& 0xFFFFFFFFFFFFFFF0)
      · rw [prepares]
        exact ⟨_, rfl, failed none⟩
      · rw [prepares]
        exact ⟨_, rfl, Created.forked ok fresh allocated ready _⟩
  · rw [if_pos user]
    exact ⟨_, rfl, Or.inl ⟨rfl, rep⟩⟩

end Creators

end OrangeKernel.Thread
