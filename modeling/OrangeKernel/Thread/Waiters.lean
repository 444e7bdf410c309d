import OrangeKernel.Thread.Rep

set_option autoImplicit false

namespace OrangeKernel.Thread

open Function Intrusive

theorem unlinkQueue_eq (q e : Addr) (k : Kernel) :
    unlinkQueue q e k = { k with
      entryNext := setAt k.entryNext (k.entryPrev e) (k.entryNext e)
      entryPrev := setAt k.entryPrev (k.entryNext e) (k.entryPrev e)
      queueHead := if k.entryPrev e = none then update k.queueHead q (k.entryNext e) else k.queueHead
      queueTail := if k.entryNext e = none then update k.queueTail q (k.entryPrev e) else k.queueTail } := by
  -- the first write leaves `next` of the entry as it was, even if the entry points to itself
  unfold unlinkQueue
  cases prev : k.entryPrev e <;> cases next : k.entryNext e <;>
    simp [next, prev, setAt, update_apply]

theorem unlinkTask_eq (t e : Addr) (k : Kernel) :
    unlinkTask t e k = { k with
      taskNext := setAt k.taskNext (k.taskPrev e) (k.taskNext e)
      taskPrev := setAt k.taskPrev (k.taskNext e) (k.taskPrev e)
      waitEntries := if k.taskPrev e = none then update k.waitEntries t (k.taskNext e) else k.waitEntries } := by
  unfold unlinkTask
  cases prev : k.taskPrev e <;> cases next : k.taskNext e <;>
    simp [next, prev, setAt, update_apply]

variable {q e t : Addr}

section Registration

variable {k : Kernel} {a : Sched} (rep : Rep k a)
include rep

theorem Rep.linkQueue (absent : ∀ p, e ∉ a.queued p) :
    Rep (linkQueue q e k) { a with queued := update a.queued q (a.queued q ++ [e]) } := by
  have pushed := rep.queued.pushBack q absent
  rw [← rep.tails q] at pushed
  have tails : ∀ p, update k.queueTail q (some e) p =
      (update a.queued q (a.queued q ++ [e]) p).getLast? := by
    intro p
    by_cases here : p = q
    · simp [here]
    · simp [here, rep.tails p]
  unfold Thread.linkQueue
  cases tail : k.queueTail q with
  | none =>
    rw [tail] at pushed
    exact { rep with queued := pushed, tails := tails }
  | some last =>
    rw [tail] at pushed
    exact { rep with queued := pushed, tails := tails }

theorem Rep.linkTask (absent : ∀ u, e ∉ a.regs u) :
    Rep (linkTask t e k) { a with regs := update a.regs t (e :: a.regs t) } := by
  have pushed := rep.regs.pushFront t absent
  unfold Thread.linkTask
  cases first : k.waitEntries t with
  | none =>
    rw [first] at pushed
    exact { rep with regs := pushed }
  | some other =>
    rw [first] at pushed
    exact { rep with regs := pushed }

theorem Rep.prepare (wait : WaitOk a.queued a.regs a.owner a.place) (flags : LocalFlags) (queue entry : Option Addr) :
    ∃ after, waitQueuePrepareLocked flags queue entry k = ((a.prepareLocked flags queue entry).1, after) ∧
      Rep after (a.prepareLocked flags queue entry).2 := by
  have entered : threadCurrent k = some a.current := rep.current
  unfold waitQueuePrepareLocked Sched.prepareLocked
  rw [entered]
  cases queue with
  | none => exact ⟨k, rfl, rep⟩
  | some q =>
    cases entry with
    | none => exact ⟨k, rfl, rep⟩
    | some e =>
      -- both `task` and `queue` of the entry are null or neither is
      have refused : (flags.irqsEnabled ∨ flags.bottomHalf ∨ k.isIdle a.current ∨
          (k.state a.current ≠ .running ∧ k.state a.current ≠ .waiting) ∨ k.task e ≠ none ∨
          k.queue e ≠ none) ↔
          (flags.irqsEnabled ∨ flags.bottomHalf ∨ a.idle a.current ∨
          (a.state a.current ≠ .running ∧ a.state a.current ≠ .waiting) ∨ a.owner e ≠ none) := by
        have linked := wait.linked e
        rw [rep.idle, rep.state, rep.owner, rep.place]
        grind
      by_cases fails : flags.irqsEnabled ∨ flags.bottomHalf ∨ a.idle a.current ∨
          (a.state a.current ≠ .running ∧ a.state a.current ≠ .waiting) ∨ a.owner e ≠ none
      · dsimp only
        rw [if_pos (refused.mpr fails), if_pos fails]
        exact ⟨k, rfl, rep⟩
      · dsimp only
        rw [if_neg (mt refused.mp fails), if_neg fails]
        have free : a.owner e = none := by
          simp only [not_or, not_not] at fails
          exact fails.2.2.2.2
        have unplaced := (wait.linked e).mpr free
        have unqueued : ∀ p, e ∉ a.queued p := fun p => by simp [wait.mem_queued, unplaced]
        have unowned : ∀ u, e ∉ a.regs u := fun u => by simp [wait.mem_regs, free]
        have registered : Rep { k with
            task := update k.task e (some a.current)
            queue := update k.queue e (some q) } { a with
            owner := update a.owner e (some a.current)
            place := update a.place e (some q) } :=
          { rep with
            owner := by rw [rep.owner]
            place := by rw [rep.place] }
        exact ⟨_, rfl, ((registered.linkQueue unqueued).linkTask unowned).setState a.current .waiting⟩

theorem Rep.detach (wait : WaitOk a.queued a.regs a.owner a.place) (owned : a.owner e = some t)
    (placed : a.place e = some q) :
    Rep (clearEntry e (unlinkTask t e (unlinkQueue q e k))) (a.detach e t q) := by
  have inQueue : e ∈ a.queued q := (wait.mem_queued e q).mpr placed
  have inRegs : e ∈ a.regs t := (wait.mem_regs e t).mpr owned
  have queued := rep.queued.unlink inQueue
  have tails := rep.queued.unlink_last rep.tails inQueue
  have regs := rep.regs.unlink inRegs
  rw [unlinkTask_eq, unlinkQueue_eq]
  exact { rep with
    queued := queued
    tails := tails
    regs := regs
    owner := by simp only [clearEntry, Sched.detach, rep.owner]
    place := by simp only [clearEntry, Sched.detach, rep.place] }

theorem Rep.finish (wait : WaitOk a.queued a.regs a.owner a.place) (e : Addr) :
    ∃ finished, waitQueueFinishLocked e k = some finished ∧ Rep finished (a.finish e) := by
  unfold waitQueueFinishLocked Sched.finish
  cases placed : a.place e with
  | none =>
    have free := (wait.linked e).mp placed
    rw [rep.place, placed, free]
    exact ⟨k, rfl, rep⟩
  | some q =>
    cases owned : a.owner e with
    | none =>
      have unplaced := (wait.linked e).mpr owned
      simp [unplaced] at placed
    | some t =>
      have detached := rep.detach wait owned placed
      have first : (clearEntry e (unlinkTask t e (unlinkQueue q e k))).waitEntries t = none ↔
          (a.detach e t q).regs t = [] := by
        rw [detached.regs.first, List.head?_eq_none_iff]
      have entered : threadCurrent (clearEntry e (unlinkTask t e (unlinkQueue q e k))) = some t ↔ t = a.current := by
        unfold threadCurrent
        rw [detached.current]
        simp [Sched.detach, eq_comm]
      have states : (clearEntry e (unlinkTask t e (unlinkQueue q e k))).state = a.state := detached.state
      simp only [rep.place, placed, rep.owner, owned, Option.bind_eq_bind, Option.bind_some, entered, first, states]
      by_cases wakes : t = a.current ∧ a.state t = .waiting ∧ (a.detach e t q).regs t = []
      · rw [if_pos wakes, if_pos wakes]
        exact ⟨_, rfl, detached.setState t .running⟩
      · rw [if_neg wakes, if_neg wakes]
        exact ⟨_, rfl, detached⟩

end Registration

variable {a : Sched}

theorem Sched.cancel_of_regs_nil (wait : WaitOk a.queued a.regs a.owner a.place) (empty : a.regs t = []) :
    a.cancel t = a := by
  have unowned : ∀ e, a.owner e ≠ some t := fun e owned => by
    simpa [empty] using (wait.mem_regs e t).mpr owned
  have dropped : update a.regs t [] = a.regs := by rw [← empty, update_eq_self]
  simp [Sched.cancel, unowned, empty, dropped]

variable {es : List Addr}

theorem Sched.cancel_finish (wait : WaitOk a.queued a.regs a.owner a.place) (regs : a.regs t = e :: es) :
    (a.finish e).cancel t = a.cancel t := by
  have owned := (wait.mem_regs e t).mp (by simp [regs])
  obtain ⟨q, placed⟩ : ∃ q, a.place e = some q := by
    cases placed : a.place e with
    | none => simp [(wait.linked e).mp placed] at owned
    | some q => exact ⟨q, rfl⟩
  have erased : (a.regs t).erase e = es := by simp [regs]
  have kept : ∀ p, (update a.queued q ((a.queued q).erase e) p).filter
      (fun f => decide (update a.owner e none f ≠ some t)) =
      (a.queued p).filter fun f => decide (a.owner f ≠ some t) := by
    intro p
    by_cases here : p = q
    · subst here
      rw [update_self, (wait.queued_nodup p).erase_eq_filter, List.filter_filter]
      refine List.filter_congr fun f _ => ?_
      by_cases same : f = e
      · simp [same, owned]
      · simp [same]
    · have absent : e ∉ a.queued p := by simp [wait.mem_queued, placed, Ne.symm here]
      rw [update_of_ne here]
      refine List.filter_congr fun f member => ?_
      have other : f ≠ e := fun same => absent (same ▸ member)
      rw [update_of_ne other]
  have dropped : ∀ f, (if update a.owner e none f = some t then none else update a.owner e none f) =
      if a.owner f = some t then none else a.owner f := by
    intro f
    by_cases same : f = e <;> simp [same, owned]
  have removed : ∀ f, (if update a.owner e none f = some t then none else update a.place e none f) =
      if a.owner f = some t then none else a.place f := by
    intro f
    by_cases same : f = e <;> simp [same, owned]
  unfold Sched.finish
  rw [owned, placed]
  dsimp only
  split
  next wakes =>
    -- the last entry: the current thread is awake again already
    refine Sched.ext rfl rfl rfl (funext kept) ?_ (funext dropped) (funext removed) ?_ rfl rfl rfl rfl rfl rfl rfl
    · simp [Sched.cancel, Sched.detach]
    · simp [Sched.cancel, Sched.detach, regs, ← wakes.1, wakes.2.1]
  next more =>
    refine Sched.ext rfl rfl rfl (funext kept) ?_ (funext dropped) (funext removed) ?_ rfl rfl rfl rfl rfl rfl rfl
    · simp [Sched.cancel, Sched.detach]
    · simp only [Sched.detach, update_self, erased] at more
      simp only [Sched.cancel, Sched.detach, regs, update_self]
      have states : (t = a.current ∧ a.state t = .waiting ∧ es ≠ []) ↔
          t = a.current ∧ a.state t = .waiting ∧ e :: es ≠ [] := by
        grind
      simp only [List.erase_cons_head, states]

theorem WaitOk.finish (wait : WaitOk a.queued a.regs a.owner a.place) (e : Addr) :
    WaitOk (a.finish e).queued (a.finish e).regs (a.finish e).owner (a.finish e).place := by
  unfold Sched.finish
  split
  next t q owned placed =>
    dsimp only
    split
    · exact wait.detach owned placed
    · exact wait.detach owned placed
  next => exact wait

theorem Sched.finish_regs (wait : WaitOk a.queued a.regs a.owner a.place) (regs : a.regs t = e :: es) :
    (a.finish e).regs t = es := by
  have owned := (wait.mem_regs e t).mp (by simp [regs])
  unfold Sched.finish
  split
  next u q owner placed =>
    obtain rfl : u = t := by simpa [owned] using owner.symm
    dsimp only
    split <;> simp [Sched.detach, regs]
  next unregistered =>
    cases placed : a.place e with
    | none => simp [(wait.linked e).mp placed] at owned
    | some q => exact absurd placed (unregistered t q owned)

variable {k : Kernel}

theorem Rep.cancelFrom (t : Addr) (fuel : Nat) (rep : Rep k a) (wait : WaitOk a.queued a.regs a.owner a.place)
    (enough : (a.regs t).length < fuel) :
    ∃ cancelled, waitQueueCancelFrom t fuel k = some cancelled ∧ Rep cancelled (a.cancel t) := by
  induction fuel generalizing k a with
  | zero => simp at enough
  | succ fuel ih =>
    unfold waitQueueCancelFrom
    rw [rep.regs.first]
    cases regs : a.regs t with
    | nil =>
      rw [Sched.cancel_of_regs_nil wait regs]
      exact ⟨k, rfl, rep⟩
    | cons e es =>
      obtain ⟨finished, finishes, after⟩ := rep.finish wait e
      have left := Sched.finish_regs wait regs
      obtain ⟨cancelled, cancels, done⟩ := ih after (wait.finish e) (by rw [left]; simpa [regs] using enough)
      rw [Sched.cancel_finish wait regs] at done
      refine ⟨cancelled, ?_, done⟩
      simpa [finishes] using cancels

theorem Rep.cancel (rep : Rep k a) (wait : WaitOk a.queued a.regs a.owner a.place) (t : Addr) :
    ∃ cancelled, waitQueueCancelLocked t k = some cancelled ∧ Rep cancelled (a.cancel t) :=
  rep.cancelFrom t walkLimit wait (length_lt_walkLimit (wait.regs_nodup t))

theorem Rep.wait (rep : Rep k a) (ok : SchedOk a) (flags : LocalFlags) :
    ∃ after, waitQueueWaitLocked flags k = some ((a.waitLocked flags).1, after) ∧
      Rep after (a.waitLocked flags).2 := by
  have entered : threadCurrent k = some a.current := rep.current
  obtain ⟨switched, switches, after⟩ := rep.schedule ok
  unfold waitQueueWaitLocked Sched.waitLocked
  rw [entered, switches]
  simp only [rep.idle, rep.state, rep.regs.first, List.head?_eq_none_iff]
  split
  · exact ⟨k, rfl, rep⟩
  · split
    · exact ⟨switched, rfl, after⟩
    · exact ⟨k, rfl, rep⟩

theorem Rep.sleep (rep : Rep k a) (ok : SchedOk a) (flags : LocalFlags) (queue : Option Addr) (entry : Addr) :
    ∃ after, waitQueueSleepLocked flags queue entry k = some ((a.sleepLocked flags queue entry).1, after) ∧
      Rep after (a.sleepLocked flags queue entry).2 := by
  obtain ⟨prepared, prepares, registered⟩ := rep.prepare ok.wait flags queue (some entry)
  unfold waitQueueSleepLocked Sched.sleepLocked
  rw [prepares]
  dsimp only
  split
  · exact ⟨prepared, rfl, registered⟩
  · exact registered.wait (ok.prepareLocked flags queue (some entry)) flags

variable {l : List Addr}

section Waking

variable (rep : Rep k a) (ok : SchedOk a)
include rep ok

theorem Rep.wakeWaiter (owned : a.owner e = some t) :
    ∃ after, wakeWaiterLocked e k = some (decide (a.state t = .waiting), after) ∧ Rep after (a.wake t) := by
  unfold wakeWaiterLocked Sched.wake
  simp only [rep.owner, owned, rep.state, Option.bind_eq_bind, Option.bind_some]
  have entered : threadCurrent k = some t ↔ t = a.current := by
    unfold threadCurrent
    rw [rep.current]
    simp [eq_comm]
  by_cases asleep : a.state t = .waiting
  · have off : t ∉ a.run := fun inRun => by
      have runnable := ((ok.queues.mem_run t).mp inRun).2.1
      simp [runnable] at asleep
    rw [if_neg (not_not.mpr asleep), if_neg (not_not.mpr asleep)]
    simp only [entered, asleep]
    split
    · exact ⟨_, rfl, rep.setState t .running⟩
    · exact ⟨_, rfl, ((rep.setState t .runnable).enqueue off).needResched true⟩
  · rw [if_pos asleep, if_pos asleep]
    exact ⟨k, by simp [asleep], rep⟩

omit ok in
theorem Rep.entryNext {r : List Addr} (queued : a.queued q = l ++ e :: r) : k.entryNext e = r.head? := by
  have holds := rep.queued.holds q
  rw [queued] at holds
  exact holds.at_middle.1

omit rep in
theorem SchedOk.owned {r : List Addr} (queued : a.queued q = l ++ e :: r) : ∃ t, a.owner e = some t := by
  have placed := (ok.wait.mem_queued e q).mp (by simp [queued])
  cases owner : a.owner e with
  | none => simp [(ok.wait.linked e).mpr owner] at placed
  | some t => exact ⟨t, rfl⟩

theorem Rep.wakeOneFrom (queued : a.queued q = l ++ es) (fuel : Nat)
    (enough : es.length < fuel) :
    ∃ after, wakeOneFrom fuel es.head? k = some after ∧ Rep after (a.wakeFirst es) := by
  induction fuel, es, enough using walk_induction generalizing l with
  | nil fuel => exact ⟨k, rfl, rep⟩
  | cons fuel e es _ ih =>
    obtain ⟨t, owned⟩ := ok.owned queued
    obtain ⟨after, wakes, woken⟩ := rep.wakeWaiter ok owned
    unfold Thread.wakeOneFrom Sched.wakeFirst
    simp only [List.head?_cons, wakes, owned, Option.bind_eq_bind, Option.bind_some, decide_eq_true_eq]
    split
    · exact ⟨after, rfl, woken⟩
    next awake =>
      have same : after = k := by
        unfold wakeWaiterLocked at wakes
        simpa [rep.owner, owned, rep.state, awake] using wakes.symm
      rw [same, rep.entryNext queued]
      exact ih (l := l ++ [e]) (by simpa using queued)

theorem Rep.wakeOne (q : Addr) : ∃ after, waitQueueWakeOne q k = some after ∧ Rep after (a.wakeOne q) := by
  unfold waitQueueWakeOne Sched.wakeOne
  rw [rep.queued.first]
  exact rep.wakeOneFrom ok (l := []) rfl walkLimit (length_lt_walkLimit (ok.wait.queued_nodup q))

end Waking

theorem Rep.wakeAllFrom (rep : Rep k a) (ok : SchedOk a) (queued : a.queued q = l ++ es) (fuel : Nat)
    (enough : es.length < fuel) :
    ∃ after, wakeAllFrom fuel es.head? k = some after ∧ Rep after (a.wakeEach es) := by
  induction fuel, es, enough using walk_induction generalizing k a l with
  | nil fuel => exact ⟨k, rfl, rep⟩
  | cons fuel e es _ ih =>
    obtain ⟨t, owned⟩ := ok.owned queued
    obtain ⟨after, wakes, woken⟩ := rep.wakeWaiter ok owned
    obtain ⟨-, -, -, sameQueued, -⟩ := a.wake_table t
    have still : (a.wake t).queued q = (l ++ [e]) ++ es := by simp [sameQueued, queued]
    unfold Thread.wakeAllFrom Sched.wakeEach
    simp only [List.head?_cons, wakes, owned, Option.bind_eq_bind, Option.bind_some]
    rw [woken.entryNext (by rw [sameQueued]; exact queued)]
    exact ih woken (ok.wake (ok.registered owned)) still

theorem Rep.wakeAll (rep : Rep k a) (ok : SchedOk a) (q : Addr) :
    ∃ after, waitQueueWakeAll q k = some after ∧ Rep after (a.wakeAll q) := by
  unfold waitQueueWakeAll Sched.wakeAll
  rw [rep.queued.first]
  exact rep.wakeAllFrom ok (l := []) rfl walkLimit (length_lt_walkLimit (ok.wait.queued_nodup q))

end OrangeKernel.Thread
