import OrangeKernel.Timer.Sightings

set_option autoImplicit false

namespace OrangeKernel.Timer

open Irq Intrusive SortedQueue Lifecycle EventLog

def FirstDue (before : List Sighting) (who : Option Nat) (now : UInt64) : Prop :=
  ∃ deadline, deadlineOf before who = some deadline ∧ deadline ≤ now.toNat ∧ who ∈ waitingAfter before ∧
    ∀ other ∈ waitingAfter before, other ≠ who → ∃ later, deadlineOf before other = some later ∧
      (deadline < later ∨ deadline = later ∧ [who, other].Sublist (waitingAfter before))

def Correct (before : List Sighting) : Sighting → Prop
  | .inserted who => ∃ deadline, deadlineOf before who = some deadline ∧ deadline < 2 ^ 64
  | .taken who now => FirstDue before who now
  | .called who => ∃ now, .taken who now ∈ before
  | _ => True

structure Ordered (s : TimerState) (log : List Sighting) (queue order : List Addr) : Prop where
  perm : order.Perm queue
  waiting : waitingAfter log = order.map s.record.owner
  stable : Stable (expireOf s.timers) order queue

def Awaited (s : TimerState) (queue : List Addr) (n : Addr) : Prop :=
    (∃ i, s.adds i = some (.filled n)) ∨ n ∈ queue

structure FiringOk (s : TimerState) (log : List Sighting) (queue order : List Addr) : Prop where
  asked : ∀ k now duration, .asked k now duration ∈ log →
    k < s.record.lives ∧ deadlineOf log (some k) = some (now.toNat + duration.toNat)
  deadline : ∀ n, Awaited s queue n → deadlineOf log (s.record.owner n) = some (expireOf s.timers n)
  ordered : Ordered s log queue order
  taken : ∀ n firing budget, s.handler = some (.event n firing budget) → ∃ now,
    .taken (s.record.owner n) now ∈ log
  budget : firedInRun log + budgetLeft s.handler ≤ timerEventBudget
  correct : ∀ before e after, log = before ++ e :: after → Correct before e

theorem timerStart_firing (timebaseFreq : UInt32) (event : Addr → TimerEvent) (sbiTimer : UInt64) (stie : Bool) :
    FiringOk (timerStart timebaseFreq event sbiTimer stie) [] [] [] where
  asked _ _ _ member := by cases member
  deadline n awaited := by
    rcases awaited with ⟨i, filled⟩ | member
    · cases filled
    · cases member
  ordered := ⟨.nil, rfl, .nil⟩
  taken _ _ _ inside := by cases inside
  budget := Nat.zero_le _
  correct before e after split := by simp at split

theorem map_erase_unique {A B : Type} [DecidableEq A] [BEq B] [LawfulBEq B] {f : A → B} {x : A} {xs : List A}
    (unique : ∀ y ∈ xs, f y = f x → y = x) : (xs.erase x).map f = (xs.map f).erase (f x) := by
  induction xs with
  | nil => rfl
  | cons y xs ih =>
    by_cases same : y = x
    · simp [same]
    · have differs : f y ≠ f x := fun equal => same (unique y List.mem_cons_self equal)
      rw [List.erase_cons_tail (by simpa using same), List.map_cons, List.map_cons,
        List.erase_cons_tail (by simpa using differs),
        ih fun z member => unique z (List.mem_cons_of_mem _ member)]

section Preserved

variable {s s' : TimerState} {place place' : Addr → Option Station} {queue queue' order : List Addr}
  {rests rests' : Nat → List Addr} {log seen : List Sighting} {n : Addr}

theorem Awaited.stands (awaited : Awaited s queue n) : ∃ a, Stands s queue rests n a := by
  rcases awaited with ⟨i, filled⟩ | member
  · exact ⟨.filled i, filled⟩
  · exact ⟨.pending, member⟩

theorem KeepsLives.stands (keeps : KeepsLives s s') (own : OwnOk s place queue rests)
    (own' : OwnOk s' place' queue' rests') (before : ∃ a, Stands s queue rests n a)
    (after : ∃ a, Stands s' queue' rests' n a) :
    s'.record.owner n = s.record.owner n ∧ expireOf s'.timers n = expireOf s.timers n := by
  obtain ⟨a, before⟩ := before
  obtain ⟨b, after⟩ := after
  obtain ⟨k, owns⟩ := own.tracked.owner ((own.stands n a).mpr before)
  obtain ⟨k', owns'⟩ := own'.tracked.owner ((own'.stands n b).mpr after)
  refine ⟨?_, keeps.expire n k owns⟩
  rcases keeps.owner n k owns with gone | same
  · rw [gone] at owns'
    cases owns'
  · rw [same, owns]

section Queue

variable (keeps : KeepsLives s s') (own : OwnOk s place queue rests) (own' : OwnOk s' place' queue' rests')
include keeps own own'

theorem KeepsLives.queued (nodes : List Addr) (before : ∀ n ∈ nodes, n ∈ queue)
    (after : ∀ n ∈ nodes, n ∈ queue') :
    nodes.map s'.record.owner = nodes.map s.record.owner ∧
      ∀ n ∈ nodes, expireOf s'.timers n = expireOf s.timers n := by
  have same : ∀ n ∈ nodes, s'.record.owner n = s.record.owner n ∧ expireOf s'.timers n = expireOf s.timers n :=
    fun n member => keeps.stands own own' ⟨.pending, before n member⟩ ⟨.pending, after n member⟩
  exact ⟨List.map_congr_left fun n member => (same n member).1, fun n member => (same n member).2⟩

variable (ordered : Ordered s log queue order)
include ordered

theorem Ordered.still (queues : queue' = queue) (quiet : waitingAfter (log ++ seen) = waitingAfter log) :
    Ordered s' (log ++ seen) queue' order := by
  subst queues
  have members : ∀ n ∈ order, n ∈ queue' := fun n member => ordered.perm.mem_iff.mp member
  refine ⟨ordered.perm, ?_, ordered.stable.congr (keeps.queued own own' _ (fun _ => id) fun _ => id).2⟩
  rw [quiet, ordered.waiting, (keeps.queued own own' _ members members).1]

theorem Ordered.insert (absent : n ∉ queue) (stood : ∃ a, Stands s queue rests n a)
    (queues : queue' = Timer.inserted s.timers n queue) :
    Ordered s' (log ++ [Sighting.inserted (s.record.owner n)]) queue' (order ++ [n]) := by
  have members : ∀ m, m ∈ queue' ↔ m = n ∨ m ∈ queue := fun m => by rw [queues, mem_inserted]
  have same := keeps.stands own own' stood ⟨.pending, (members n).mpr (Or.inl rfl)⟩
  have others := keeps.queued own own' order (fun m member => ordered.perm.mem_iff.mp member)
    fun m member => (members m).mpr (Or.inr (ordered.perm.mem_iff.mp member))
  have stable := ordered.stable.insert (fun m member => ordered.perm.mem_iff.mpr member) n
  refine ⟨?_, ?_, ?_⟩
  · rw [queues, Timer.inserted]
    refine List.Perm.trans ?_ List.perm_middle.symm
    rw [earlier_append_later]
    exact (List.perm_append_singleton n order).trans (ordered.perm.cons n)
  · rw [waitingAfter_snoc, Sighting.queued, ordered.waiting, List.map_append, others.1, List.map_singleton, same.1]
  · rw [queues]
    refine stable.congr fun m member => ?_
    rcases (mem_inserted s.timers n queue m).mp member with rfl | old
    · exact same.2
    · exact others.2 m (ordered.perm.mem_iff.mpr old)

theorem Ordered.take {now : UInt64} (first : queue = n :: queue') :
    Ordered s' (log ++ [Sighting.taken (s.record.owner n) now]) queue' (order.erase n) := by
  have absent : n ∉ queue' := (List.nodup_cons.mp (first ▸ own.pending.nodup)).1
  have perm : (order.erase n).Perm queue' := by
    have erased := ordered.perm.erase n
    rwa [first, List.erase_cons_head] at erased
  have stays : ∀ m ∈ queue', m ∈ queue := fun m member => by rw [first]; exact List.mem_cons_of_mem _ member
  have others := keeps.queued own own' (order.erase n)
    (fun m member => stays m (perm.mem_iff.mp member)) fun m member => perm.mem_iff.mp member
  have unique : ∀ m ∈ order, s.record.owner m = s.record.owner n → m = n := by
    intro m member equal
    obtain ⟨k, owns⟩ := own.tracked.owner ((own.stands m .pending).mpr (ordered.perm.mem_iff.mp member))
    exact own.tracked.distinct m n k owns (equal ▸ owns)
  refine ⟨perm, ?_, ?_⟩
  · rw [waitingAfter_snoc, Sighting.queued, ordered.waiting, others.1, map_erase_unique unique]
  · have stable : Stable (expireOf s.timers) order (n :: queue') := first ▸ ordered.stable
    refine (stable.tail absent).congr fun m member => ?_
    exact others.2 m (perm.mem_iff.mpr member)

end Queue

section Firing

variable (ok : FiringOk s log queue order)
include ok

theorem FiringOk.firstDue {rest : List Addr} {now : UInt64} (first : queue = n :: rest)
    (due : (s.timers.event n).expire ≤ now) : FirstDue log (s.record.owner n) now := by
  have waiting := ok.ordered.waiting
  have head : n ∈ queue := first ▸ List.mem_cons_self
  refine ⟨_, ok.deadline n (Or.inr head), UInt64.le_iff_toNat_le.mp due, ?_, fun other member differs => ?_⟩
  · rw [waiting]
    exact List.mem_map_of_mem (ok.ordered.perm.mem_iff.mpr head)
  · rw [waiting] at member
    obtain ⟨m, came, rfl⟩ := List.mem_map.mp member
    have queued : m ∈ queue := ok.ordered.perm.mem_iff.mp came
    have behind : m ∈ rest := by
      rw [first] at queued
      exact (List.mem_cons.mp queued).resolve_left fun same => differs (same ▸ rfl)
    have stable : Stable (expireOf s.timers) order (n :: rest) := first ▸ ok.ordered.stable
    refine ⟨_, ok.deadline m (Or.inr queued),
      ((List.pairwise_cons.mp stable).1 m behind).imp_right (And.imp_right ?_)⟩
    intro sub
    rw [waiting]
    exact sub.map s.record.owner

variable (own : OwnOk s place queue rests) (own' : OwnOk s' place' queue' rests') (keeps : KeepsLives s s')
include own own' keeps

theorem FiringOk.next {order' : List Addr} (ordered : Ordered s' (log ++ seen) queue' order')
    (asked : ∀ k now duration, .asked k now duration ∈ seen →
      k < s'.record.lives ∧ deadlineOf (log ++ seen) (some k) = some (now.toNat + duration.toNat))
    (awaited : ∀ n, Awaited s' queue' n → Awaited s queue n ∨
      deadlineOf (log ++ seen) (s'.record.owner n) = some (expireOf s'.timers n))
    (events : ∀ n firing budget, s'.handler = some (.event n firing budget) →
      (∃ before budget, s.handler = some (.event n before budget)) ∨ ∃ now,
        .taken (s'.record.owner n) now ∈ seen)
    (budget : firedInRun (log ++ seen) + budgetLeft s'.handler ≤ timerEventBudget)
    (correct : seen = [] ∨ ∃ e, seen = [e] ∧ Correct log e) : FiringOk s' (log ++ seen) queue' order' where
  asked k now duration member := by
    rcases List.mem_append.mp member with old | new
    · obtain ⟨below, known⟩ := ok.asked k now duration old
      exact ⟨below.trans_le keeps.lives, deadlineOf_append known seen⟩
    · exact asked k now duration new
  deadline n wait := by
    rcases awaited n wait with old | new
    · obtain ⟨owner, expire⟩ := keeps.stands own own' old.stands wait.stands
      rw [owner, expire]
      exact deadlineOf_append (ok.deadline n old) seen
    · exact new
  ordered := ordered
  taken n firing left inside := by
    rcases events n firing left inside with ⟨before, had, was⟩ | ⟨now, new⟩
    · obtain ⟨now, old⟩ := ok.taken n before had was
      have same := keeps.stands own own' ⟨.firing before, had, was⟩ ⟨.firing firing, left, inside⟩
      exact ⟨now, List.mem_append_left _ (same.1 ▸ old)⟩
    · exact ⟨now, List.mem_append_right _ new⟩
  budget := budget
  correct := by
    rcases correct with rfl | ⟨e, rfl, new⟩
    · rw [List.append_nil]
      exact ok.correct
    · exact forall_split_snoc ok.correct (fun _ _ _ _ => id) new

theorem FiringOk.step (moved : Moved s s' queue queue' seen) : ∃ order', FiringOk s' (log ++ seen) queue' order' := by
  have budget := ok.budget
  cases moved with
  | quiet adds events less =>
    refine ⟨order, ok.next own own' keeps (ok.ordered.still keeps own own' rfl (by rw [List.append_nil])) (by simp)
      (fun n wait => Or.inl (wait.imp_left fun filled => filled.imp fun i => adds i n))
      (fun n firing left inside => Or.inl ((events n firing left inside).imp fun _ was => ⟨left, was⟩)) ?_
        (Or.inl rfl)⟩
    rw [List.append_nil]
    omega
  | asked now duration lives handler adds =>
    have new : ∀ now duration, Sighting.asked s.record.lives now duration ∉ log := fun now duration member =>
      Nat.lt_irrefl _ (ok.asked _ now duration member).1
    refine ⟨order, ok.next own own' keeps (ok.ordered.still keeps own own' rfl (waitingAfter_snoc _ _)) ?_
      (fun n wait => ?_) (fun n firing left inside => Or.inl ⟨firing, left, handler ▸ inside⟩) ?_
      (Or.inr ⟨_, rfl, trivial⟩)⟩
    · intro k now' duration' member
      obtain ⟨rfl, rfl, rfl⟩ := Sighting.asked.inj (List.mem_singleton.mp member)
      exact ⟨lives, deadlineOf_asked _ _ new⟩
    · rcases wait with ⟨i, filled⟩ | member
      · refine (adds i n filled).imp (fun old => Or.inl ⟨i, old⟩) fun fresh => ?_
        rw [fresh.1, fresh.2]
        exact deadlineOf_asked now duration new
      · exact Or.inl (Or.inr member)
    · rw [firedInRun_snoc, handler]
      exact budget
  | inserted i n filled adds handler =>
    have absent : n ∉ queue := fun inside => by
      cases own.unique (show Stands s queue rests n (.filled i) from filled)
        (show Stands s queue rests n .pending from inside)
    refine ⟨order ++ [n],
      ok.next own own' keeps (ok.ordered.insert keeps own own' absent ⟨.filled i, filled⟩ rfl) (by simp)
      (fun m wait => Or.inl ?_) (fun m firing left inside => Or.inl ⟨firing, left, handler ▸ inside⟩) ?_
      (Or.inr ⟨_, rfl, _, ok.deadline n (Or.inl ⟨i, filled⟩), UInt64.toNat_lt _⟩)⟩
    · rcases wait with ⟨j, held⟩ | member
      · exact Or.inl ⟨j, adds j m held⟩
      · rcases (mem_inserted s.timers n queue m).mp member with rfl | old
        · exact Or.inl ⟨i, filled⟩
        · exact Or.inr old
    · rw [firedInRun_snoc, handler]
      exact budget
  | entered adds after =>
    refine ⟨order, ok.next own own' keeps (ok.ordered.still keeps own own' rfl (waitingAfter_snoc _ _)) (by simp)
      (fun n wait => Or.inl (wait.imp_left fun filled => filled.imp fun i => adds i n)) (by simp [after]) ?_
      (Or.inr ⟨_, rfl, trivial⟩)⟩
    rw [firedInRun_snoc, after]
    exact Nat.le_refl _
  | taken n rest now left first due adds before after =>
    refine ⟨order.erase n, ok.next own own' keeps (ok.ordered.take keeps own own' first)
      (by simp) (fun m wait => Or.inl ?_)
      (fun m firing _ inside => Or.inr ⟨now, ?_⟩) ?_ (Or.inr ⟨_, rfl, ok.firstDue first due⟩)⟩
    · exact wait.imp (fun filled => filled.imp fun i => adds i m) fun member => first ▸ List.mem_cons_of_mem _ member
    · rw [after] at inside
      obtain ⟨rfl, -⟩ := HandlerPlace.event.inj (Option.some.inj inside)
      have same :=
        keeps.stands own own' ⟨.pending, first ▸ List.mem_cons_self⟩ ⟨.firing .detached, left, after⟩
      rw [same.1]
      exact List.mem_singleton_self _
    · rw [before] at budget
      rw [firedInRun_snoc, after]
      simp only [budgetLeft, Sighting.fired] at budget ⊢
      omega
  | called n left adds before after =>
    refine ⟨order, ok.next own own' keeps (ok.ordered.still keeps own own' rfl (waitingAfter_snoc _ _)) (by simp)
      (fun m wait => Or.inl (wait.imp_left fun filled => filled.imp fun i => adds i m))
        (fun m firing b inside => Or.inl ?_)
      ?_ (Or.inr ⟨_, rfl, ok.taken n .detached left before⟩)⟩
    · rw [after] at inside
      obtain ⟨rfl, -⟩ := HandlerPlace.event.inj (Option.some.inj inside)
      exact ⟨.detached, left, before⟩
    · rw [before] at budget
      rw [firedInRun_snoc, after]
      exact budget
  | stopped adds handler =>
    refine ⟨[], ok.next own own' keeps ⟨.nil, waitingAfter_snoc _ _, .nil⟩ (by simp) (fun n wait => ?_)
      (fun n firing left inside => Or.inl ⟨firing, left, handler ▸ inside⟩) ?_ (Or.inr ⟨_, rfl, trivial⟩)⟩
    · rcases wait with ⟨i, filled⟩ | member
      · exact Or.inl (Or.inl ⟨i, adds i n filled⟩)
      · cases member
    · rw [firedInRun_snoc, handler]
      exact budget

end Firing

end Preserved

theorem watchRun_ok {s : TimerState} {log : List Sighting} (run : WatchRun s log) :
    ∃ place queue rests order, OwnOk s place queue rests ∧ FiringOk s log queue order := by
  induction run with
  | start timebaseFreq event sbiTimer stie =>
    exact ⟨_, _, _, _, timerStart_own timebaseFreq event sbiTimer stie,
      timerStart_firing timebaseFreq event sbiTimer stie⟩
  | step op _ may steps ih =>
    obtain ⟨place, queue, rests, order, own, ok⟩ := ih
    obtain ⟨place', queue', rests', own'⟩ := own.step may steps
    obtain ⟨queue'', step⟩ := own.stepSeen may steps
    obtain rfl := own'.pending.unique step.pending
    obtain ⟨order', ok'⟩ := ok.step own own' step.keeps step.moved
    exact ⟨place', queue', rests', order', own', ok'⟩

theorem Moved.short {s s' : TimerState} {queue queue' : List Addr} {seen : List Sighting}
    (moved : Moved s s' queue queue' seen) : seen = [] ∨ ∃ e, seen = [e] := by
  cases moved with
  | quiet => exact Or.inl rfl
  | asked | inserted | entered | taken | called | stopped => exact Or.inr ⟨_, rfl⟩

theorem watchRun_bounded {s : TimerState} {log : List Sighting} (run : WatchRun s log) (past rest : List Sighting)
    (split : log = past ++ rest) : firedInRun past ≤ timerEventBudget := by
  induction run generalizing rest with
  | start =>
    obtain rfl : past = [] := (List.append_eq_nil_iff.mp split.symm).1
    exact Nat.zero_le _
  | @step s s' log op run may steps ih =>
    obtain rfl | ⟨rest, last, rfl⟩ := List.eq_nil_or_concat' rest
    · obtain ⟨place, queue, rests, order, -, ok⟩ := watchRun_ok (.step op run may steps)
      have budget := ok.budget
      rw [split, List.append_nil] at budget
      omega
    · obtain ⟨place, queue, rests, order, own, -⟩ := watchRun_ok run
      obtain ⟨queue', step⟩ := own.stepSeen may steps
      rcases step.moved.short with none | ⟨e, one⟩
      · rw [none, List.append_nil] at split
        exact ih (rest ++ [last]) split
      · rw [one, ← List.append_assoc] at split
        exact ih rest (List.append_inj' split rfl).1

theorem watchRun_firing {s : TimerState} {log : List Sighting} (run : WatchRun s log) :
    (∃ queue, Stack (nextOf s.timers) s.timers.head queue ∧
      (waitingAfter log).Perm (queue.map s.record.owner)) ∧
      (∀ before who after, log = before ++ Sighting.called who :: after →
        ∃ early late now deadline, before = early ++ Sighting.taken who now :: late ∧
          deadlineOf early who = some deadline ∧ deadline ≤ now.toNat) ∧
      (∀ before who now after, log = before ++ Sighting.taken who now :: after → FirstDue before who now) ∧
      (∀ before between after, log = before ++ Sighting.entered :: (between ++ after) → .entered ∉ between →
        between.countP Sighting.isTaken ≤ 16) ∧
      (∀ k now duration, .asked k now duration ∈ log → 2 ^ 64 ≤ now.toNat + duration.toNat →
        .inserted (some k) ∉ log) ∧
      ∀ i callback arg duration cleanup n now, callback ≠ 0 → s.timers.timebaseFrequency ≠ 0 →
        2 ^ 64 ≤ now.toNat + duration.toNat →
          (addStep i callback arg duration cleanup (some n) now s).adds i = some (.refused n) := by
  obtain ⟨place, queue, rests, order, own, ok⟩ := watchRun_ok run
  refine ⟨⟨queue, own.pending, ?_⟩, fun before who after split => ?_,
    fun before who now after split => ok.correct _ _ _ split,
    fun before between after split same => ?_, fun k now duration asked large inserted => ?_,
    fun i callback arg duration cleanup n now given set large => ?_⟩
  · rw [ok.ordered.waiting]
    exact ok.ordered.perm.map _
  · obtain ⟨now, taken⟩ := ok.correct before _ after split
    obtain ⟨early, late, rfl⟩ := List.append_of_mem taken
    rw [List.append_assoc] at split
    obtain ⟨deadline, known, due, -⟩ := ok.correct early _ _ split
    exact ⟨early, late, now, deadline, rfl, known, due⟩
  · have bound := watchRun_bounded run (before ++ Sighting.entered :: between) after (by simpa using split)
    rwa [firedInRun_between before between same] at bound
  · obtain ⟨before, after, split⟩ := List.append_of_mem inserted
    obtain ⟨deadline, known, small⟩ := ok.correct before _ after split
    have whole := deadlineOf_append known (.inserted (some k) :: after)
    rw [← split, (ok.asked k now duration asked).2] at whole
    have same := Option.some.inj whole
    omega
  · have overflows := (expireOverflows_iff now duration).mpr large
    simp [addStep, given, set, overflows]

def watchOps (ops : List TimerOp) (s : TimerState × List Sighting) : Option (TimerState × List Sighting) :=
  ops.foldlM (fun s op =>
    if op.allowed s.1 then (timerStep s.1 op).map fun after => (after, s.2 ++ sightings s.1 op) else none) s

theorem watchRun_watchOps (ops : List TimerOp) {s s' : TimerState × List Sighting} (run : WatchRun s.1 s.2)
    (runs : watchOps ops s = some s') : WatchRun s'.1 s'.2 := by
  induction ops generalizing s with
  | nil =>
    cases runs
    exact run
  | cons op ops ih =>
    simp only [watchOps, List.foldlM_cons] at runs
    obtain ⟨middle, first, rest⟩ := Option.bind_eq_some_iff.mp runs
    split at first
    next may =>
      obtain ⟨after, steps, rfl⟩ := Option.map_eq_some_iff.mp first
      exact ih (.step op run may steps) rest
    next => cases first

def sameTime : List TimerOp :=
  [.init 0 10, .unmask 0, .add 0 0x1000 1 5 0 (some 0x100) 11, .insert 0, .add 1 0x1000 2 4 0 (some 0x200) 12,
    .insert 1,
    .irqTop, .run, .advance, .work 20, .work 20, .work 20]

theorem watchRun_firing_sameTime :
    (watchOps sameTime (noTimers, [])).map Prod.snd = some [.asked 0 11 5, .inserted (some 0), .asked 1 12 4,
        .inserted (some 1), .entered, .taken (some 0) 20, .called (some 0)] ∧
      FirstDue [.asked 0 11 5, .inserted (some 0), .asked 1 12 4, .inserted (some 1), .entered] (some 0) 20 := by
  have shows : (watchOps sameTime (noTimers, [])).map Prod.snd = some [.asked 0 11 5, .inserted (some 0), .asked 1 12 4,
      .inserted (some 1), .entered, .taken (some 0) 20, .called (some 0)] := by decide +kernel
  refine ⟨shows, ?_⟩
  obtain ⟨⟨s, log⟩, runs, seen⟩ := Option.map_eq_some_iff.mp shows
  have run : WatchRun s log := watchRun_watchOps sameTime (s := (noTimers, [])) (.start _ _ _ _) runs
  obtain ⟨-, -, first, -⟩ := watchRun_firing run
  exact first _ (some 0) 20 [.called (some 0)] seen

end OrangeKernel.Timer
