import Mathlib.Data.List.Induction
import OrangeKernel.Shared.EventLog
import OrangeKernel.Timer.Ownership

set_option autoImplicit false

namespace OrangeKernel.Timer

open Irq Intrusive SortedQueue Lifecycle EventLog

inductive Sighting where
  | asked (life : Nat) (now duration : UInt64)
  | inserted (who : Option Nat)
  | entered
  | taken (who : Option Nat) (now : UInt64)
  | called (who : Option Nat)
  | stopped
deriving DecidableEq, Repr

def sightings (s : TimerState) : TimerOp → List Sighting
  | .add _ callback _ duration _ node now =>
    if callback = 0 ∨ s.timers.timebaseFrequency = 0 ∨ node = none then []
    else [.asked s.record.lives now duration]
  | .insert i =>
    match s.adds i with
    | some (.filled n) => if s.timers.enabled = false then [] else [.inserted (s.record.owner n)]
    | _ => []
  | .work now =>
    match s.handler with
    | some (.loop (_ + 1)) =>
      match timerTurn now s.timers with
      | some (some n, _) => [.taken (s.record.owner n) now]
      | _ => []
    | some (.event n .detached _) => [.called (s.record.owner n)]
    | _ => []
  | .stop _ => [.stopped]
  | .advance => if s.runner.starts = some .timer then [.entered] else []
  | _ => []

inductive WatchRun : TimerState → List Sighting → Prop where
  | start (timebaseFreq : UInt32) (event : Addr → TimerEvent) (sbiTimer : UInt64) (stie : Bool) :
      WatchRun (timerStart timebaseFreq event sbiTimer stie) []
  | step {s s' : TimerState} {log : List Sighting} (op : TimerOp) (run : WatchRun s log) (may : op.allowed s = true)
      (steps : timerStep s op = some s') : WatchRun s' (log ++ sightings s op)

theorem timerRun_iff_watchRun (s : TimerState) : TimerRun TimerOp.allowed s ↔ ∃ log, WatchRun s log := by
  constructor
  · intro run
    induction run with
    | start timebaseFreq event sbiTimer stie => exact ⟨[], .start timebaseFreq event sbiTimer stie⟩
    | step op _ may steps ih =>
      obtain ⟨log, run⟩ := ih
      exact ⟨_, .step op run may steps⟩
  · rintro ⟨log, run⟩
    induction run with
    | start timebaseFreq event sbiTimer stie => exact .start timebaseFreq event sbiTimer stie
    | step op _ may steps ih => exact .step op ih may steps

def Sighting.deadline (who : Option Nat) : Sighting → Option Nat
  | .asked life now duration => if who = some life then some (now.toNat + duration.toNat) else none
  | _ => none

def deadlineOf (log : List Sighting) (who : Option Nat) : Option Nat := log.findSome? (Sighting.deadline who)

def Sighting.queued (waiting : List (Option Nat)) : Sighting → List (Option Nat)
  | .inserted who => waiting ++ [who]
  | .taken who _ => waiting.erase who
  | .stopped => []
  | _ => waiting

def waitingAfter (log : List Sighting) : List (Option Nat) := log.foldl Sighting.queued []

def Sighting.isTaken : Sighting → Bool
  | .taken _ _ => true
  | _ => false

def Sighting.fired (count : Nat) : Sighting → Nat
  | .entered => 0
  | .taken _ _ => count + 1
  | _ => count

def firedInRun (log : List Sighting) : Nat := log.foldl Sighting.fired 0

theorem waitingAfter_snoc (log : List Sighting) (e : Sighting) :
    waitingAfter (log ++ [e]) = e.queued (waitingAfter log) := by
  rw [waitingAfter, List.foldl_append]
  rfl

theorem firedInRun_snoc (log : List Sighting) (e : Sighting) : firedInRun (log ++ [e]) = e.fired (firedInRun log) := by
  rw [firedInRun, List.foldl_append]
  rfl

theorem deadlineOf_append {log : List Sighting} {who : Option Nat} {deadline : Nat}
    (known : deadlineOf log who = some deadline) (more : List Sighting) :
    deadlineOf (log ++ more) who = some deadline := by
  rw [deadlineOf, List.findSome?_append, ← deadlineOf, known, Option.some_or]

theorem deadlineOf_asked {log : List Sighting} {life : Nat} (now duration : UInt64)
    (new : ∀ now duration, .asked life now duration ∉ log) :
    deadlineOf (log ++ [Sighting.asked life now duration]) (some life) = some (now.toNat + duration.toNat) := by
  have unknown : deadlineOf log (some life) = none := by
    refine List.findSome?_eq_none_iff.mpr fun e member => ?_
    cases e with
    | asked other now duration =>
      have differs : some life ≠ some other := fun same => new now duration (Option.some.inj same ▸ member)
      rw [Sighting.deadline, if_neg differs]
    | inserted | entered | taken | called | stopped => rfl
  rw [deadlineOf, List.findSome?_append, ← deadlineOf, unknown]
  simp [Sighting.deadline]

theorem firedInRun_between (before between : List Sighting) (same : .entered ∉ between) :
    firedInRun (before ++ Sighting.entered :: between) = between.countP Sighting.isTaken := by
  induction between using List.reverseRecOn with
  | nil => rw [firedInRun_snoc]; rfl
  | append_singleton between e ih =>
    rw [List.mem_append, not_or] at same
    have shape : before ++ Sighting.entered :: (between ++ [e]) = (before ++ Sighting.entered :: between) ++
      [e] := by simp
    rw [shape, firedInRun_snoc, ih same.1, List.countP_append, List.countP_singleton]
    cases e with
    | entered => exact absurd (List.mem_singleton_self _) same.2
    | asked | inserted | taken | called | stopped => rfl

def budgetLeft : Option HandlerPlace → Nat
  | some .enter => timerEventBudget
  | some (.loop budget) => budget
  | some (.event _ _ budget) => budget
  | _ => 0

structure KeepsLives (s s' : TimerState) : Prop where
  lives : s.record.lives ≤ s'.record.lives
  owner : ∀ n k, s.record.owner n = some k → s'.record.owner n = none ∨ s'.record.owner n = some k
  expire : ∀ n k, s.record.owner n = some k → expireOf s'.timers n = expireOf s.timers n

def KeepsFilled (s s' : TimerState) : Prop := ∀ i n, s'.adds i = some (.filled n) → s.adds i = some (.filled n)

inductive Moved (s s' : TimerState) (queue : List Addr) : List Addr → List Sighting → Prop where
  | quiet (adds : KeepsFilled s s')
      (events : ∀ n firing budget, s'.handler = some (.event n firing budget) →
        ∃ before, s.handler = some (.event n before budget))
      (budget : budgetLeft s'.handler ≤ budgetLeft s.handler) : Moved s s' queue queue []
  | asked (now duration : UInt64) (lives : s.record.lives < s'.record.lives) (handler : s'.handler = s.handler)
      (adds : ∀ i n, s'.adds i = some (.filled n) → s.adds i = some (.filled n) ∨
        s'.record.owner n = some s.record.lives ∧ expireOf s'.timers n = now.toNat + duration.toNat) :
      Moved s s' queue queue [.asked s.record.lives now duration]
  | inserted (i : Nat) (n : Addr) (filled : s.adds i = some (.filled n)) (adds : KeepsFilled s s')
      (handler : s'.handler = s.handler) :
      Moved s s' queue (Timer.inserted s.timers n queue) [.inserted (s.record.owner n)]
  | entered (adds : KeepsFilled s s') (after : s'.handler = some .enter) : Moved s s' queue queue [.entered]
  | taken (n : Addr) (rest : List Addr) (now : UInt64) (budget : Nat) (first : queue = n :: rest)
      (due : (s.timers.event n).expire ≤ now) (adds : KeepsFilled s s')
        (before : s.handler = some (.loop (budget + 1)))
      (after : s'.handler = some (.event n .detached budget)) :
      Moved s s' queue rest [.taken (s.record.owner n) now]
  | called (n : Addr) (budget : Nat) (adds : KeepsFilled s s') (before : s.handler = some (.event n .detached budget))
      (after : s'.handler = some (.event n .inside budget)) : Moved s s' queue queue [.called (s.record.owner n)]
  | stopped (adds : KeepsFilled s s') (handler : s'.handler = s.handler) : Moved s s' queue [] [.stopped]

structure Step (s s' : TimerState) (queue queue' : List Addr) (seen : List Sighting) : Prop where
  keeps : KeepsLives s s'
  pending : Stack (nextOf s'.timers) s'.timers.head queue'
  moved : Moved s s' queue queue' seen

variable {s' : TimerState} {s : TimerState}

theorem KeepsLives.same (record : s'.record = s.record) (event : s'.timers.event = s.timers.event) :
    KeepsLives s s' where
  lives := by rw [record]
  owner n k owns := by rw [record]; exact Or.inr owns
  expire n k _ := by rw [expireOf, event, expireOf]

variable {m : Addr}

theorem KeepsLives.note {h : Happening} (record : s'.record = s.record.note m h)
    (data : SameData s.timers s'.timers) : KeepsLives s s' where
  lives := by rw [record]; exact Nat.le_refl _
  owner n k owns := by rw [record]; exact Or.inr owns
  expire n k _ := congrArg UInt64.toNat (data.expire n)

theorem KeepsLives.giveBack {h : Happening} (record : s'.record = s.record.giveBack m h)
    (timers : s'.timers = s.timers) : KeepsLives s s' where
  lives := by rw [record]; exact Nat.le_refl _
  owner n k owns := by
    rw [record]
    by_cases here : n = m
    · exact Or.inl (by simp [Record.giveBack, here])
    · exact Or.inr (by simpa [Record.giveBack, here] using owns)
  expire n k _ := by rw [timers]

theorem KeepsLives.take (record : s'.record = s.record.take m) (free : s.record.owner m = none)
    (others : ∀ n, n ≠ m → s'.timers.event n = s.timers.event n) : KeepsLives s s' where
  lives := by rw [record]; exact Nat.le_succ _
  owner n k owns := by
    have other : n ≠ m := fun same => by simp [same, free] at owns
    rw [record]
    exact Or.inr (by simpa [Record.take, other] using owns)
  expire n k owns := by
    have other : n ≠ m := fun same => by simp [same, free] at owns
    rw [expireOf, others n other, expireOf]

theorem keepsFilled_of_eq (adds : s'.adds = s.adds) : KeepsFilled s s' :=
  fun i n holds => by rw [← adds]; exact holds

theorem keepsFilled_update {i : Nat} {spot : Option AddPlace} (other : ∀ n, spot ≠ some (.filled n))
    (adds : s'.adds = Function.update s.adds i spot) : KeepsFilled s s' := by
  intro j n holds
  rw [adds] at holds
  by_cases here : j = i
  · subst here
    rw [Function.update_self] at holds
    exact absurd holds (other n)
  · rwa [Function.update_of_ne here] at holds

theorem timerTurn_due {now : UInt64} {t t' : Timers} {n : Addr} (turn : timerTurn now t = some (some n, t')) :
    (t.event n).expire ≤ now := by
  unfold timerTurn at turn
  split at turn
  next => cases turn
  next =>
    obtain ⟨deadline, -, taken⟩ := Option.map_eq_some_iff.mp turn
    unfold detachDue at taken
    split at taken
    next => cases taken
    next node _ =>
      split at taken
      next due =>
        obtain rfl : node = n := by simpa using congrArg Prod.fst taken
        exact due
      next => cases taken

section Steps

variable {place : Addr → Option Station} {queue : List Addr} {rests : Nat → List Addr}
  (own : OwnOk s place queue rests)
include own

theorem OwnOk.stepQuiet (record : s'.record = s.record) (head : s'.timers.head = s.timers.head)
    (event : s'.timers.event = s.timers.event) (adds : s'.adds = s.adds)
    (events : ∀ n firing budget, s'.handler = some (.event n firing budget) →
      ∃ before, s.handler = some (.event n before budget))
    (budget : budgetLeft s'.handler ≤ budgetLeft s.handler) : Step s s' queue queue [] where
  keeps := .same record event
  pending := by
    have next : nextOf s'.timers = nextOf s.timers := by
      funext n
      rw [nextOf, event, nextOf]
    rw [next, head]
    exact own.pending
  moved := .quiet (keepsFilled_of_eq adds) events budget

theorem OwnOk.stepSame (record : s'.record = s.record) (head : s'.timers.head = s.timers.head)
    (event : s'.timers.event = s.timers.event) (adds : s'.adds = s.adds) (handler : s'.handler = s.handler) :
    Step s s' queue queue [] :=
  own.stepQuiet record head event adds (fun _ firing _ inside => ⟨firing, handler ▸ inside⟩)
    (Nat.le_of_eq (congrArg budgetLeft handler))

theorem OwnOk.stepAdd (i : Nat) (callback arg duration cleanup : UInt64) {node : Option Addr}
    (free : ∀ n, node = some n → s.record.owner n = none) (now : UInt64) :
    Step s (addStep i callback arg duration cleanup node now s) queue queue
      (sightings s (.add i callback arg duration cleanup node now)) := by
  unfold addStep
  rw [sightings]
  by_cases refused : callback = 0 ∨ s.timers.timebaseFrequency = 0
  · rw [if_pos refused, if_pos (refused.imp_right Or.inl)]
    exact own.stepSame rfl rfl rfl rfl rfl
  · rw [if_neg refused]
    cases node with
    | none =>
      rw [if_pos (Or.inr (Or.inr rfl))]
      exact own.stepSame rfl rfl rfl rfl rfl
    | some n =>
      have fresh := free n rfl
      have absent : n ∉ queue := own.fresh fresh .pending
      rw [if_neg (by simpa using refused)]
      dsimp only
      split
      next =>
        refine ⟨.take rfl fresh fun _ _ => rfl, own.pending,
          .asked now duration (Nat.lt_succ_self _) rfl fun j m holds => ?_⟩
        exact Or.inl (keepsFilled_update (by simp) (Eq.refl (Function.update s.adds i _)) j m holds)
      next fits =>
        have others : ∀ m, m ≠ n →
          (fillEvent n callback arg duration cleanup now s.timers).event m = s.timers.event m :=
          fun m other => by simp [fillEvent, other]
        refine ⟨.take rfl fresh others, ⟨chain_congr (fun m member => ?_) own.pending.chain, own.pending.first⟩,
          .asked now duration (Nat.lt_succ_self _) rfl fun j m holds => ?_⟩
        · rw [nextOf, others m fun same => absent (same ▸ member), nextOf]
        · by_cases here : j = i
          · obtain rfl : n = m := by simpa [here] using holds
            exact Or.inr
              ⟨by simp [Record.take], fillEvent_expireOf (by simpa using fits) n callback arg cleanup s.timers⟩
          · exact Or.inl (by simpa [here] using holds)

theorem OwnOk.stepInsert {i : Nat} (steps : insertStep i s = some s') :
    ∃ queue', Step s s' queue queue' (sightings s (.insert i)) := by
  unfold insertStep at steps
  rw [sightings]
  cases holds : s.adds i with
  | none =>
    simp only [holds] at steps
    cases steps
    exact ⟨queue, own.stepSame rfl rfl rfl rfl rfl⟩
  | some held =>
    cases held with
    | refused n =>
      simp only [holds] at steps
      cases steps
      exact ⟨queue, own.stepSame rfl rfl rfl rfl rfl⟩
    | filled n =>
      simp only [holds] at steps ⊢
      split at steps
      next off =>
        cases steps
        rw [if_pos off]
        exact ⟨queue, .same rfl rfl, own.pending, .quiet (keepsFilled_update (by simp) rfl)
          (fun _ firing _ inside => ⟨firing, inside⟩) (Nat.le_refl _)⟩
      next on =>
        have stood : Stands s queue rests n (.filled i) := holds
        have absent : n ∉ queue := fun inside => by
          cases own.unique stood (show Stands s queue rests n .pending from inside)
        obtain ⟨t, walk, after, relinked⟩ := insertEvent_stack own.pending absent
        obtain ⟨deadline, sbi, programmed⟩ := timerReprogramLocked_eq t
        rw [walk, Option.map_some, programmed] at steps
        cases steps
        rw [if_neg on]
        exact ⟨Timer.inserted s.timers n queue, .note rfl relinked.data, after,
          .inserted i n holds (keepsFilled_update (by simp) rfl) rfl⟩

theorem OwnOk.stepFire {n : Addr} {firing : Firing} {budget : Nat} (inside : s.handler = some (.event n firing budget))
    (now : UInt64) : Step s (fireStep n budget s firing) queue queue (sightings s (.work now)) := by
  rw [sightings, inside]
  have sameEvent : ∀ after m f b, some (HandlerPlace.event n after budget) = some (.event m f b) →
      ∃ before, s.handler = some (.event m before b) := by
    intro after m f b same
    obtain ⟨rfl, rfl, rfl⟩ := HandlerPlace.event.inj (Option.some.inj same)
    exact ⟨firing, inside⟩
  have sameBudget : budgetLeft (some (.event n firing budget)) = budgetLeft s.handler := congrArg budgetLeft inside.symm
  cases firing with
  | detached => exact ⟨.note rfl (.refl _), own.pending, .called n budget (keepsFilled_of_eq rfl) inside rfl⟩
  | inside | cleaning =>
    exact ⟨.note rfl (.refl _), own.pending, .quiet (keepsFilled_of_eq rfl) (sameEvent _) (Nat.le_of_eq sameBudget)⟩
  | returned =>
    unfold fireStep
    dsimp only
    split
    next =>
      exact ⟨.note rfl (.refl _), own.pending,
        .quiet (keepsFilled_of_eq rfl) (sameEvent _) (Nat.le_of_eq sameBudget)⟩
    next => exact own.stepQuiet rfl rfl rfl rfl (sameEvent _) (Nat.le_of_eq sameBudget)
  | release =>
    exact ⟨.giveBack rfl rfl, own.pending, .quiet (keepsFilled_of_eq rfl) nofun (Nat.le_of_eq sameBudget)⟩

theorem OwnOk.stepWork {now : UInt64} (steps : handlerStep now s = some s') :
    ∃ queue', Step s s' queue queue' (sightings s (.work now)) := by
  unfold handlerStep at steps
  cases inside : s.handler with
  | none =>
    simp only [inside] at steps
    cases steps
    rw [sightings, inside]
    exact ⟨queue, own.stepSame rfl rfl rfl rfl rfl⟩
  | some before =>
    simp only [inside] at steps
    have budget : ∀ after, budgetLeft after ≤ budgetLeft (some before) →
      budgetLeft after ≤ budgetLeft s.handler :=
      fun after le => inside ▸ le
    cases before with
    | enter =>
      rw [sightings, inside]
      refine ⟨queue, ?_⟩
      dsimp only at steps
      split at steps
      next =>
        cases steps
        exact own.stepQuiet rfl rfl rfl rfl nofun (budget _ (Nat.zero_le _))
      next =>
        split at steps <;> cases steps
        next => exact own.stepQuiet rfl rfl rfl rfl nofun (budget _ (Nat.zero_le _))
        next => exact own.stepQuiet rfl rfl rfl rfl nofun (budget _ (Nat.le_refl _))
    | loop left =>
      cases left with
      | zero =>
        cases steps
        rw [sightings, inside]
        exact ⟨queue, own.stepQuiet rfl rfl rfl rfl nofun (budget _ (Nat.zero_le _))⟩
      | succ left =>
        obtain ⟨⟨node, timers⟩, turn, rfl⟩ := Option.map_eq_some_iff.mp steps
        rw [sightings, inside]
        dsimp only
        rw [turn]
        cases timerTurn_cases own.pending turn with
        | off disabled => exact ⟨queue, own.stepQuiet rfl rfl rfl rfl nofun (budget _ (Nat.zero_le _))⟩
        | idle enabled deadline ticks =>
          exact ⟨queue, own.stepQuiet rfl rfl rfl rfl nofun (budget _ (Nat.zero_le _))⟩
        | detached enabled deadline ticks n rest first t after relinked =>
          have data : SameData s.timers timers := relinked.data
          refine ⟨rest,
            ⟨Nat.le_refl _, fun m k owns => Or.inr owns, fun m k _ => congrArg UInt64.toNat (data.expire m)⟩,
            after, ?_⟩
          exact .taken n rest now left first (timerTurn_due turn) (keepsFilled_of_eq rfl) inside rfl
    | event n firing left =>
      cases steps
      exact ⟨queue, own.stepFire inside now⟩
    | last =>
      cases steps
      obtain ⟨head, event, -⟩ := timerRearm_frame now s.timers s.runner
      rw [sightings, inside]
      exact ⟨queue, own.stepQuiet rfl head event rfl nofun (budget _ (Nat.zero_le _))⟩
    | finished =>
      cases steps
      rw [sightings, inside]
      exact ⟨queue, own.stepQuiet rfl rfl rfl rfl nofun (budget _ (Nat.zero_le _))⟩

theorem OwnOk.stepGiveBack (i : Nat) : Step s (giveBackStep i s) queue queue [] := by
  unfold giveBackStep
  split
  next =>
    exact ⟨.giveBack rfl rfl, own.pending, .quiet (keepsFilled_update (by simp) rfl)
      (fun _ firing _ inside => ⟨firing, inside⟩) (Nat.le_refl _)⟩
  next => exact own.stepSame rfl rfl rfl rfl rfl

theorem OwnOk.stepDrop (j : Nat) : Step s (dropStep j s) queue queue [] := by
  have still : ∀ {s' : TimerState}, KeepsLives s s' → s'.timers = s.timers → s'.adds = s.adds →
      s'.handler = s.handler → Step s s' queue queue [] := fun keeps timers adds handler =>
    ⟨keeps, timers ▸ own.pending,
      .quiet (keepsFilled_of_eq adds) (fun _ firing _ inside => ⟨firing, handler ▸ inside⟩)
      (Nat.le_of_eq (congrArg budgetLeft handler))⟩
  unfold dropStep discardStep
  cases s.halts j with
  | none => exact still (.same rfl rfl) rfl rfl rfl
  | some spot =>
    cases spot with
    | test pending =>
      cases pending with
      | none => exact still (.same rfl rfl) rfl rfl rfl
      | some n => exact still (.note rfl (.refl _)) rfl rfl rfl
    | event n dropping pending =>
      cases dropping with
      | cleaning => exact still (.note rfl (.refl _)) rfl rfl rfl
      | release => exact still (.giveBack rfl rfl) rfl rfl rfl
      | discard =>
        dsimp only
        split
        next => exact still (.note rfl (.refl _)) rfl rfl rfl
        next => exact still (.same rfl rfl) rfl rfl rfl

theorem OwnOk.stepSeen {op : TimerOp} (may : op.allowed s = true) (steps : timerStep s op = some s') :
    ∃ queue', Step s s' queue queue' (sightings s op) := by
  cases op with
  | add i callback arg duration cleanup node now =>
    obtain ⟨-, free⟩ : s.adds i = none ∧ node.bind s.record.owner = none := by simpa [TimerOp.allowed] using may
    cases steps
    exact ⟨queue, own.stepAdd i callback arg duration cleanup (fun n given => by simpa [given] using free) now⟩
  | insert i => exact own.stepInsert steps
  | giveBack i =>
    cases steps
    exact ⟨queue, own.stepGiveBack i⟩
  | work now => exact own.stepWork steps
  | stop j =>
    cases steps
    exact ⟨[], .same rfl rfl, ⟨trivial, rfl⟩, .stopped (keepsFilled_of_eq rfl) rfl⟩
  | drop j =>
    cases steps
    exact ⟨queue, own.stepDrop j⟩
  | init i now =>
    simp only [timerStep] at steps
    split at steps <;> cases steps
    next => exact ⟨queue, own.stepSame rfl rfl rfl rfl rfl⟩
    next =>
      obtain ⟨deadline, sbi, programmed⟩ := timerReprogramLocked_eq { s.timers with
        enabled := true
        schedTickInterval := tickInterval s.timers.timebaseFrequency
        schedTickDeadline := now + tickInterval s.timers.timebaseFrequency }
      rw [timerInit, programmed]
      exact ⟨queue, own.stepSame rfl rfl rfl rfl rfl⟩
  | unmask i =>
    simp only [timerStep] at steps
    split at steps <;> cases steps <;> exact ⟨queue, own.stepSame rfl rfl rfl rfl rfl⟩
  | advance =>
    cases steps
    rw [sightings]
    by_cases starts : s.runner.starts = some .timer
    · rw [if_pos starts, if_pos starts]
      exact ⟨queue, .same rfl rfl, own.pending, .entered (keepsFilled_of_eq rfl) rfl⟩
    · rw [if_neg starts, if_neg starts]
      exact ⟨queue, own.stepSame rfl rfl rfl rfl rfl⟩
  | finish =>
    cases steps
    split <;> exact ⟨queue, own.stepSame rfl rfl rfl rfl rfl⟩
  | irqTop | raise | clear | run =>
    cases steps
    exact ⟨queue, own.stepSame rfl rfl rfl rfl rfl⟩

end Steps

end OrangeKernel.Timer
