import OrangeKernel.Timer.Ownership
import OrangeKernel.Timer.Programmed

set_option autoImplicit false

namespace OrangeKernel.Timer

open Irq Intrusive SortedQueue

def TimerOp.clocked (s : TimerState) : TimerOp → Bool
  | .add _ _ _ _ _ _ now => clockOk s.timers.timebaseFrequency now
  | .work now => clockOk s.timers.timebaseFrequency now
  | .init _ now => clockOk s.timers.timebaseFrequency now
  | _ => true

def clockedOp (s : TimerState) (op : TimerOp) : Bool := op.allowed s && op.clocked s

def TimerState.inService (s : TimerState) : Prop :=
  s.runner.isAsked .timer = true ∨ ∃ at', s.handler = some at' ∧ at' ≠ .finished

structure DeadlineOk (s : TimerState) (queue : List Addr) : Prop where
  timers : TimersOk s.timers queue
  filled : ∀ i n, s.adds i = some (.filled n) → expireOf s.timers n ≠ 0
  ready : s.ready = true → s.timers.enabled = true
  source : s.ready = true → s.timers.stie = true ∨ s.inService
  opened : s.timers.enabled = true → s.ready = true ∨ ∃ i, s.inits i = true

theorem timerStart_deadline (timebaseFreq : UInt32) (event : Addr → TimerEvent) (sbiTimer : UInt64) (stie : Bool) :
    DeadlineOk (timerStart timebaseFreq event sbiTimer stie) [] where
  timers :=
    { pending := ⟨trivial, rfl⟩
      sorted := List.Pairwise.nil
      nonzero := by simp
      disabled := fun _ => rfl
      interval := fun on => by cases on
      tick := fun on => by cases on
      given := fun on => by cases on
      set := fun on => by cases on
      before_tick := fun on => by cases on
      before_events := fun on => by cases on }
  filled _ _ holds := by cases holds
  ready on := by cases on
  source on := by cases on
  opened on := by cases on

variable {now : UInt64}

section Steps

variable {s : TimerState} {place : Addr → Option Station} {queue : List Addr} {rests : Nat → List Addr}
  (own : OwnOk s place queue rests) (ok : DeadlineOk s queue)
include own ok

omit own in
theorem DeadlineOk.alike {s' : TimerState} {queue' : List Addr} (after : TimersOk s'.timers queue')
    (alike : Alike s.timers s'.timers) (ready : s'.ready = s.ready) (inits : s'.inits = s.inits)
    (filled : ∀ i n, s'.adds i = some (.filled n) → s.adds i = some (.filled n))
    (service : s.inService → s'.inService) : DeadlineOk s' queue' where
  timers := after
  filled i n holds := by
    rw [alike.data.expires]
    exact ok.filled i n (filled i n holds)
  ready on := by
    rw [alike.enabled]
    exact ok.ready (ready ▸ on)
  source on := by
    rw [alike.stie]
    exact (ok.source (ready ▸ on)).imp_right service
  opened on := by
    rw [ready, inits]
    exact ok.opened (alike.enabled ▸ on)

omit own in
theorem DeadlineOk.runs {s' : TimerState} (timers : s'.timers = s.timers) (ready : s'.ready = s.ready)
    (inits : s'.inits = s.inits) (filled : ∀ i n, s'.adds i = some (.filled n) → s.adds i = some (.filled n))
    (service : s.inService → s'.inService) : DeadlineOk s' queue :=
  ok.alike (timers ▸ ok.timers) (timers ▸ .refl _) ready inits filled service

theorem DeadlineOk.add (i : Nat) (callback arg duration cleanup : UInt64) {node : Option Addr}
    (free : ∀ n, node = some n → s.record.owner n = none) (nonzero : now ≠ 0) :
    DeadlineOk (addStep i callback arg duration cleanup node now s) queue := by
  unfold addStep
  split
  · exact ok
  · cases node with
    | none => exact ok
    | some n =>
      have absent := own.fresh (free n rfl)
      dsimp only
      split
      · refine ok.runs rfl rfl rfl (fun j m holds => ?_) id
        by_cases here : j = i
        · simp [here] at holds
        · simpa [here] using holds
      next fits =>
        constructor
        · exact ok.timers.fill (absent .pending) callback arg duration cleanup now
        · intro j m holds
          by_cases here : j = i
          · obtain rfl : n = m := by simpa [here] using holds
            exact fillEvent_expire nonzero (by simpa using fits) n callback arg cleanup s.timers
          · -- another call has another node
            have held : s.adds j = some (.filled m) := by simpa [here] using holds
            have other : m ≠ n := fun same => absent (.filled j) (same ▸ held)
            have before := ok.filled j m held
            simpa [expireOf, fillEvent, other] using before
        · exact ok.ready
        · exact ok.source
        · exact ok.opened

theorem DeadlineOk.insert (i : Nat) : ∃ s' queue, insertStep i s = some s' ∧ DeadlineOk s' queue := by
  unfold insertStep
  cases holds : s.adds i with
  | none => exact ⟨s, queue, rfl, ok⟩
  | some held =>
    cases held with
    | refused n => exact ⟨s, queue, rfl, ok⟩
    | filled n =>
      dsimp only
      split
      · refine ⟨_, queue, rfl, ok.runs rfl rfl rfl (fun j m filled => ?_) id⟩
        by_cases here : j = i
        · simp [here] at filled
        · simpa [here] using filled
      next on =>
        have enabled : s.timers.enabled = true := by simpa using on
        have absent : n ∉ queue := fun inside => by
          cases own.unique (show Stands s queue rests n .pending from inside)
            (show Stands s queue rests n (.filled i) from holds)
        obtain ⟨t, walk, after, alike⟩ := ok.timers.insert enabled absent (ok.filled i n holds)
        rw [walk, Option.map_some]
        refine ⟨_, inserted s.timers n queue, rfl, ok.alike after alike rfl rfl (fun j m filled => ?_) id⟩
        by_cases here : j = i
        · simp [here] at filled
        · simpa [here] using filled

omit own in
theorem DeadlineOk.handles {timers : Timers} {queue' : List Addr} (after : TimersOk timers queue')
    (alike : Alike s.timers timers) {at' : HandlerPlace} (more : at' ≠ .finished)
    {record : Lifecycle.Record Addr Happening} :
    DeadlineOk { s with timers := timers, handler := some at', record := record } queue' :=
  ok.alike after alike rfl rfl (fun _ _ => id) fun _ => Or.inr ⟨at', rfl, more⟩

omit own in
theorem DeadlineOk.fire (n : Addr) (budget : Nat) (firing : Firing) :
    DeadlineOk (fireStep n budget s firing) queue := by
  cases firing with
  | detached | inside | cleaning | release => exact ok.handles ok.timers (.refl _) (by simp)
  | returned =>
    unfold fireStep
    dsimp only
    split <;> exact ok.handles ok.timers (.refl _) (by simp)

omit own in
theorem DeadlineOk.rearm (now : UInt64) :
    DeadlineOk
      { s with
        timers := (timerRearm now s.timers s.runner).1
        runner := (timerRearm now s.timers s.runner).2
        handler := some .finished }
      queue := by
  obtain ⟨-, event, -⟩ := timerRearm_frame now s.timers s.runner
  refine ⟨ok.timers.rearm now s.runner, fun i n holds => ?_, fun on => ?_, fun on => Or.inl ?_, fun on => ?_⟩
  · rw [expireOf, event]
    exact ok.filled i n holds
  · exact (timerRearm_on (ok.ready on) now s.runner).1
  · exact (timerRearm_on (ok.ready on) now s.runner).2.1
  · have enabled : (timerRearm now s.timers s.runner).1.enabled = true := on
    cases before : s.timers.enabled with
    | true => exact ok.opened before
    | false => simp [timerRearm, before] at enabled

theorem DeadlineOk.work (clock : clockOk s.timers.timebaseFrequency now = true) :
    ∃ s' queue, handlerStep now s = some s' ∧ DeadlineOk s' queue := by
  unfold handlerStep
  cases inside : s.handler with
  | none => exact ⟨s, queue, rfl, ok⟩
  | some before =>
    cases before with
    | enter =>
      dsimp only
      split
      next off =>
        refine ⟨_, queue, rfl, ok.timers, ok.filled, ok.ready, fun on => ?_, ok.opened⟩
        have enabled := ok.ready on
        rw [off] at enabled
        cases enabled
      · split
        · exact ⟨_, queue, rfl, ok.timers.source true, ok.filled, ok.ready, fun _ => Or.inl rfl, ok.opened⟩
        · exact ⟨_, queue, rfl, ok.handles ok.timers (.refl _) (by simp)⟩
    | loop budget =>
      cases budget with
      | zero => exact ⟨_, queue, rfl, ok.handles ok.timers (.refl _) (by simp)⟩
      | succ budget =>
        obtain ⟨node, t, queue', turn, after, alike⟩ := ok.timers.turn clock
        dsimp only
        rw [turn, Option.map_some]
        cases node with
        | none => exact ⟨_, queue', rfl, ok.handles after alike (by simp)⟩
        | some n => exact ⟨_, queue', rfl, ok.handles after alike (by simp)⟩
    | event n firing budget => exact ⟨_, queue, rfl, ok.fire n budget firing⟩
    | last => exact ⟨_, queue, rfl, ok.rearm now⟩
    | finished =>
      refine ⟨_, queue, rfl, ok.runs rfl rfl rfl (fun _ _ => id) fun service => Or.inl ?_⟩
      rw [own.runner.returns_asked]
      rcases service with asked | ⟨at', spot, more⟩
      · exact asked
      · rw [inside] at spot
        exact absurd (Option.some.inj spot).symm more

omit own in
theorem DeadlineOk.drop (j : Nat) : DeadlineOk (dropStep j s) queue := by
  unfold dropStep discardStep
  cases s.halts j with
  | none => exact ok
  | some spot =>
    cases spot with
    | test pending => cases pending <;> exact ok.runs rfl rfl rfl (fun _ _ => id) id
    | event n dropping pending =>
      cases dropping with
      | cleaning | release => exact ok.runs rfl rfl rfl (fun _ _ => id) id
      | discard =>
        dsimp only
        split <;> exact ok.runs rfl rfl rfl (fun _ _ => id) id

omit own in
theorem DeadlineOk.init (i : Nat) (clock : clockOk s.timers.timebaseFrequency now = true) :
    DeadlineOk { s with timers := timerInit now s.timers, inits := Function.update s.inits i true } queue := by
  obtain ⟨deadline, sbi, programmed⟩ := timerReprogramLocked_eq { s.timers with
    enabled := true
    schedTickInterval := tickInterval s.timers.timebaseFrequency
    schedTickDeadline := now + tickInterval s.timers.timebaseFrequency }
  have after := ok.timers.init clock
  rw [timerInit, programmed] at after ⊢
  exact ⟨after, ok.filled, fun _ => rfl, ok.source, fun _ => Or.inr ⟨i, by simp⟩⟩

theorem DeadlineOk.advance :
    DeadlineOk
      { s with
        runner := Irq.advance s.runner
        handler := if s.runner.starts = some .timer then some .enter else s.handler }
      queue := by
  refine ok.runs rfl rfl rfl (fun _ _ => id) fun service => ?_
  by_cases starts : s.runner.starts = some .timer
  · exact Or.inr ⟨.enter, if_pos starts, by simp⟩
  · simp only [TimerState.inService, if_neg starts, own.runner.advance_asked starts]
    exact service

theorem DeadlineOk.step {op : TimerOp} (may : clockedOp s op = true) :
    ∃ s' queue, timerStep s op = some s' ∧ DeadlineOk s' queue := by
  obtain ⟨may, clock⟩ := Bool.and_eq_true_iff.mp may
  cases op with
  | add i callback arg duration cleanup node now =>
    obtain ⟨-, free⟩ : s.adds i = none ∧ node.bind s.record.owner = none := by
      simpa [TimerOp.allowed] using may
    have nonzero : now ≠ 0 := by
      simp only [TimerOp.clocked, clockOk, Bool.and_eq_true, decide_eq_true_eq] at clock
      exact clock.1
    exact ⟨_, queue, rfl,
      ok.add own i callback arg duration cleanup (fun n given => by simpa [given] using free) nonzero⟩
  | insert i => exact ok.insert own i
  | giveBack i =>
    refine ⟨_, queue, rfl, ?_⟩
    unfold giveBackStep
    split
    · refine ok.runs rfl rfl rfl (fun j m holds => ?_) id
      by_cases here : j = i
      · simp [here] at holds
      · simpa [here] using holds
    · exact ok
  | irqTop =>
    refine ⟨_, queue, rfl, ok.timers.source false, ok.filled, ok.ready, fun _ => Or.inr (Or.inl ?_), ok.opened⟩
    simp [raiseTimer, raiseBottomHalf_asked]
  | work now => exact ok.work own clock
  | stop j =>
    exact ⟨_, [], rfl, TimersOk.stop s.runner, ok.filled, fun on => (by cases on), fun on => (by cases on),
      fun on => (by cases on)⟩
  | drop j => exact ⟨_, queue, rfl, ok.drop j⟩
  | init i now =>
    simp only [timerStep]
    split
    · exact ⟨s, queue, rfl, ok⟩
    · exact ⟨_, queue, rfl, ok.init i clock⟩
  | unmask i =>
    simp only [timerStep]
    split
    · exact ⟨_, queue, rfl, ok.timers.source true, ok.filled, id, fun _ => Or.inl rfl, Or.inl⟩
    · exact ⟨s, queue, rfl, ok⟩
  | raise type =>
    refine ⟨_, queue, rfl, ok.runs rfl rfl rfl (fun _ _ => id) fun service => ?_⟩
    exact service.imp_left (raiseBottomHalf_asked_of type)
  | clear type =>
    have other : type ≠ UInt32.ofNat BottomHalf.timer.bit := by simpa [TimerOp.allowed] using may
    refine ⟨_, queue, rfl, ok.runs rfl rfl rfl (fun _ _ => id) fun service => service.imp_left fun asked => ?_⟩
    rw [clearBottomHalf_asked_other other]
    exact asked
  | run =>
    refine ⟨_, queue, rfl, ok.runs rfl rfl rfl (fun _ _ => id) fun service => service.imp_left fun asked => ?_⟩
    rw [(own.runner.run_types .timer).1]
    exact asked
  | advance => exact ⟨_, queue, rfl, ok.advance own⟩
  | finish =>
    refine ⟨_, queue, rfl, ?_⟩
    split
    · refine ok.runs rfl rfl rfl (fun _ _ => id) fun service => service.imp_left fun asked => ?_
      rw [own.runner.returns_asked]
      exact asked
    · exact ok

end Steps

theorem clockedOp_allowed (s : TimerState) (op : TimerOp) (may : clockedOp s op = true) : op.allowed s = true :=
  (Bool.and_eq_true_iff.mp may).1

theorem timerRun_deadline {s : TimerState} (run : TimerRun clockedOp s) :
    ∃ place queue rests, OwnOk s place queue rests ∧ DeadlineOk s queue := by
  induction run with
  | start timebaseFreq event sbiTimer stie =>
    exact ⟨_, [], _, timerStart_own timebaseFreq event sbiTimer stie,
      timerStart_deadline timebaseFreq event sbiTimer stie⟩
  | step op _ may steps ih =>
    obtain ⟨place, queue, rests, own, ok⟩ := ih
    obtain ⟨place', queue', rests', ownAfter⟩ := own.step (clockedOp_allowed _ op may) steps
    obtain ⟨after, queue'', ends, okAfter⟩ := ok.step own may
    obtain rfl := Option.some.inj (steps.symm.trans ends)
    -- the links leave no choice for the queue
    obtain rfl := ownAfter.pending.unique okAfter.timers.pending
    exact ⟨place', queue', rests', ownAfter, okAfter⟩

theorem DeadlineOk.again {s : TimerState} {queue : List Addr} (ok : DeadlineOk s queue)
    (due : ∃ n ∈ queue, (s.timers.event n).expire ≤ now) :
    (timerRearm now s.timers s.runner).2.isPending .timer = true := by
  obtain ⟨n, member, late⟩ := due
  have enabled : s.timers.enabled = true := by
    cases on : s.timers.enabled with
    | true => rfl
    | false =>
      rw [ok.timers.disabled on] at member
      cases member
  rw [(timerRearm_on enabled now s.runner).2.2, ok.timers.headDue_of member late, if_pos rfl, raiseTimer,
    raiseBottomHalf_pending]
  simp

theorem timerRun_programmed {s : TimerState} (run : TimerRun clockedOp s) :
    ∃ queue, Stack (nextOf s.timers) s.timers.head queue ∧
      (s.timers.enabled = true →
        Sorted (expireOf s.timers) queue ∧ s.timers.sbiTimer = s.timers.nextDeadline ∧
        s.timers.nextDeadline ≠ 0 ∧
          s.timers.nextDeadline ≤ s.timers.schedTickDeadline ∧
          (∀ n ∈ queue, s.timers.nextDeadline ≤ (s.timers.event n).expire) ∧
          (s.ready = true ∨ (∀ i, s.inits i = false) → s.timers.stie = false →
            s.runner.isPending .timer = true ∨ s.runner.isSelected .timer = true ∨
              s.runner.isActive .timer = true ∧ s.handler ≠ some .finished)) ∧
      ∀ now s', s.handler = some .last → timerStep s (.work now) = some s' →
        s'.timers.head = s.timers.head ∧ s'.timers.event = s.timers.event ∧
          ((∃ n ∈ queue, (s'.timers.event n).expire ≤ now) → s'.runner.isPending .timer = true) := by
  obtain ⟨place, queue, rests, own, ok⟩ := timerRun_deadline run
  refine ⟨queue, own.pending, fun on => ⟨ok.timers.sorted, ok.timers.given on, nat_ne_zero.mp (ok.timers.set on),
    UInt64.le_iff_toNat_le.mpr (ok.timers.before_tick on),
    fun n member => UInt64.le_iff_toNat_le.mpr (ok.timers.before_events on n member), fun returned masked => ?_⟩,
    fun now s' last steps => ?_⟩
  · have ready : s.ready = true := by
      rcases ok.opened on with ready | ⟨i, unfinished⟩
      · exact ready
      · rcases returned with ready | closed
        · exact ready
        · rw [closed i] at unfinished
          cases unfinished
    rcases ok.source ready with unmasked | asked | ⟨spot, inside, more⟩
    · rw [masked] at unmasked
      cases unmasked
    · exact (Bool.or_eq_true_iff.mp asked).imp_right Or.inl
    · have active := own.handler
      rw [inside] at active
      exact Or.inr (Or.inr ⟨active.symm, by simpa [inside] using more⟩)
  · obtain ⟨head, event, -⟩ := timerRearm_frame now s.timers s.runner
    simp only [timerStep, handlerStep, last] at steps
    cases steps
    exact ⟨head, event, fun due => ok.again (by rwa [event] at due)⟩

def maskedSample : List TimerOp :=
  [.init 0 10, .unmask 0, .add 0 0x1000 1 2 0 (some 0x100) 11, .insert 0, .irqTop]

theorem timerRun_programmed_maskedSample :
    ∃ s, runOps clockedOp maskedSample noTimers = some s ∧ s.timers.nextDeadline = 13 ∧ s.timers.stie = false ∧
      s.ready = true ∧
      (s.runner.isPending .timer = true ∨ s.runner.isSelected .timer = true ∨
        s.runner.isActive .timer = true ∧ s.handler ≠ some .finished) := by
  obtain ⟨s, runs⟩ : ∃ s, runOps clockedOp maskedSample noTimers = some s :=
    Option.isSome_iff_exists.mp (by decide +kernel)
  have facts : (runOps clockedOp maskedSample noTimers).map
      (fun s => (s.timers.nextDeadline, s.timers.stie, s.ready, s.timers.enabled)) = some (13, false, true, true) := by
    decide +kernel
  rw [runs, Option.map_some, Option.some.injEq, Prod.mk.injEq, Prod.mk.injEq, Prod.mk.injEq] at facts
  obtain ⟨deadline, masked, ready, enabled⟩ := facts
  obtain ⟨queue, -, programmed, -⟩ := timerRun_programmed (timerRun_runOps maskedSample (.start _ _ _ _) runs)
  obtain ⟨-, -, -, -, -, service⟩ := programmed enabled
  exact ⟨s, runs, deadline, masked, ready, service (Or.inl ready) masked⟩

end OrangeKernel.Timer
