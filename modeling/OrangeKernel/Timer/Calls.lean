import OrangeKernel.Shared.Lifecycle
import OrangeKernel.Timer.Queue

set_option autoImplicit false

-- A step is a section with interrupts off or one action outside of such a section. While a callback
-- or a cleanup function runs, every other step is possible, so they may add and stop timers
-- themselves.

namespace OrangeKernel.Timer

open Function Irq Lifecycle

inductive Happening where
  | registered
  | called (callback arg : UInt64)
  | returned
  | discarded
  | cleanup (cleanup arg : UInt64)
  | cleaned
  | freed
deriving DecidableEq, Repr

structure Request where
  callback : UInt64
  arg : UInt64
  cleanup : UInt64
deriving DecidableEq, Repr

inductive AddPlace where
  | filled (node : Addr)
  -- The node goes back, and the call returns -1.
  | refused (node : Addr)
deriving DecidableEq, Repr

inductive Firing where
  | detached
  | inside
  | returned
  | cleaning
  | release
deriving DecidableEq, Repr

inductive HandlerPlace where
  | enter
  | loop (budget : Nat)
  | event (node : Addr) (firing : Firing) (budget : Nat)
  | last
  | finished
deriving DecidableEq, Repr

inductive Dropping where
  | discard
  | cleaning
  | release
deriving DecidableEq, Repr

inductive StopPlace where
  | test (pending : Option Addr)
  | event (node : Addr) (dropping : Dropping) (pending : Option Addr)
deriving DecidableEq, Repr

structure TimerState where
  timers : Timers
  runner : Runner
  handler : Option HandlerPlace
  adds : Nat → Option AddPlace
  halts : Nat → Option StopPlace
  inits : Nat → Bool
  -- A `timer_init` has returned since the timer was enabled.
  ready : Bool
  requests : List Request
  record : Record Addr Happening

inductive TimerOp where
  -- `node` is what `kmalloc` answers.
  | add (i : Nat) (callback arg duration cleanup : UInt64) (node : Option Addr) (now : UInt64)
  | insert (i : Nat)
  | giveBack (i : Nat)
  | irqTop
  | work (now : UInt64)
  | stop (j : Nat)
  | drop (j : Nat)
  | init (i : Nat) (now : UInt64)
  | unmask (i : Nat)
  | raise (type : UInt32)
  | clear (type : UInt32)
  | run
  | advance
  | finish

def addStep (i : Nat) (callback arg duration cleanup : UInt64) (node : Option Addr) (now : UInt64) (s : TimerState) :
    TimerState :=
  if callback = 0 ∨ s.timers.timebaseFrequency = 0 then s
  else
    match node with
    | none => s
    | some n =>
      let taken := { s with
        requests := s.requests ++ [Request.mk callback arg cleanup]
        record := s.record.take n }
      if expireOverflows now duration then
        { taken with adds := update s.adds i (some (.refused n)) }
      else
        { taken with
          timers := fillEvent n callback arg duration cleanup now s.timers
          adds := update s.adds i (some (.filled n)) }

def insertStep (i : Nat) (s : TimerState) : Option TimerState :=
  match s.adds i with
  | some (.filled n) =>
    if s.timers.enabled = false then
      some { s with adds := update s.adds i (some (.refused n)) }
    else
      (insertEvent n s.timers).map fun timers =>
        { s with
          timers := timers
          adds := update s.adds i none
          record := s.record.note n .registered }
  | _ => some s

def giveBackStep (i : Nat) (s : TimerState) : TimerState :=
  match s.adds i with
  | some (.refused n) =>
    { s with
      adds := update s.adds i none
      record := s.record.giveBack n .freed }
  | _ => s

def fireStep (node : Addr) (budget : Nat) (s : TimerState) : Firing → TimerState
  | .detached =>
    { s with
      handler := some (.event node .inside budget)
      record := s.record.note node (.called (s.timers.event node).callback (s.timers.event node).arg) }
  | .inside =>
    { s with
      handler := some (.event node .returned budget)
      record := s.record.note node .returned }
  | .returned =>
    if (s.timers.event node).cleanup ≠ 0 then
      { s with
        handler := some (.event node .cleaning budget)
        record := s.record.note node (.cleanup (s.timers.event node).cleanup (s.timers.event node).arg) }
    else { s with handler := some (.event node .release budget) }
  | .cleaning =>
    { s with
      handler := some (.event node .release budget)
      record := s.record.note node .cleaned }
  | .release =>
    { s with
      handler := some (.loop budget)
      record := s.record.giveBack node .freed }

def handlerStep (now : UInt64) (s : TimerState) : Option TimerState :=
  match s.handler with
  | none => some s
  | some .enter =>
    if s.timers.enabled = false then some { s with handler := some .finished }
    else if s.timers.timebaseFrequency = 0 then
      some { s with
        timers := timerSourceUnmask s.timers
        handler := some .finished }
    else some { s with handler := some (.loop timerEventBudget) }
  | some (.loop 0) => some { s with handler := some .last }
  | some (.loop (budget + 1)) =>
    (timerTurn now s.timers).map fun (node, timers) =>
      { s with
        timers := timers
        handler := match node with
          | some n => some (.event n .detached budget)
          | none => some .last }
  | some (.event node firing budget) => some (fireStep node budget s firing)
  | some .last =>
    let (timers, runner) := timerRearm now s.timers s.runner
    some { s with
      timers := timers
      runner := runner
      handler := some .finished }
  | some .finished =>
    some { s with
      runner := handlerReturns s.runner
      handler := none }

def discardStep (j : Nat) (node : Addr) (pending : Option Addr) (s : TimerState) : Dropping → TimerState
  | .discard =>
    if (s.timers.event node).cleanup ≠ 0 then
      { s with
        halts := update s.halts j (some (.event node .cleaning pending))
        record := s.record.note node (.cleanup (s.timers.event node).cleanup (s.timers.event node).arg) }
    else { s with halts := update s.halts j (some (.event node .release pending)) }
  | .cleaning =>
    { s with
      halts := update s.halts j (some (.event node .release pending))
      record := s.record.note node .cleaned }
  | .release =>
    { s with
      halts := update s.halts j (some (.test pending))
      record := s.record.giveBack node .freed }

def dropStep (j : Nat) (s : TimerState) : TimerState :=
  match s.halts j with
  | none => s
  | some (.test none) => { s with halts := update s.halts j none }
  | some (.test (some node)) =>
    { s with
      halts := update s.halts j (some (.event node .discard (s.timers.event node).next))
      record := s.record.note node .discarded }
  | some (.event node dropping pending) => discardStep j node pending s dropping

def timerStep (s : TimerState) : TimerOp → Option TimerState
  | .add i callback arg duration cleanup node now => some (addStep i callback arg duration cleanup node now s)
  | .insert i => insertStep i s
  | .giveBack i => some (giveBackStep i s)
  | .irqTop =>
    let (timers, runner) := timerIrqTop s.timers s.runner
    some { s with
      timers := timers
      runner := runner }
  | .work now => handlerStep now s
  | .stop j =>
    let (timers, runner) := timerStop s.timers s.runner
    some { s with
      timers := timers
      runner := runner
      halts := update s.halts j (some (.test s.timers.head))
      ready := false }
  | .drop j => some (dropStep j s)
  | .init i now =>
    if s.timers.timebaseFrequency = 0 then some s
    else
      some { s with
        timers := timerInit now s.timers
        inits := update s.inits i true }
  | .unmask i =>
    if s.inits i then
      some { s with
        timers := timerSourceUnmask s.timers
        inits := update s.inits i false
        ready := s.timers.enabled }
    else some s
  | .raise type => some { s with runner := raiseBottomHalf type s.runner }
  | .clear type => some { s with runner := clearBottomHalf type s.runner }
  | .run => some { s with runner := runBottomHalves s.runner }
  | .advance =>
    some { s with
      runner := Irq.advance s.runner
      handler := if s.runner.starts = some .timer then some .enter else s.handler }
  | .finish => some (if s.handler = none then { s with runner := handlerReturns s.runner } else s)

-- A new call has a new number, `kmalloc` answers no block that is taken, and nobody else raises or
-- clears the type.
def TimerOp.allowed (s : TimerState) : TimerOp → Bool
  | .add i _ _ _ _ node _ => (s.adds i).isNone && (node.bind s.record.owner).isNone
  | .stop j => (s.halts j).isNone
  | .init i _ => !s.inits i
  | .raise type => type ≠ UInt32.ofNat BottomHalf.timer.bit
  | .clear type => type ≠ UInt32.ofNat BottomHalf.timer.bit
  | _ => true

def timerStart (timebaseFreq : UInt32) (event : Addr → TimerEvent) (sbiTimer : UInt64) (stie : Bool) : TimerState :=
  { timers := timerInitState timebaseFreq
      { timebaseFrequency := 0
        nextDeadline := 0
        head := none
        enabled := false
        schedTickInterval := 0
        schedTickDeadline := 0
        event := event
        sbiTimer := sbiTimer
        stie := stie }
    runner := bottomHalfInit
    handler := none
    adds := fun _ => none
    halts := fun _ => none
    inits := fun _ => false
    ready := false
    requests := []
    record := noLives }

inductive TimerRun (allowed : TimerState → TimerOp → Bool) : TimerState → Prop where
  | start (timebaseFreq : UInt32) (event : Addr → TimerEvent) (sbiTimer : UInt64) (stie : Bool) :
      TimerRun allowed (timerStart timebaseFreq event sbiTimer stie)
  | step {s s' : TimerState} (op : TimerOp) (run : TimerRun allowed s) (may : allowed s op = true)
      (steps : timerStep s op = some s') : TimerRun allowed s'

end OrangeKernel.Timer
