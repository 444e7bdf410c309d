import OrangeKernel.Irq.BottomHalf
import OrangeKernel.Shared.Heads
import Mathlib.Data.List.FinRange

set_option autoImplicit false

-- `custom_work.c`, cut wherever interrupts are on, also between the loads of its loop.

namespace OrangeKernel.Irq

def customWorkCapacity : Nat := 32

abbrev Slot := Fin customWorkCapacity

structure Work where
  callback : UInt64
  arg : UInt64
  next : Option Slot
  allocated : Bool

structure Custom where
  pool : Slot → Work
  head : Option Slot
  tail : Option Slot

def customWorkInit (c : Custom) : Custom :=
  { pool := fun i => { c.pool i with allocated := false }
    head := none
    tail := none }

def freeSlot (c : Custom) : Option Slot := (List.finRange customWorkCapacity).find? fun i => !(c.pool i).allocated

def appendWork (i : Slot) (callback arg : UInt64) (c : Custom) : Custom :=
  let filled := Function.update c.pool i ⟨callback, arg, none, true⟩
  match c.tail with
  | some last =>
    { c with
      pool := Function.update filled last { filled last with next := some i }
      tail := some i }
  | none =>
    { pool := filled
      head := some i
      tail := some i }

def deferCallback (callback arg : UInt64) (c : Custom) (r : Runner) : Int × Custom × Runner :=
  if callback = 0 then (-1, c, r)
  else
    match freeSlot c with
    | none => (-1, c, r)
    | some i => (0, appendWork i callback arg c, raiseBottomHalf (UInt32.ofNat BottomHalf.custom.bit) r)

inductive Cursor where
  | enter
  | test (work : Option Slot)
  -- `next` is loaded, the callback not called yet.
  | loaded (work : Slot) (next : Option Slot)
  | inside (work : Slot) (next : Option Slot)
  -- The callback has returned; its slot is not released yet.
  | returned (work : Slot) (next : Option Slot)
deriving DecidableEq

structure CustomState where
  runner : Runner
  custom : Custom
  cursor : Option Cursor
  accepted : List (UInt64 × UInt64)
  started : List (UInt64 × UInt64)
  holder : Slot → Option Nat

def payload (c : Custom) (i : Slot) : UInt64 × UInt64 := ((c.pool i).callback, (c.pool i).arg)

inductive CustomOp where
  | defer (callback arg : UInt64)
  | raise (type : UInt32)
  | clear (type : UInt32)
  | run
  | advance
  -- A handler of another type returns.
  | finish
  | work

def deferStep (callback arg : UInt64) (s : CustomState) : CustomState :=
  let (ret, custom, runner) := deferCallback callback arg s.custom s.runner
  if ret ≠ 0 then s
  else
    { s with
      runner := runner
      custom := custom
      accepted := s.accepted ++ [(callback, arg)]
      holder := match freeSlot s.custom with
        | some i => Function.update s.holder i (some s.accepted.length)
        | none => s.holder }

def workStep (s : CustomState) : CustomState :=
  match s.cursor with
  | none => s
  | some .enter =>
    -- new submissions go to a fresh list
    { s with
      cursor := some (.test s.custom.head)
      custom := { s.custom with head := none, tail := none } }
  | some (.test none) =>
    { s with
      cursor := none
      runner := handlerReturns s.runner }
  | some (.test (some w)) => { s with cursor := some (.loaded w (s.custom.pool w).next) }
  | some (.loaded w next) =>
    { s with
      cursor := some (.inside w next)
      started := s.started ++ [payload s.custom w] }
  | some (.inside w next) => { s with cursor := some (.returned w next) }
  | some (.returned w next) =>
    { s with
      cursor := some (.test next)
      custom := { s.custom with
        pool := Function.update s.custom.pool w { s.custom.pool w with allocated := false } }
      holder := Function.update s.holder w none }

def customStep (s : CustomState) : CustomOp → CustomState
  | .defer callback arg => deferStep callback arg s
  | .raise type => { s with runner := raiseBottomHalf type s.runner }
  | .clear type => { s with runner := clearBottomHalf type s.runner }
  | .run => { s with runner := runBottomHalves s.runner }
  | .advance =>
    { s with
      runner := Irq.advance s.runner
      cursor := if s.runner.starts = some .custom then some .enter else s.cursor }
  | .finish => if s.cursor = none then { s with runner := handlerReturns s.runner } else s
  | .work => workStep s

-- Nobody clears the bit of the callbacks.
def CustomOp.allowed : CustomOp → Bool
  | .clear type => type ≠ UInt32.ofNat BottomHalf.custom.bit
  | _ => true

def customStart (c : Custom) : CustomState :=
  { runner := bottomHalfInit
    custom := customWorkInit c
    cursor := none
    accepted := []
    started := []
    holder := fun _ => none }

inductive CustomRun : CustomState → Prop where
  | start (c : Custom) : CustomRun (customStart c)
  | step {s : CustomState} (op : CustomOp) (run : CustomRun s) (allowed : op.allowed = true) :
      CustomRun (customStep s op)

end OrangeKernel.Irq
