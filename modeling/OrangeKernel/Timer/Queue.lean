import OrangeKernel.Irq.BottomHalf
import OrangeKernel.Shared.Heads
import OrangeKernel.Shared.SortedQueue
import OrangeKernel.Thread.State

set_option autoImplicit false

-- `timer.c`, one definition per section with interrupts off. What `rdtime` answers comes with each
-- section. A null pointer to an event is `none`, a null function is 0. A walk that does not end is
-- `none`.

namespace OrangeKernel.Timer

open Irq Intrusive SortedQueue

open Thread (walkLimit)

abbrev Addr := UInt64

structure TimerEvent where
  expire : UInt64
  callback : UInt64
  cleanup : UInt64
  arg : UInt64
  next : Option Addr
deriving DecidableEq, Repr

structure Timers where
  timebaseFrequency : UInt32
  nextDeadline : UInt64
  head : Option Addr
  enabled : Bool
  schedTickInterval : UInt64
  schedTickDeadline : UInt64
  event : Addr → TimerEvent
  sbiTimer : UInt64
  -- The bit `SIE_STIE` of `sie`.
  stie : Bool

def timerEventBudget : Nat := 16

def timerSourceMask (t : Timers) : Timers := { t with stie := false }

def timerSourceUnmask (t : Timers) : Timers := { t with stie := true }

def timerProgramAbs (deadline : UInt64) (t : Timers) : Timers :=
  { t with
    nextDeadline := deadline
    sbiTimer := deadline }

def tickDeadline (t : Timers) : UInt64 :=
  if t.schedTickInterval ≠ 0 ∧ t.schedTickDeadline ≠ 0 then t.schedTickDeadline else 0

def earliestDeadline (t : Timers) : UInt64 :=
  match t.head with
  | none => tickDeadline t
  | some head =>
    if tickDeadline t = 0 ∨ (t.event head).expire < tickDeadline t then (t.event head).expire else tickDeadline t

def timerReprogramLocked (t : Timers) : Timers :=
  if earliestDeadline t ≠ 0 then timerProgramAbs (earliestDeadline t) t
  else
    { t with
      nextDeadline := 0
      sbiTimer := 0xffffffffffffffff }

def timerInitState (timebaseFreq : UInt32) (t : Timers) : Timers :=
  { t with
    timebaseFrequency := timebaseFreq
    nextDeadline := 0
    schedTickInterval := 0
    schedTickDeadline := 0 }

def tickInterval (timebaseFrequency : UInt32) : UInt64 :=
  if 20 ≤ timebaseFrequency then timebaseFrequency.toUInt64 / 20 else 1

def timerInit (now : UInt64) (t : Timers) : Timers :=
  timerReprogramLocked { t with
    enabled := true
    schedTickInterval := tickInterval t.timebaseFrequency
    schedTickDeadline := now + tickInterval t.timebaseFrequency }

def Timers.setNext (node : Addr) (target : Option Addr) (t : Timers) : Timers :=
  { t with event := Function.update t.event node { t.event node with next := target } }

-- `*link = target`, where `link` is the address of `timer_head` or of the `next` field of a node.
def Timers.setLink (link target : Option Addr) (t : Timers) : Timers :=
  match link with
  | none => { t with head := target }
  | some node => t.setNext node target

def insertFrom (node : Addr) : (fuel : Nat) → (link cur : Option Addr) → Timers → Option Timers
  | 0, _, _, _ => none
  | fuel + 1, link, cur, t =>
    match cur with
    | none => some ((t.setNext node none).setLink link (some node))
    | some c =>
      if (t.event c).expire ≤ (t.event node).expire then insertFrom node fuel (some c) (t.event c).next t
      else some ((t.setNext node (some c)).setLink link (some node))

def insertEvent (node : Addr) (t : Timers) : Option Timers :=
  (insertFrom node walkLimit none t.head t).map timerReprogramLocked

def expireOverflows (now duration : UInt64) : Bool := 0xffffffffffffffff - now < duration

def fillEvent (node : Addr) (callback arg duration cleanup now : UInt64) (t : Timers) : Timers :=
  { t with
    event := Function.update t.event node
      { expire := now + duration
        callback := callback
        cleanup := cleanup
        arg := arg
        next := none } }

def raiseTimer (r : Runner) : Runner := raiseBottomHalf (UInt32.ofNat BottomHalf.timer.bit) r

def clearTimer (r : Runner) : Runner := clearBottomHalf (UInt32.ofNat BottomHalf.timer.bit) r

def timerIrqTop (t : Timers) (r : Runner) : Timers × Runner := (timerSourceMask t, raiseTimer r)

-- `while (interval != 0 && deadline <= now) deadline += interval`.
def catchUp (interval now : UInt64) : (fuel : Nat) → (deadline : UInt64) → Option UInt64
  | 0, _ => none
  | fuel + 1, deadline =>
    if interval ≠ 0 ∧ deadline ≤ now then catchUp interval now fuel (deadline + interval) else some deadline

def detachDue (now : UInt64) (t : Timers) : Option Addr × Timers :=
  match t.head with
  | none => (none, t)
  | some node =>
    if (t.event node).expire ≤ now then
      (some node, { t with head := (t.event node).next }.setNext node none)
    else (none, t)

def timerTurn (now : UInt64) (t : Timers) : Option (Option Addr × Timers) :=
  if t.enabled = false then some (none, t)
  else
    (catchUp t.schedTickInterval now walkLimit t.schedTickDeadline).map fun deadline =>
      detachDue now { t with schedTickDeadline := deadline }

def headDue (now : UInt64) (t : Timers) : Bool :=
  match t.head with
  | none => false
  | some head => (t.event head).expire ≤ now

def timerRearm (now : UInt64) (t : Timers) (r : Runner) : Timers × Runner :=
  if t.enabled = false then (t, r)
  else (timerSourceUnmask (timerReprogramLocked t), if headDue now t then raiseTimer r else r)

-- The list it takes off is `t.head`.
def timerStop (t : Timers) (r : Runner) : Timers × Runner :=
  ({ t with
      stie := false
      enabled := false
      head := none
      nextDeadline := 0
      schedTickInterval := 0
      schedTickDeadline := 0
      sbiTimer := 0xffffffffffffffff },
    clearTimer r)

def nextOf (t : Timers) (node : Addr) : Option Addr := (t.event node).next

def SameData (t t' : Timers) : Prop := ∀ n, { t'.event n with next := none } = { t.event n with next := none }

theorem SameData.refl (t : Timers) : SameData t t := fun _ => rfl

variable {t : Timers}

theorem SameData.trans {t' t'' : Timers} (first : SameData t t') (second : SameData t' t'') : SameData t t'' :=
  fun n => (second n).trans (first n)

theorem SameData.expire {t' : Timers} (same : SameData t t') (n : Addr) :
    (t'.event n).expire = (t.event n).expire :=
  (TimerEvent.mk.inj (same n)).1

theorem setNext_data (node : Addr) (target : Option Addr) (t : Timers) : SameData t (t.setNext node target) := by
  intro n
  by_cases here : n = node
  · simp [Timers.setNext, here]
  · simp [Timers.setNext, here]

theorem setLink_data (link target : Option Addr) (t : Timers) : SameData t (t.setLink link target) := by
  cases link with
  | none => exact fun _ => rfl
  | some node => exact setNext_data node target t

theorem nextOf_setNext (node : Addr) (target : Option Addr) (t : Timers) :
    nextOf (t.setNext node target) = Function.update (nextOf t) node target := by
  funext n
  by_cases here : n = node
  · simp [nextOf, Timers.setNext, here]
  · simp [nextOf, Timers.setNext, here]

theorem setLink_eq (link target : Option Addr) (t : Timers) :
    nextOf (t.setLink link target) = setAt (nextOf t) link target ∧
      (t.setLink link target).head = if link = none then target else t.head := by
  cases link with
  | none => exact ⟨rfl, rfl⟩
  | some node => exact ⟨nextOf_setNext node target t, rfl⟩

structure Relinked (t t' : Timers) (nodes : List Addr) : Prop where
  others : t' = { t with head := t'.head, event := t'.event }
  data : SameData t t'
  next : ∀ n, n ∉ nodes → nextOf t' n = nextOf t n

variable {node : Addr}

theorem insert_relinked {l r : List Addr} (stack : Stack (nextOf t) t.head (l ++ r)) (absent : node ∉ l ++ r) :
    Stack (nextOf ((t.setNext node r.head?).setLink l.getLast? (some node)))
        ((t.setNext node r.head?).setLink l.getLast? (some node)).head (l ++ node :: r) ∧
      Relinked t ((t.setNext node r.head?).setLink l.getLast? (some node)) (node :: (l ++ r)) := by
  obtain ⟨links, head⟩ := setLink_eq l.getLast? (some node) (t.setNext node r.head?)
  rw [links, head, nextOf_setNext]
  refine ⟨stack.insert absent, ?_, (setNext_data _ _ t).trans (setLink_data _ _ _), fun n outside => ?_⟩
  · cases l.getLast? <;> rfl
  · have other : n ≠ node := fun same => outside (same ▸ List.mem_cons_self)
    rw [links, nextOf_setNext, setAt_ne, Function.update_of_ne other]
    exact fun last => outside (List.mem_cons_of_mem _ (List.mem_append_left _ (List.mem_of_getLast? last)))

def expireOf (t : Timers) (node : Addr) : Nat := (t.event node).expire.toNat

theorem expireOverflows_iff (now duration : UInt64) :
    expireOverflows now duration = true ↔ 2 ^ 64 ≤ now.toNat + duration.toNat := by
  have small := now.toNat_lt
  have most : (0xffffffffffffffff : UInt64).toNat = 2 ^ 64 - 1 := rfl
  have left : (0xffffffffffffffff - now : UInt64).toNat = 2 ^ 64 - 1 - now.toNat := by
    rw [UInt64.toNat_sub_of_le _ _ (UInt64.le_iff_toNat_le.mpr (by rw [most]; omega)), most]
  rw [expireOverflows, decide_eq_true_iff, UInt64.lt_iff_toNat_lt, left]
  omega

theorem fillEvent_expireOf {now duration : UInt64} (fits : expireOverflows now duration = false) (node : Addr)
    (callback arg cleanup : UInt64) (t : Timers) :
    expireOf (fillEvent node callback arg duration cleanup now t) node = now.toNat + duration.toNat := by
  have room : ¬ 2 ^ 64 ≤ now.toNat + duration.toNat := fun large => by
    rw [(expireOverflows_iff now duration).mpr large] at fits
    cases fits
  have sum : expireOf (fillEvent node callback arg duration cleanup now t) node = (now + duration).toNat := by
    simp [expireOf, fillEvent]
  rw [sum, UInt64.toNat_add, Nat.mod_eq_of_lt (by omega)]

theorem insertFrom_stack (fuel : Nat) {l r : List Addr} (stack : Stack (nextOf t) t.head (l ++ r))
    (absent : node ∉ l ++ r) (enough : r.length < fuel) :
    ∃ t', insertFrom node fuel l.getLast? r.head? t = some t' ∧
      Stack (nextOf t') t'.head
        (l ++ (earlier (expireOf t) (expireOf t node) r ++ node :: later (expireOf t) (expireOf t node) r)) ∧
      Relinked t t' (node :: (l ++ r)) := by
  induction fuel generalizing l r with
  | zero => exact absurd enough (Nat.not_lt_zero _)
  | succ fuel ih =>
    cases r with
    | nil => exact ⟨_, rfl, insert_relinked stack absent⟩
    | cons c rest =>
      by_cases passes : (t.event c).expire ≤ (t.event node).expire
      · -- the node after `c` is the head of the rest
        have following : nextOf t c = rest.head? := stack.next_eq
        have whole : l ++ c :: rest = (l ++ [c]) ++ rest := by simp
        have small : expireOf t c ≤ expireOf t node := UInt64.le_iff_toNat_le.mp passes
        rw [whole] at stack absent
        obtain ⟨t', walk, after, relinked⟩ := ih stack absent (by simpa using enough)
        rw [List.getLast?_concat, ← following] at walk
        refine ⟨t', by simpa [insertFrom, passes, nextOf] using walk, ?_, by simpa using relinked⟩
        simpa [earlier, later, small] using after
      · have large : ¬ expireOf t c ≤ expireOf t node := fun le => passes (UInt64.le_iff_toNat_le.mpr le)
        obtain ⟨after, relinked⟩ := insert_relinked stack absent
        refine ⟨(t.setNext node (some c)).setLink l.getLast? (some node), by simp [insertFrom, passes],
          ?_, relinked⟩
        simpa [earlier, later, large] using after

def inserted (t : Timers) (node : Addr) (xs : List Addr) : List Addr :=
  earlier (expireOf t) (expireOf t node) xs ++ node :: later (expireOf t) (expireOf t node) xs

theorem mem_inserted (t : Timers) (node : Addr) (xs : List Addr) (n : Addr) :
    n ∈ inserted t node xs ↔ n = node ∨ n ∈ xs := by
  have whole : n ∈ xs ↔ n ∈ earlier (expireOf t) (expireOf t node) xs ∨
    n ∈ later (expireOf t) (expireOf t node) xs := by
    rw [← List.mem_append, earlier_append_later]
  rw [whole, inserted, List.mem_append, List.mem_cons]
  exact or_left_comm

variable {xs : List Addr}

theorem insertEvent_stack (stack : Stack (nextOf t) t.head xs) (absent : node ∉ xs) :
    ∃ t', insertEvent node t = some (timerReprogramLocked t') ∧
      Stack (nextOf t') t'.head (inserted t node xs) ∧ Relinked t t' (node :: xs) := by
  have enough : xs.length < walkLimit := Nat.lt_succ_of_le (length_le_of_nodup stack.nodup)
  have stack' : Stack (nextOf t) t.head ([] ++ xs) := stack
  obtain ⟨t', walk, after, relinked⟩ := insertFrom_stack walkLimit stack' absent enough
  refine ⟨t', ?_, after, relinked⟩
  rw [insertEvent, stack.first]
  exact congrArg (Option.map timerReprogramLocked) walk

theorem timerReprogramLocked_eq (t : Timers) :
    ∃ deadline sbi, timerReprogramLocked t = { t with nextDeadline := deadline, sbiTimer := sbi } := by
  unfold timerReprogramLocked
  split
  · exact ⟨_, _, rfl⟩
  · exact ⟨_, _, rfl⟩

theorem detachDue_cases (stack : Stack (nextOf t) t.head xs) (now : UInt64) :
    detachDue now t = (none, t) ∧ (∀ node rest, xs = node :: rest → now < (t.event node).expire) ∨
      ∃ node rest t', xs = node :: rest ∧ detachDue now t = (some node, t') ∧ (t.event node).expire ≤ now ∧
        Stack (nextOf t') t'.head rest ∧ Relinked t t' xs := by
  cases xs with
  | nil =>
    have none : t.head = none := stack.first
    exact Or.inl ⟨by simp [detachDue, none], by simp⟩
  | cons node rest =>
    have first : t.head = some node := stack.first
    by_cases due : (t.event node).expire ≤ now
    · have taken : detachDue now t = (some node, { t with head := (t.event node).next }.setNext node none) := by
        simp only [detachDue, first, if_pos due]
      have links := nextOf_setNext node none { t with head := (t.event node).next }
      have after := stack.pop.forget (List.nodup_cons.mp stack.nodup).1 none
      refine Or.inr
        ⟨node, rest, _, rfl, taken, due, links ▸ after, rfl, setNext_data node none _, fun n outside => ?_⟩
      have other : n ≠ node := fun same => outside (same ▸ List.mem_cons_self)
      rw [links, Function.update_of_ne other]
      rfl
    · refine Or.inl ⟨by simp only [detachDue, first, if_neg due], fun head tail same => ?_⟩
      obtain ⟨rfl, -⟩ := List.cons.inj same
      exact UInt64.not_le.mp due

inductive Turned (now : UInt64) (t : Timers) (xs : List Addr) : Option Addr × Timers → Prop where
  | off (disabled : t.enabled = false) : Turned now t xs (none, t)
  | idle (enabled : t.enabled = true) (deadline : UInt64)
      (ticks : catchUp t.schedTickInterval now walkLimit t.schedTickDeadline = some deadline) :
      Turned now t xs (none, { t with schedTickDeadline := deadline })
  | detached (enabled : t.enabled = true) (deadline : UInt64)
      (ticks : catchUp t.schedTickInterval now walkLimit t.schedTickDeadline = some deadline)
      (node : Addr) (rest : List Addr) (queue : xs = node :: rest) (t' : Timers)
      (after : Stack (nextOf t') t'.head rest)
      (relinked : Relinked { t with schedTickDeadline := deadline } t' xs) : Turned now t xs (some node, t')

theorem timerTurn_cases {now : UInt64} (stack : Stack (nextOf t) t.head xs) {result : Option Addr × Timers}
    (turn : timerTurn now t = some result) : Turned now t xs result := by
  unfold timerTurn at turn
  cases enabled : t.enabled with
  | false =>
    obtain rfl : (none, t) = result := by simpa [enabled] using turn
    exact .off enabled
  | true =>
    rw [if_neg (by simp [enabled])] at turn
    obtain ⟨deadline, ticks, rfl⟩ := Option.map_eq_some_iff.mp turn
    have ticked : Stack (nextOf { t with schedTickDeadline := deadline }) t.head xs := stack
    rcases detachDue_cases ticked now with ⟨same, -⟩ | ⟨node, rest, t', queue, taken, -, after, relinked⟩
    · rw [same]
      exact .idle enabled deadline ticks
    · rw [taken]
      exact .detached enabled deadline ticks node rest queue t' after relinked

theorem timerRearm_frame (now : UInt64) (t : Timers) (r : Runner) :
    (timerRearm now t r).1.head = t.head ∧ (timerRearm now t r).1.event = t.event ∧
      ((timerRearm now t r).2 = r ∨ (timerRearm now t r).2 = raiseTimer r) := by
  obtain ⟨deadline, sbi, programmed⟩ := timerReprogramLocked_eq t
  unfold timerRearm
  split
  · exact ⟨rfl, rfl, Or.inl rfl⟩
  · rw [programmed]
    cases headDue now t with
    | true => exact ⟨rfl, rfl, Or.inr rfl⟩
    | false => exact ⟨rfl, rfl, Or.inl rfl⟩

theorem timerRearm_on (enabled : t.enabled = true) (now : UInt64) (r : Runner) :
    (timerRearm now t r).1.enabled = true ∧ (timerRearm now t r).1.stie = true ∧
      (timerRearm now t r).2 = if headDue now t then raiseTimer r else r := by
  obtain ⟨deadline, sbi, programmed⟩ := timerReprogramLocked_eq t
  rw [timerRearm, if_neg (by simp [enabled]), programmed]
  exact ⟨enabled, rfl, rfl⟩

end OrangeKernel.Timer
