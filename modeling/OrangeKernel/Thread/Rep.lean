import OrangeKernel.Shared.Heads
import OrangeKernel.Thread.Abstract
import OrangeKernel.Thread.Wait

set_option autoImplicit false

namespace OrangeKernel.Thread

open Intrusive

def entryLinks (k : Kernel) : Links Addr := { next := k.entryNext, prev := k.entryPrev }

def taskLinks (k : Kernel) : Links Addr := { next := k.taskNext, prev := k.taskPrev }

structure Rep (k : Kernel) (a : Sched) : Prop where
  run : Fifo k.next k.runHead k.runTail a.run
  zombies : Stack k.znext k.zombieHead a.zombies
  all : Stack k.allNext k.allThreads a.all
  queued : Family (entryLinks k) k.queueHead a.queued
  tails : ∀ q, k.queueTail q = (a.queued q).getLast?
  regs : Family (taskLinks k) k.waitEntries a.regs
  owner : k.task = a.owner
  place : k.queue = a.place
  state : k.state = a.state
  tid : k.tid = a.tid
  tgid : k.tgid = a.tgid
  kind : k.kind = a.kind
  idle : k.isIdle = a.idle
  boot : k.bootIdleThread = a.bootIdle
  current : k.current = some a.current
  next_tid : k.nextTid = a.nextTid

theorem length_lt_walkLimit {xs : List Addr} (nodup : xs.Nodup) : xs.length < walkLimit :=
  Nat.lt_succ_of_le (length_le_of_nodup nodup)

section Run

variable {k : Kernel} {a : Sched} (rep : Rep k a)
include rep

theorem Rep.setState (t : Addr) (st : ThreadState) :
    Rep (k.setState t st) { a with state := Function.update a.state t st } :=
  { rep with
    state := by simp only [Kernel.setState, rep.state] }

theorem Rep.enqueue {t : Addr} (absent : t ∉ a.run) : Rep (schedEnqueue t k) { a with run := a.run ++ [t] } := by
  have pushed := rep.run.push absent
  unfold schedEnqueue
  cases tail : k.runTail with
  | none =>
    rw [tail] at pushed
    simp only [Kernel.setNext, tail]
    exact { rep with run := pushed }
  | some last =>
    rw [tail] at pushed
    simp only [Kernel.setNext, tail]
    exact { rep with run := pushed }

theorem Rep.pop {t : Addr} {rest : List Addr} (run : a.run = t :: rest) :
    ∃ popped, runqPop k = (some t, popped) ∧ Rep popped { a with run := rest } := by
  have fifo := rep.run
  rw [run] at fifo
  have head : k.runHead = some t := fifo.first
  refine ⟨_, by simp only [runqPop, head]; rfl, ?_⟩
  exact { rep with run := fifo.pop }

theorem Rep.needResched (flag : Bool) : Rep { k with needResched := flag } a := { rep with }

theorem Rep.switchTo {next : Addr} (other : a.current ≠ next) (off : a.current ∉ a.run)
    (unqueued : a.state a.current ≠ .runnable) : Rep (switchTo a.current next k) (a.switchTo next) := by
  -- after both state writes the old thread is runnable exactly if it was running
  have yielded : Rep
    ((if k.state a.current = .running then k.setState a.current .runnable else k).setState next .running)
      { a with state := (a.switchTo next).state } := by
    rw [rep.state]
    split
    next running =>
      have states : (a.switchTo next).state =
          Function.update (Function.update a.state a.current .runnable) next .running := by
        funext t
        simp only [Sched.switchTo, Function.update_apply]
        grind
      rw [states]
      exact (rep.setState a.current .runnable).setState next .running
    next stopped =>
      have states : (a.switchTo next).state = Function.update a.state next .running := by
        funext t
        simp only [Sched.switchTo, Function.update_apply]
        grind
      rw [states]
      exact rep.setState next .running
  unfold Thread.switchTo
  rw [if_neg other]
  dsimp only
  generalize (if k.state a.current = .running then k.setState a.current .runnable else k).setState next .running =
    picked at yielded
  have queues : (picked.state a.current = .runnable ∧ picked.isIdle a.current = false) ↔
      a.state a.current = .running ∧ a.idle a.current = false := by
    rw [yielded.state, yielded.idle]
    simp only [Sched.switchTo]
    grind
  by_cases again : a.state a.current = .running ∧ a.idle a.current = false
  · rw [if_pos (queues.mpr again)]
    have enqueued := yielded.enqueue off
    exact { enqueued with
      run := by simpa [Sched.switchTo, again] using enqueued.run
      current := rfl }
  · rw [if_neg (mt queues.mp again)]
    exact { yielded with
      run := by simpa only [Sched.switchTo, if_neg again] using yielded.run
      current := rfl }

end Run

theorem Rep.popRunnable {k : Kernel} {a : Sched} (rep : Rep k a) (ok : SchedOk a) (fuel : Nat) :
    ∃ popped, popRunnable (fuel + 1) k = some (a.run.head?, popped) ∧ Rep popped { a with run := a.run.tail } := by
  unfold Thread.popRunnable
  cases run : a.run with
  | nil =>
    have head : k.runHead = none := by simpa [run] using rep.run.first
    refine ⟨k, by simp [runqPop, head], ?_⟩
    exact { rep with run := by simpa [run] using rep.run }
  | cons next rest =>
    obtain ⟨popped, pops, after⟩ := rep.pop run
    have runnable := ((ok.queues.mem_run next).mp (by simp [run])).2.1
    refine ⟨popped, ?_, after⟩
    rw [pops]
    simp [after.state, runnable]

theorem Rep.schedule {k : Kernel} {a : Sched} (rep : Rep k a) (ok : SchedOk a) :
    ∃ switched, schedule k = some switched ∧ Rep switched a.schedule := by
  obtain ⟨popped, pops, after⟩ := (rep.needResched false).popRunnable ok (2 ^ 64)
  have off := ok.current_not_run
  have entered : threadCurrent k = some a.current := rep.current
  unfold Thread.schedule walkLimit Sched.schedule
  rw [entered]
  dsimp only
  rw [pops]
  cases run : a.run with
  | nil =>
    simp only [List.head?_nil, Option.bind_eq_bind, Option.bind_some, after.idle]
    have same : { a with run := a.run.tail } = a := by rw [run, List.tail_nil, ← run]
    rw [same] at after
    by_cases idle : a.idle a.current = true
    · rw [if_pos idle, if_pos idle]
      exact ⟨popped, rfl, after⟩
    · rw [if_neg idle, if_neg idle, after.boot]
      have away : a.current ≠ a.bootIdle := fun same => idle ((ok.table.idle_iff _ ok.current.member).mpr same)
      exact ⟨_, rfl, after.switchTo away off ok.current.off_queue⟩
  | cons next rest =>
    rw [run] at after off
    rw [List.mem_cons, not_or] at off
    exact ⟨_, rfl, after.switchTo off.1 off.2 ok.current.off_queue⟩

end OrangeKernel.Thread
