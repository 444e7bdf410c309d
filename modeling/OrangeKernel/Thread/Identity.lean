import OrangeKernel.Thread.Custody
import OrangeKernel.Thread.RoundRobin

set_option autoImplicit false

namespace OrangeKernel.Thread

structure SameThreads (a b : Sched) : Prop where
  all : b.all = a.all
  tid : b.tid = a.tid
  tgid : b.tgid = a.tgid
  kind : b.kind = a.kind
  idle : b.idle = a.idle
  bootIdle : b.bootIdle = a.bootIdle
  nextTid : b.nextTid = a.nextTid

theorem SameThreads.refl (a : Sched) : SameThreads a a := ⟨rfl, rfl, rfl, rfl, rfl, rfl, rfl⟩

variable {a : Sched}

theorem SameThreads.trans {b c : Sched} (first : SameThreads a b) (second : SameThreads b c) : SameThreads a c where
  all := second.all.trans first.all
  tid := second.tid.trans first.tid
  tgid := second.tgid.trans first.tgid
  kind := second.kind.trans first.kind
  idle := second.idle.trans first.idle
  bootIdle := second.bootIdle.trans first.bootIdle
  nextTid := second.nextTid.trans first.nextTid

theorem Sched.schedule_threads (a : Sched) : SameThreads a a.schedule := by
  unfold Sched.schedule
  split
  · exact ⟨rfl, rfl, rfl, rfl, rfl, rfl, rfl⟩
  · split <;> exact ⟨rfl, rfl, rfl, rfl, rfl, rfl, rfl⟩

theorem Sched.prepareLocked_threads (flags : LocalFlags) (queue entry : Option Addr) (a : Sched) :
    SameThreads a (a.prepareLocked flags queue entry).2 := by
  unfold Sched.prepareLocked
  split
  · split <;> exact ⟨rfl, rfl, rfl, rfl, rfl, rfl, rfl⟩
  · exact .refl a

theorem Sched.waitLocked_threads (flags : LocalFlags) (a : Sched) : SameThreads a (a.waitLocked flags).2 := by
  unfold Sched.waitLocked
  split
  · exact .refl a
  · split
    · exact a.schedule_threads
    · exact .refl a

theorem Sched.sleepLocked_threads (flags : LocalFlags) (queue : Option Addr) (entry : Addr) (a : Sched) :
    SameThreads a (a.sleepLocked flags queue entry).2 := by
  have prepare := a.prepareLocked_threads flags queue (some entry)
  unfold Sched.sleepLocked
  split
  next ret prepared refused =>
    rw [refused] at prepare
    split
    · exact prepare
    · exact prepare.trans (prepared.waitLocked_threads flags)

theorem Sched.finish_threads (e : Addr) (a : Sched) : SameThreads a (a.finish e) := by
  unfold Sched.finish
  split
  · dsimp only
    split <;> exact ⟨rfl, rfl, rfl, rfl, rfl, rfl, rfl⟩
  · exact .refl a

theorem Sched.wake_threads (t : Addr) (a : Sched) : SameThreads a (a.wake t) := by
  unfold Sched.wake
  split
  · exact .refl a
  · split <;> exact ⟨rfl, rfl, rfl, rfl, rfl, rfl, rfl⟩

theorem Sched.wakeFirst_threads (es : List Addr) (a : Sched) : SameThreads a (a.wakeFirst es) := by
  obtain ⟨same, -⟩ | ⟨-, -, t, -, -, woken⟩ := a.wakeFirst_cases es
  · rw [same]
    exact .refl a
  · rw [woken]
    exact a.wake_threads t

theorem Sched.wakeEach_threads (es : List Addr) (a : Sched) : SameThreads a (a.wakeEach es) := by
  induction es generalizing a with
  | nil => exact .refl a
  | cons e es ih =>
    unfold Sched.wakeEach
    split
    · exact ih a
    next t owned => exact (a.wake_threads t).trans (ih (a.wake t))

theorem Sched.stop_threads (t : Addr) (a : Sched) : SameThreads a (a.stop t) := by
  obtain ⟨all, tid, tgid, kind, idle, -, bootIdle, nextTid⟩ := a.stop_table t
  exact ⟨all, tid, tgid, kind, idle, bootIdle, nextTid⟩

theorem Sched.stopTid_threads (tid : Int) (a : Sched) : SameThreads a (a.stopTid tid).2 := by
  unfold Sched.stopTid
  split
  · exact .refl a
  next t found =>
    split
    · exact .refl a
    · exact a.stop_threads t

theorem Sched.stopEach_threads (tgid : Int) (ts : List Addr) (a : Sched) : SameThreads a (a.stopEach tgid ts) := by
  induction ts generalizing a with
  | nil => exact .refl a
  | cons t ts ih =>
    unfold Sched.stopEach
    split
    · exact (a.stop_threads t).trans (ih (a.stop t))
    · exact ih a

theorem Sched.after_threads (a : Sched) {op : ThreadOp} (quiet : Quiet op) : SameThreads a (a.after op) := by
  cases op with
  | createKernel | createProcess | createUser | fork | reap => exact quiet.elim
  | schedule => exact a.schedule_threads
  | yield => exact a.schedule_threads
  | prepare flags queue entry => exact a.prepareLocked_threads flags queue entry
  | wait flags => exact a.waitLocked_threads flags
  | finish entry => exact a.finish_threads entry
  | sleep flags queue entry => exact a.sleepLocked_threads flags queue entry
  | wakeOne queue => exact a.wakeFirst_threads _
  | wakeAll queue => exact a.wakeEach_threads _
  | stopTid tid status => exact a.stopTid_threads tid
  | stopProcess tgid status => exact a.stopEach_threads tgid a.all
  | markCurrentZombie status => exact a.stop_threads a.current

variable {t : Addr}

theorem Sched.waitLocked_zombie (ok : SchedOk a) (dead : a.state t = .zombie)
    (flags : LocalFlags) : (a.waitLocked flags).2.state t = .zombie := by
  unfold Sched.waitLocked
  split
  · exact dead
  · split
    · exact (ok.switched.zombie t).mpr dead
    · exact dead

theorem Sched.prepareLocked_zombie (dead : a.state t = .zombie) (flags : LocalFlags)
    (queue entry : Option Addr) : (a.prepareLocked flags queue entry).2.state t = .zombie := by
  unfold Sched.prepareLocked
  split
  next q e =>
    split
    · exact dead
    next awake =>
      -- a zombie may not register
      have other : t ≠ a.current := by
        rintro rfl
        simp [dead] at awake
      exact (Function.update_of_ne other _ _).trans dead
  · exact dead

theorem Sched.sleepLocked_zombie (ok : SchedOk a) (dead : a.state t = .zombie)
    (flags : LocalFlags) (queue : Option Addr) (entry : Addr) :
    (a.sleepLocked flags queue entry).2.state t = .zombie := by
  have prepare := Sched.prepareLocked_zombie dead flags queue (some entry)
  have okPrepared := ok.prepareLocked flags queue (some entry)
  unfold Sched.sleepLocked
  split
  next ret prepared refused =>
    rw [refused] at prepare okPrepared
    split
    · exact prepare
    · exact Sched.waitLocked_zombie okPrepared prepare flags

theorem Sched.finish_zombie (dead : a.state t = .zombie) (e : Addr) :
    (a.finish e).state t = .zombie := by
  unfold Sched.finish
  split
  next u q _ _ =>
    dsimp only
    split
    next asleep =>
      have other : t ≠ u := by
        rintro rfl
        simp [dead] at asleep
      exact (Function.update_of_ne other _ _).trans dead
    · exact dead
  · exact dead

theorem Sched.wake_zombie (dead : a.state t = .zombie) (u : Addr) :
    (a.wake u).state t = .zombie := by
  unfold Sched.wake
  split
  · exact dead
  next asleep =>
    have other : t ≠ u := by
      rintro rfl
      simp [dead] at asleep
    split <;> exact (Function.update_of_ne other _ _).trans dead

theorem Sched.wakeEach_zombie (dead : a.state t = .zombie) (es : List Addr) :
    (a.wakeEach es).state t = .zombie := by
  induction es generalizing a with
  | nil => exact dead
  | cons e es ih =>
    unfold Sched.wakeEach
    split
    · exact ih dead
    next u owned => exact ih (Sched.wake_zombie dead u)

theorem Sched.after_zombie (ok : SchedOk a) {op : ThreadOp} (quiet : Quiet op)
    (dead : a.state t = .zombie) : (a.after op).state t = .zombie := by
  cases op with
  | createKernel | createProcess | createUser | fork | reap => exact quiet.elim
  | schedule => exact (ok.switched.zombie t).mpr dead
  | yield => exact (ok.switched.zombie t).mpr dead
  | prepare flags queue entry => exact Sched.prepareLocked_zombie dead flags queue entry
  | wait flags => exact Sched.waitLocked_zombie ok dead flags
  | finish entry => exact Sched.finish_zombie dead entry
  | sleep flags queue entry => exact Sched.sleepLocked_zombie ok dead flags queue entry
  | wakeOne queue =>
    change (a.wakeFirst _).state t = .zombie
    obtain ⟨same, -⟩ | ⟨-, -, u, -, -, woken⟩ := a.wakeFirst_cases (a.queued queue)
    · rwa [same]
    · rw [woken]
      exact Sched.wake_zombie dead u
  | wakeAll queue => exact Sched.wakeEach_zombie dead _
  | stopTid tid status =>
    change (a.stopTid tid).2.state t = .zombie
    unfold Sched.stopTid
    split
    · exact dead
    next u found =>
      split
      · exact dead
      · exact Sched.stop_zombie dead u
  | stopProcess tgid status => exact Sched.stopEach_zombie dead tgid a.all
  | markCurrentZombie status => exact Sched.stop_zombie dead a.current

end OrangeKernel.Thread
