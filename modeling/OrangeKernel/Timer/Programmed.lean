import Mathlib.Data.Nat.ModEq
import OrangeKernel.Timer.Queue

set_option autoImplicit false

-- Counter values are not 0 and are more than a tick interval below 2^64.

namespace OrangeKernel.Timer

open Irq Intrusive SortedQueue

open Thread (walkLimit)

def clockOk (timebaseFrequency : UInt32) (now : UInt64) : Bool :=
  now ≠ 0 && now.toNat + (tickInterval timebaseFrequency).toNat < 2 ^ 64

structure TimersOk (t : Timers) (queue : List Addr) : Prop where
  pending : Stack (nextOf t) t.head queue
  sorted : Sorted (expireOf t) queue
  nonzero : ∀ n ∈ queue, expireOf t n ≠ 0
  disabled : t.enabled = false → queue = []
  interval : t.enabled = true → t.schedTickInterval = tickInterval t.timebaseFrequency
  tick : t.enabled = true → t.schedTickDeadline.toNat ≠ 0
  given : t.enabled = true → t.sbiTimer = t.nextDeadline
  set : t.enabled = true → t.nextDeadline.toNat ≠ 0
  before_tick : t.enabled = true → t.nextDeadline.toNat ≤ t.schedTickDeadline.toNat
  before_events : t.enabled = true → ∀ n ∈ queue, t.nextDeadline.toNat ≤ expireOf t n

theorem tickInterval_ne (timebaseFrequency : UInt32) : tickInterval timebaseFrequency ≠ 0 := by
  unfold tickInterval
  split
  next large =>
    have bound := UInt32.le_iff_toNat_le.mp large
    have quotient : (timebaseFrequency.toUInt64 / 20).toNat = timebaseFrequency.toNat / 20 := by
      rw [UInt64.toNat_div, UInt32.toNat_toUInt64]
      rfl
    intro zero
    rw [zero] at quotient
    simp only [UInt64.toNat_zero, UInt32.reduceToNat] at quotient bound
    omega
  · decide

theorem nat_ne_zero {x : UInt64} : x.toNat ≠ 0 ↔ x ≠ 0 := by
  rw [Ne, Ne, ← UInt64.toNat_inj]
  rfl

variable {t : Timers} {queue : List Addr}

theorem TimersOk.reprogram (pending : Stack (nextOf t) t.head queue)
    (sorted : Sorted (expireOf t) queue) (nonzero : ∀ n ∈ queue, expireOf t n ≠ 0) (enabled : t.enabled = true)
    (interval : t.schedTickInterval = tickInterval t.timebaseFrequency) (tick : t.schedTickDeadline.toNat ≠ 0) :
    TimersOk (timerReprogramLocked t) queue := by
  have ticks : tickDeadline t = t.schedTickDeadline :=
    if_pos ⟨interval ▸ tickInterval_ne _, nat_ne_zero.mp tick⟩
  obtain ⟨deadline, chosen, set, notLater, first⟩ : ∃ deadline, earliestDeadline t = deadline ∧
    deadline.toNat ≠ 0 ∧
      deadline.toNat ≤ t.schedTickDeadline.toNat ∧ ∀ n ∈ queue, deadline.toNat ≤ expireOf t n := by
    cases queue with
    | nil =>
      have none : t.head = none := pending.first
      exact ⟨t.schedTickDeadline, by simp only [earliestDeadline, none, ticks], tick, Nat.le_refl _, by simp⟩
    | cons n rest =>
      have some : t.head = some n := pending.first
      have least := sorted.head_le
      by_cases earlier : (t.event n).expire < t.schedTickDeadline
      · refine ⟨(t.event n).expire, ?_, nonzero n List.mem_cons_self, ?_, least⟩
        · simp only [earliestDeadline, some, ticks, if_pos (Or.inr earlier)]
        · exact Nat.le_of_lt (UInt64.lt_iff_toNat_lt.mp earlier)
      · refine ⟨t.schedTickDeadline, ?_, tick, Nat.le_refl _, fun m member => Nat.le_trans ?_ (least m member)⟩
        · simp only [earliestDeadline, some, ticks]
          exact if_neg fun either => either.elim (nat_ne_zero.mp tick) earlier
        · exact UInt64.le_iff_toNat_le.mp (UInt64.not_lt.mp earlier)
  have programmed : timerReprogramLocked t = timerProgramAbs deadline t := by
    rw [timerReprogramLocked, chosen, if_pos (nat_ne_zero.mp set)]
  rw [programmed]
  exact
    { pending := pending
      sorted := sorted
      nonzero := nonzero
      disabled := fun off => by
        have off : t.enabled = false := off
        rw [enabled] at off
        cases off
      interval := fun _ => interval
      tick := fun _ => tick
      given := fun _ => rfl
      set := fun _ => set
      before_tick := fun _ => notLater
      before_events := fun _ => first }

variable {now : UInt64}

theorem TimersOk.init (ok : TimersOk t queue)
    (clock : clockOk t.timebaseFrequency now = true) : TimersOk (timerInit now t) queue := by
  refine TimersOk.reprogram ok.pending ok.sorted ok.nonzero rfl rfl ?_
  simp only [clockOk, Bool.and_eq_true, decide_eq_true_eq] at clock
  have positive := nat_ne_zero.mpr clock.1
  rw [UInt64.toNat_add, Nat.mod_eq_of_lt clock.2]
  omega

theorem TimersOk.fill (ok : TimersOk t queue) {node : Addr} (absent : node ∉ queue)
    (callback arg duration cleanup now : UInt64) :
    TimersOk (fillEvent node callback arg duration cleanup now t) queue := by
  have same : ∀ n ∈ queue, (fillEvent node callback arg duration cleanup now t).event n = t.event n := by
    intro n member
    have other : n ≠ node := fun equal => absent (equal ▸ member)
    simp [fillEvent, other]
  have expires : ∀ n ∈ queue, expireOf (fillEvent node callback arg duration cleanup now t) n = expireOf t n :=
    fun n member => by rw [expireOf, same n member, expireOf]
  exact
    { ok with
      pending :=
        ⟨chain_congr (fun n member => by rw [nextOf, same n member, nextOf]) ok.pending.chain, ok.pending.first⟩
      sorted := ok.sorted.congr expires
      nonzero := fun n member => by
        rw [expires n member]
        exact ok.nonzero n member
      before_events := fun enabled n member => by
        rw [expires n member]
        exact ok.before_events enabled n member }

theorem fillEvent_expire {duration : UInt64} (nonzero : now ≠ 0) (fits : expireOverflows now duration = false)
    (node : Addr) (callback arg cleanup : UInt64) (t : Timers) :
    expireOf (fillEvent node callback arg duration cleanup now t) node ≠ 0 := by
  have positive := nat_ne_zero.mpr nonzero
  rw [fillEvent_expireOf fits]
  omega

theorem SameData.expires {t' : Timers} (same : SameData t t') : expireOf t' = expireOf t := by
  funext n
  rw [expireOf, same.expire, expireOf]

structure Alike (t t' : Timers) : Prop where
  frequency : t'.timebaseFrequency = t.timebaseFrequency
  enabled : t'.enabled = t.enabled
  stie : t'.stie = t.stie
  data : SameData t t'

theorem Alike.refl (t : Timers) : Alike t t := ⟨rfl, rfl, rfl, .refl t⟩

theorem TimersOk.insert (ok : TimersOk t queue) (enabled : t.enabled = true)
    {node : Addr} (absent : node ∉ queue) (nonzero : expireOf t node ≠ 0) :
    ∃ t', insertEvent node t = some t' ∧ TimersOk t' (inserted t node queue) ∧ Alike t t' := by
  obtain ⟨t', walk, after, relinked⟩ := insertEvent_stack ok.pending absent
  obtain ⟨deadline, sbi, programmed⟩ := timerReprogramLocked_eq t'
  have expires := relinked.data.expires
  have others := relinked.others
  have alike : Alike t (timerReprogramLocked t') := by
    rw [programmed]
    exact ⟨by rw [others], by rw [others], by rw [others], relinked.data⟩
  refine ⟨_, walk, TimersOk.reprogram after ?_ ?_ ?_ ?_ ?_, alike⟩
  · rw [expires]
    exact ok.sorted.insert node
  · intro n member
    rw [expires]
    rcases (mem_inserted t node queue n).mp member with rfl | old
    · exact nonzero
    · exact ok.nonzero n old
  · rw [others]
    exact enabled
  · rw [others]
    exact ok.interval enabled
  · rw [others]
    exact ok.tick enabled

theorem catchUp_spec {interval now : UInt64} (some : interval ≠ 0) (room : now.toNat + interval.toNat < 2 ^ 64)
    (fuel : Nat) {deadline : UInt64} (enough : now.toNat + 1 - deadline.toNat < fuel) :
    ∃ result turns, catchUp interval now fuel deadline = .some result ∧
      result.toNat = deadline.toNat + interval.toNat * turns ∧ now.toNat < result.toNat ∧
      (0 < turns → result.toNat ≤ now.toNat + interval.toNat) := by
  induction fuel generalizing deadline with
  | zero => exact absurd enough (Nat.not_lt_zero _)
  | succ fuel ih =>
    unfold catchUp
    split
    next behind =>
      have before := UInt64.le_iff_toNat_le.mp behind.2
      have step := nat_ne_zero.mpr some
      have sum : (deadline + interval).toNat = deadline.toNat + interval.toNat := by
        rw [UInt64.toNat_add, Nat.mod_eq_of_lt (by omega)]
      obtain ⟨result, turns, ticks, phase, later, near⟩ := @ih (deadline + interval) (by omega)
      rw [sum] at phase
      have next : result.toNat = deadline.toNat + interval.toNat * (turns + 1) := by
        rw [phase, Nat.mul_succ]
        omega
      refine ⟨result, turns + 1, ticks, next, later, fun _ => ?_⟩
      cases turns with
      | zero =>
        rw [Nat.mul_zero] at phase
        omega
      | succ turns => exact near (Nat.succ_pos turns)
    next ahead =>
      have later : now.toNat < deadline.toNat := by
        rw [← UInt64.lt_iff_toNat_lt]
        exact UInt64.not_le.mp fun behind => ahead ⟨some, behind⟩
      exact ⟨deadline, 0, rfl, rfl, later, fun turned => absurd turned (Nat.lt_irrefl 0)⟩

def overtaken (interval now : UInt64) : (fuel : Nat) → (deadline : UInt64) → List UInt64
  | 0, _ => []
  | fuel + 1, deadline =>
    if interval ≠ 0 ∧ deadline ≤ now then deadline :: overtaken interval now fuel (deadline + interval) else []

theorem overtaken_le {interval : UInt64} (fuel : Nat) (deadline : UInt64) :
    ∀ d ∈ overtaken interval now fuel deadline, d ≤ now := by
  induction fuel generalizing deadline with
  | zero => simp [overtaken]
  | succ fuel ih =>
    unfold overtaken
    split
    next behind => exact List.forall_mem_cons.mpr ⟨behind.2, ih _⟩
    · simp

theorem phase_unique {interval now d e : Nat} (phase : d ≡ e [MOD interval]) (laterD : now < d) (laterE : now < e)
    (nearD : d ≤ now + interval) (nearE : e ≤ now + interval) : d = e := by
  have shifted : d - (now + 1) ≡ e - (now + 1) [MOD interval] := by
    refine Nat.ModEq.add_right_cancel' (now + 1) ?_
    rwa [Nat.sub_add_cancel laterD, Nat.sub_add_cancel laterE]
  have same := shifted.eq_of_lt_of_lt (by omega) (by omega)
  omega

theorem catchUp_phase (interval now deadline : UInt64) (fuel : Nat) (positive : 1 ≤ interval.toNat)
    (room : now.toNat + interval.toNat < 2 ^ 64) (enough : walkLimit ≤ fuel) :
    ∃ result, catchUp interval now fuel deadline = some result ∧
      (now < deadline → result = deadline) ∧
      (deadline ≤ now → ∀ d : Nat, d = result.toNat ↔
        d ≡ deadline.toNat [MOD interval.toNat] ∧ now.toNat < d ∧ d ≤ now.toNat + interval.toNat) ∧
      ∀ d ∈ overtaken interval now fuel deadline, d.toNat + interval.toNat < 2 ^ 64 := by
  have nonzero : interval ≠ 0 := nat_ne_zero.mp (by omega)
  have below := now.toNat_lt
  unfold walkLimit at enough
  obtain ⟨result, turns, ticks, phase, later, near⟩ :=
    @catchUp_spec interval now nonzero room fuel deadline (by omega)
  refine ⟨result, ticks, fun ahead => ?_, fun behind d => ?_, fun d member => ?_⟩
  · cases fuel with
    | zero => cases ticks
    | succ fuel =>
      rw [catchUp, if_neg fun behind => UInt64.not_le.mpr ahead behind.2] at ticks
      exact (Option.some.inj ticks).symm
  · have turned : 0 < turns := by
      rcases Nat.eq_zero_or_pos turns with rfl | turned
      · have before := UInt64.le_iff_toNat_le.mp behind
        rw [Nat.mul_zero] at phase
        omega
      · exact turned
    have congruent : result.toNat ≡ deadline.toNat [MOD interval.toNat] := by
      rw [phase]
      exact Nat.add_mul_mod_self_left _ _ _
    constructor
    · rintro rfl
      exact ⟨congruent, later, near turned⟩
    · rintro ⟨same, after, close⟩
      exact phase_unique (same.trans congruent.symm) after later close (near turned)
  · have before := UInt64.le_iff_toNat_le.mp (overtaken_le fuel deadline d member)
    omega

theorem catchUp_phase_late : ∃ result, catchUp 5 23 walkLimit 11 = some result ∧ ∀ d : Nat, d = result.toNat ↔
    d ≡ 11 [MOD 5] ∧ 23 < d ∧ d ≤ 23 + 5 := by
  obtain ⟨result, ticks, -, phase, -⟩ := catchUp_phase 5 23 11 walkLimit (by decide) (by decide) (Nat.le_refl _)
  exact ⟨result, ticks, phase (by decide)⟩

theorem TimersOk.turn (ok : TimersOk t queue)
    (clock : clockOk t.timebaseFrequency now = true) :
    ∃ node t' queue', timerTurn now t = some (node, t') ∧ TimersOk t' queue' ∧ Alike t t' := by
  simp only [clockOk, Bool.and_eq_true, decide_eq_true_eq] at clock
  cases enabled : t.enabled with
  | false => exact ⟨none, t, queue, by simp [timerTurn, enabled], ok, rfl, rfl, rfl, .refl t⟩
  | true =>
    have interval := ok.interval enabled
    have some : t.schedTickInterval ≠ 0 := interval ▸ tickInterval_ne _
    have room : now.toNat + t.schedTickInterval.toNat < 2 ^ 64 := interval ▸ clock.2
    have enough : now.toNat + 1 - t.schedTickDeadline.toNat < walkLimit := by
      have below := now.toNat_lt
      unfold walkLimit
      omega
    obtain ⟨deadline, turns, ticks, phase, -⟩ := catchUp_spec some room walkLimit enough
    have later : t.schedTickDeadline.toNat ≤ deadline.toNat := phase ▸ Nat.le_add_right _ _
    have tick := ok.tick enabled
    have beforeTick := ok.before_tick enabled
    have ticked : TimersOk { t with schedTickDeadline := deadline } queue :=
      { ok with
        tick := fun _ => by
          show deadline.toNat ≠ 0
          omega
        before_tick := fun _ => Nat.le_trans beforeTick later }
    have turns : timerTurn now t = .some (detachDue now { t with schedTickDeadline := deadline }) := by
      rw [timerTurn, if_neg (by simp [enabled]), ticks]
      rfl
    rcases detachDue_cases ticked.pending now
      with ⟨same, -⟩ | ⟨node, rest, t', whole, taken, -, after, relinked⟩
    · exact ⟨none, _, queue, by rw [turns, same], ticked, rfl, rfl, rfl, .refl t⟩
    · have expires := relinked.data.expires
      have others := relinked.others
      subst whole
      refine ⟨.some node, t', rest, by rw [turns, taken], ?_, by rw [others], by rw [others], by rw [others],
        relinked.data⟩
      have fewer : ∀ n ∈ rest, n ∈ node :: rest := fun n member => List.mem_cons_of_mem _ member
      constructor
      · exact after
      · rw [expires]
        exact (List.pairwise_cons.mp ticked.sorted).2
      · rw [expires]
        exact fun n member => ticked.nonzero n (fewer n member)
      · intro off
        rw [others] at off
        simp [enabled] at off
      · rw [others]
        exact ticked.interval
      · rw [others]
        exact ticked.tick
      · rw [others]
        exact ticked.given
      · rw [others]
        exact ticked.set
      · rw [others]
        exact ticked.before_tick
      · rw [expires, others]
        exact fun on n member => ticked.before_events on n (fewer n member)

theorem TimersOk.source (ok : TimersOk t queue) (stie : Bool) :
    TimersOk { t with stie := stie } queue := { ok with }

theorem TimersOk.rearm (ok : TimersOk t queue) (now : UInt64) (r : Runner) :
    TimersOk (timerRearm now t r).1 queue := by
  unfold timerRearm
  cases enabled : t.enabled with
  | false => exact ok
  | true =>
    exact (TimersOk.reprogram ok.pending ok.sorted ok.nonzero enabled (ok.interval enabled) (ok.tick enabled)).source
      true

theorem TimersOk.stop (r : Runner) : TimersOk (timerStop t r).1 [] where
  pending := ⟨trivial, rfl⟩
  sorted := List.Pairwise.nil
  nonzero := by simp
  disabled _ := rfl
  interval on := by cases on
  tick on := by cases on
  given on := by cases on
  set on := by cases on
  before_tick on := by cases on
  before_events on := by cases on

theorem TimersOk.headDue_of (ok : TimersOk t queue) {n : Addr}
    (member : n ∈ queue) (due : (t.event n).expire ≤ now) : headDue now t = true := by
  cases queue with
  | nil => cases member
  | cons first rest =>
    have head : t.head = some first := ok.pending.first
    have least := ok.sorted.head_le n member
    simp only [headDue, head, decide_eq_true_eq]
    exact UInt64.le_iff_toNat_le.mpr (Nat.le_trans least (UInt64.le_iff_toNat_le.mp due))

end OrangeKernel.Timer
