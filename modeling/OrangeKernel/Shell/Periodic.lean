import OrangeKernel.Timer.Ownership

set_option autoImplicit false

-- A step of the shell is one access to a static variable or one call of `add_timer`. The bottom half of the
-- timer may come between two of them, and the shell waits while it runs. Of the timer queue only the events
-- of `shell_periodic_timer` are kept, and any of them that is due may be the next one.
namespace OrangeKernel.Shell

open Timer Intrusive SortedQueue

inductive EnablePlace where
  | test (enabled : Bool)
  | clear (enabled : Bool)
  | bump (enabled : Bool)
  | add
  | store
deriving DecidableEq, Repr

def EnablePlace.on : EnablePlace → Bool
  | .test enabled | .clear enabled | .bump enabled => enabled
  | .add | .store => true

inductive CallbackPlace where
  | test
  | add
  | failed
  | returning
deriving DecidableEq, Repr

structure Event where
  arg : UInt64
  expire : UInt64
deriving DecidableEq, Repr

structure Periodic where
  timebaseFrequency : UInt32
  timerEnabled : Bool
  pending : List Event
  generation : UInt64
  enabled : Bool
  shell : Option EnablePlace
  firing : Option (UInt64 × CallbackPlace)
  printed : Nat

-- `memory` says whether `kmalloc` succeeds.
def Periodic.addTimer (arg : UInt64) (memory : Bool) (now : UInt64) (s : Periodic) : Int × Periodic :=
  let duration := 2 * s.timebaseFrequency.toUInt64
  if s.timebaseFrequency = 0 ∨ memory = false ∨ expireOverflows now duration ∨ s.timerEnabled = false then (-1, s)
  else (0, { s with pending := ⟨arg, now + duration⟩ :: s.pending })

-- A step of `shell_periodic_enable`, and what it returns if it ends.
def shellPeriodicEnable (memory : Bool) (now : UInt64) (s : Periodic) : Option (Option Int × Periodic) :=
  match s.shell with
  | none => none
  | some (.test enabled) =>
    -- nobody stops the timer or changes its frequency between the two checks
    if s.timerEnabled = false ∨ s.timebaseFrequency = 0 then some (some (-1), { s with shell := none })
    else if enabled && s.enabled then some (some 0, { s with shell := none })
    else some (none, { s with shell := some (.clear enabled) })
  | some (.clear enabled) =>
    some (none, { s with
      enabled := false
      shell := some (.bump enabled) })
  | some (.bump enabled) =>
    some (if enabled then none else some 0, { s with
      generation := s.generation + 1
      shell := if enabled then some .add else none })
  | some .add =>
    let (ret, s') := s.addTimer s.generation memory now
    some (if ret ≠ 0 then (some (-1), { s' with shell := none }) else (none, { s' with shell := some .store }))
  | some .store =>
    some (some 0, { s with
      enabled := true
      shell := none })

def shellPeriodicTimer (memory : Bool) (now : UInt64) (s : Periodic) : Option Periodic :=
  match s.firing with
  | none => none
  | some (arg, .test) =>
    if s.enabled = false ∨ arg ≠ s.generation then some { s with firing := some (arg, .returning) }
    else
      some { s with
        firing := some (arg, .add)
        printed := s.printed + 1 }
  | some (arg, .add) =>
    let (ret, s') := s.addTimer arg memory now
    some { s' with firing := some (arg, if ret ≠ 0 then .failed else .returning) }
  | some (arg, .failed) =>
    some { s with
      enabled := false
      firing := some (arg, .returning) }
  | some (_, .returning) => some { s with firing := none }

inductive PeriodicOp where
  | call (enabled : Bool)
  | shell (memory : Bool) (now : UInt64)
  | detach (event : Event) (now : UInt64)
  | callback (memory : Bool) (now : UInt64)

def periodicStep (s : Periodic) : PeriodicOp → Option (Option Int × Periodic)
  | .call enabled =>
    if s.shell = none ∧ s.firing = none then some (none, { s with shell := some (.test enabled) }) else none
  | .shell memory now => if s.firing = none then shellPeriodicEnable memory now s else none
  | .detach event now =>
    if s.firing = none ∧ event ∈ s.pending ∧ s.timerEnabled ∧ event.expire ≤ now then
      some (none, { s with
        pending := s.pending.erase event
        firing := some (event.arg, .test) })
    else none
  | .callback memory now => (shellPeriodicTimer memory now s).map fun s' => (none, s')

def periodicStart (timebaseFrequency : UInt32) : Periodic :=
  { timebaseFrequency := timebaseFrequency
    timerEnabled := true
    pending := []
    generation := 0
    enabled := false
    shell := none
    firing := none
    printed := 0 }

-- An event that is being fired counts until its callback has re-armed or given up.
def beingFired : Option (UInt64 × CallbackPlace) → List UInt64
  | none | some (_, .returning) => []
  | some (arg, .test) | some (arg, .add) | some (arg, .failed) => [arg]

def Periodic.args (s : Periodic) : List UInt64 := s.pending.map Event.arg ++ beingFired s.firing

def Periodic.chains (s : Periodic) : Nat := s.args.count s.generation

-- The event of `shell_periodic_enable(1)` is not fired before `periodic_enabled = 1`, and no pending event
-- carries the generation that a call is about to make the current one.
def undisturbed (s : Periodic) : PeriodicOp → Bool
  | .shell _ _ =>
    match s.shell with
    | some (.bump _) => s.generation + 1 ∉ s.pending.map Event.arg
    | _ => true
  | .detach event _ => s.shell ≠ some .store ∨ event.arg ≠ s.generation
  | _ => true

def periodicOps (allowed : Periodic → PeriodicOp → Bool) (ops : List PeriodicOp) (s : Periodic) : Option Periodic :=
  ops.foldlM (fun s op => if allowed s op then (periodicStep s op).map Prod.snd else none) s

def Chained (count : Nat) (enabled : Bool) : Option EnablePlace → Prop
  | some (.bump _) => enabled = false ∧ count ≤ 1
  | some .add => enabled = false ∧ count = 0
  | some .store => enabled = false ∧ count = 1
  | none | some (.test _) | some (.clear _) => count = enabled.toNat

structure PeriodicOk (s : Periodic) : Prop where
  going : ∀ arg spot, s.firing = some (arg, spot) → spot = .add ∨ spot = .failed →
    s.enabled = true ∧ arg = s.generation
  apart : ∀ arg spot, s.firing = some (arg, spot) → s.shell = some .store → arg ≠ s.generation
  chained : Chained s.chains s.enabled s.shell

variable {enabled : Bool}

theorem Chained.drop {count : Nat} {shell : Option EnablePlace} (chained : Chained (count + 1) enabled shell)
    (early : enabled = true ∨ shell ≠ some .store) :
    Chained count false shell := by
  cases enabled <;> unfold Chained at chained ⊢ <;> split at chained <;> simp_all

variable {s s' : Periodic}

theorem PeriodicOk.between (idle : s.firing = none) (chained : Chained s.chains s.enabled s.shell) : PeriodicOk s :=
  ⟨by simp [idle], by simp [idle], chained⟩

theorem PeriodicOk.bump (ok : PeriodicOk s) (idle : s.firing = none) (inside : s.shell = some (.bump enabled))
    (fresh : s.generation + 1 ∉ s.pending.map Event.arg) :
    PeriodicOk { s with
      generation := s.generation + 1
      shell := if enabled then some .add else none } := by
  have chained := ok.chained
  rw [inside] at chained
  have unused : s.args.count (s.generation + 1) = 0 := by
    rw [Periodic.args, idle]
    exact List.count_eq_zero.mpr (by simpa [beingFired] using fresh)
  refine .between idle ?_
  show Chained (s.args.count (s.generation + 1)) s.enabled (if enabled then some .add else none)
  rw [unused, chained.1]
  cases enabled with
  | false => rfl
  | true => exact ⟨rfl, rfl⟩

theorem addTimer_cases (arg : UInt64) (memory : Bool) (now : UInt64) (s : Periodic) :
    s.addTimer arg memory now = (-1, s) ∨
      ∃ expire, s.addTimer arg memory now = (0, { s with pending := ⟨arg, expire⟩ :: s.pending }) := by
  unfold Periodic.addTimer
  dsimp only
  split
  · exact .inl rfl
  · exact .inr ⟨_, rfl⟩

variable {memory : Bool} {now : UInt64} {reply : Option Int}

theorem PeriodicOk.shell (ok : PeriodicOk s)
    (fresh : ∀ enabled, s.shell = some (.bump enabled) → s.generation + 1 ∉ s.pending.map Event.arg)
    (idle : s.firing = none) (steps : shellPeriodicEnable memory now s = some (reply, s')) : PeriodicOk s' := by
  have chained := ok.chained
  unfold shellPeriodicEnable at steps
  split at steps
  · cases steps
  next enabled inside =>
    rw [inside] at chained
    split at steps
    · cases steps
      exact .between idle chained
    · split at steps <;> cases steps <;> exact .between idle chained
  next enabled inside =>
    rw [inside] at chained
    cases steps
    exact .between idle ⟨rfl, (Nat.le_of_eq chained).trans (Bool.toNat_le s.enabled)⟩
  next enabled inside =>
    cases steps
    exact ok.bump idle inside (fresh enabled inside)
  next inside =>
    rw [inside] at chained
    rcases addTimer_cases s.generation memory now s with refused | ⟨expire, added⟩
    · rw [refused] at steps
      cases steps
      refine .between idle ?_
      rw [chained.1]
      exact chained.2
    · rw [added] at steps
      cases steps
      exact .between idle ⟨chained.1, List.count_cons_self.trans (congrArg (· + 1) chained.2)⟩
  next inside =>
    rw [inside] at chained
    cases steps
    exact .between idle chained.2

-- The callback gives up: its event stops counting.
theorem PeriodicOk.ends (ok : PeriodicOk s) {arg : UInt64}
    {spot : CallbackPlace} (firing : s.firing = some (arg, spot)) (counts : beingFired s.firing = [arg])
    (chained : ∀ rest, s.chains = rest + [arg].count s.generation → Chained rest enabled s.shell) :
    PeriodicOk { s with
      enabled := enabled
      firing := some (arg, .returning) } := by
  refine ⟨?_, ?_, ?_⟩
  · rintro _ _ ⟨⟩ (same | same)
    · cases same
    · cases same
  · rintro _ _ ⟨⟩ storing
    exact ok.apart arg spot firing storing
  · refine chained ((s.pending.map Event.arg ++ []).count s.generation) ?_
    rw [Periodic.chains, Periodic.args, counts, List.append_nil, List.count_append]

-- An event goes from one place to another, or a new one takes the place of an old one.
theorem PeriodicOk.moves (ok : PeriodicOk s) {pending : List Event} {arg : UInt64} {spot : CallbackPlace}
    {printed : Nat} (perm : (pending.map Event.arg ++ beingFired (some (arg, spot))).Perm s.args)
    (going : spot = .add ∨ spot = .failed → s.enabled = true ∧ arg = s.generation)
    (apart : s.shell = some .store → arg ≠ s.generation) :
    PeriodicOk { s with
      pending := pending
      firing := some (arg, spot)
      printed := printed } := by
  refine ⟨by rintro _ _ ⟨⟩; exact going, by rintro _ _ ⟨⟩; exact apart, ?_⟩
  show Chained (List.count s.generation (pending.map Event.arg ++ beingFired (some (arg, spot)))) s.enabled s.shell
  rw [perm.count_eq]
  exact ok.chained

theorem PeriodicOk.callback (ok : PeriodicOk s) (steps : shellPeriodicTimer memory now s = some s') :
    PeriodicOk s' := by
  have chained := ok.chained
  unfold shellPeriodicTimer at steps
  split at steps
  · cases steps
  next arg firing =>
    split at steps
    next refused =>
      cases steps
      refine ok.ends firing (by rw [firing]; rfl) fun rest count => ?_
      rw [count] at chained
      by_cases live : arg = s.generation
      · -- refused because the chain is off, and nobody is about to turn it on
        have off : s.enabled = false := refused.resolve_right (not_not.mpr live)
        have early : s.shell ≠ some .store := fun storing => ok.apart arg .test firing storing live
        rw [live, List.count_singleton_self] at chained
        rw [off]
        exact chained.drop (.inr early)
      · simpa [live] using chained
    next passed =>
      cases steps
      simp only [not_or, Bool.not_eq_false, not_not] at passed
      exact ok.moves (by simp [Periodic.args, firing, beingFired]) (fun _ => passed) (ok.apart arg .test firing)
  next arg firing =>
    have live := ok.going arg .add firing (.inl rfl)
    rcases addTimer_cases arg memory now s with refused | ⟨expire, added⟩
    · rw [refused] at steps
      cases steps
      exact ok.moves (by simp [Periodic.args, firing, beingFired]) (fun _ => live) (ok.apart arg .add firing)
    · rw [added] at steps
      cases steps
      refine ok.moves ?_ (by simp) (ok.apart arg .add firing)
      simpa [Periodic.args, firing, beingFired] using (List.perm_append_singleton arg (s.pending.map Event.arg)).symm
  next arg firing =>
    obtain ⟨on, rfl⟩ := ok.going arg .failed firing (.inr rfl)
    cases steps
    refine ok.ends firing (by rw [firing]; rfl) fun rest count => ?_
    rw [count, List.count_singleton_self] at chained
    exact chained.drop (.inl on)
  next arg firing =>
    cases steps
    refine .between rfl ?_
    simpa [Periodic.chains, Periodic.args, firing, beingFired] using chained

variable {op : PeriodicOp}

theorem PeriodicOk.step (ok : PeriodicOk s) (calm : undisturbed s op = true)
    (steps : periodicStep s op = some (reply, s')) : PeriodicOk s' := by
  cases op with
  | call enabled =>
    obtain ⟨outside, same⟩ := Option.ite_none_right_eq_some.mp steps
    cases same
    have chained := ok.chained
    rw [outside.1] at chained
    exact .between outside.2 chained
  | shell memory now =>
    obtain ⟨idle, shell⟩ := Option.ite_none_right_eq_some.mp steps
    refine ok.shell (fun enabled inside => ?_) idle shell
    simpa [undisturbed, inside] using calm
  | detach event now =>
    obtain ⟨due, same⟩ := Option.ite_none_right_eq_some.mp steps
    cases same
    have calm : s.shell ≠ some .store ∨ event.arg ≠ s.generation := of_decide_eq_true calm
    refine ok.moves ?_ (by simp) fun storing => calm.resolve_left (not_not.mpr storing)
    have perm := (List.perm_cons_erase due.2.1).map Event.arg
    simpa [Periodic.args, due.1, beingFired] using (List.perm_append_singleton event.arg _).trans perm.symm
  | callback memory now =>
    obtain ⟨_, calls, same⟩ := Option.map_eq_some_iff.mp steps
    cases same
    exact ok.callback calls

theorem periodicOps_cons {allowed : Periodic → PeriodicOp → Bool} {ops : List PeriodicOp}
    (runs : periodicOps allowed (op :: ops) s = some s') :
    allowed s op = true ∧ ∃ reply m, periodicStep s op = some (reply, m) ∧
    periodicOps allowed ops m = some s' := by
  obtain ⟨m, first, rest⟩ := Option.bind_eq_some_iff.mp runs
  obtain ⟨passes, step⟩ := Option.ite_none_right_eq_some.mp first
  obtain ⟨⟨reply, _⟩, steps, rfl⟩ := Option.map_eq_some_iff.mp step
  exact ⟨passes, reply, _, steps, rest⟩

theorem PeriodicOk.ops (ops : List PeriodicOp) (ok : PeriodicOk s)
    (runs : periodicOps undisturbed ops s = some s') : PeriodicOk s' := by
  induction ops generalizing s with
  | nil =>
    cases runs
    exact ok
  | cons op ops ih =>
    obtain ⟨calm, reply, m, steps, rest⟩ := periodicOps_cons runs
    exact ih (ok.step calm steps) rest

def Off (s : Periodic) : Prop :=
  s.enabled = false ∧ s.shell = none ∧ ∀ arg spot, s.firing = some (arg, spot) →
  spot = .test ∨ spot = .returning

theorem Off.step (off : Off s) (quiet : ∀ enabled, op ≠ .call enabled)
    (steps : periodicStep s op = some (reply, s')) :
    Off s' ∧ s'.printed = s.printed ∧ s'.pending.Sublist s.pending := by
  obtain ⟨disabled, outside, place⟩ := off
  cases op with
  | call enabled => exact absurd rfl (quiet enabled)
  | shell memory now => simp [periodicStep, shellPeriodicEnable, outside] at steps
  | detach event now =>
    obtain ⟨-, same⟩ := Option.ite_none_right_eq_some.mp steps
    cases same
    refine ⟨⟨disabled, outside, ?_⟩, rfl, List.erase_sublist⟩
    rintro arg spot ⟨⟩
    exact .inl rfl
  | callback memory now =>
    obtain ⟨_, calls, same⟩ := Option.map_eq_some_iff.mp steps
    cases same
    cases firing : s.firing with
    | none => simp [shellPeriodicTimer, firing] at calls
    | some inside =>
      obtain ⟨arg, spot⟩ := inside
      obtain rfl | rfl := place arg spot firing
      · simp only [shellPeriodicTimer, firing, disabled, true_or, if_true, Option.some.injEq] at calls
        subst calls
        refine ⟨⟨rfl, outside, ?_⟩, rfl, .refl _⟩
        rintro arg spot ⟨⟩
        exact .inr rfl
      · simp only [shellPeriodicTimer, firing, Option.some.injEq] at calls
        subst calls
        exact ⟨⟨disabled, outside, by simp⟩, rfl, .refl _⟩

theorem Off.ops (ops : List PeriodicOp) (off : Off s) (quiet : ∀ enabled, .call enabled ∉ ops)
    {allowed : Periodic → PeriodicOp → Bool} (runs : periodicOps allowed ops s = some s') :
    s'.enabled = false ∧ s'.printed = s.printed ∧ s'.pending.Sublist s.pending := by
  induction ops generalizing s with
  | nil =>
    cases runs
    exact ⟨off.1, rfl, .refl _⟩
  | cons op ops ih =>
    obtain ⟨-, reply, m, steps, rest⟩ := periodicOps_cons runs
    have first : ∀ enabled, op ≠ .call enabled := fun enabled same => quiet enabled (same ▸ List.mem_cons_self)
    obtain ⟨still, silent, fewer⟩ := off.step first steps
    obtain ⟨disabled, printed, sublist⟩ :=
      ih still (fun enabled member => quiet enabled (List.mem_cons_of_mem _ member)) rest
    exact ⟨disabled, printed.trans silent, sublist.trans fewer⟩

theorem shellPeriodicEnable_on {place : EnablePlace} (inside : s.shell = some place) (on : place.on = true)
    (steps : shellPeriodicEnable memory now s = some (some 0, s')) :
    s'.enabled = true ∧ s'.shell = none ∧ ∀ enabled, place ≠ .bump enabled := by
  rw [shellPeriodicEnable, inside] at steps
  cases place with
  | test enabled =>
    dsimp only at steps
    split at steps
    · simp at steps
    split at steps
    next both =>
      cases steps
      exact ⟨(Bool.and_eq_true_iff.mp both).2, rfl, by simp⟩
    · simp at steps
  | clear enabled => simp at steps
  | bump enabled =>
    obtain rfl : enabled = true := on
    simp at steps
  | add =>
    simp only [Option.some.injEq] at steps
    split at steps <;> simp at steps
  | store =>
    cases steps
    exact ⟨rfl, rfl, by simp⟩

theorem periodicOps_oneChain {timebaseFrequency : UInt32} {ops : List PeriodicOp}
    (runs : periodicOps undisturbed ops (periodicStart timebaseFrequency) = some s) :
    (s.shell = none → s.chains = s.enabled.toNat) ∧
      (s.shell = none → s.enabled = false → ∀ later s', (∀ enabled, .call enabled ∉ later) →
        periodicOps (fun _ _ => true) later s = some s' →
          s'.enabled = false ∧ s'.printed = s.printed ∧ s'.pending.Sublist s.pending) ∧
      ∀ memory now place s', s.shell = some place → place.on = true → s.firing = none →
        shellPeriodicEnable memory now s = some (some 0, s') → s'.enabled = true ∧ s'.chains = 1 := by
  have start : PeriodicOk (periodicStart timebaseFrequency) := .between rfl rfl
  have ok := start.ops ops runs
  refine ⟨fun outside => ?_, fun outside off later s' quiet goes => ?_,
    fun memory now place s' inside on idle steps => ?_⟩
  · have chained := ok.chained
    rw [outside] at chained
    exact chained
  · refine Off.ops later ⟨off, outside, fun arg spot firing => ?_⟩ quiet goes
    have going := ok.going arg spot firing
    cases spot <;> simp [off] at going ⊢
  · obtain ⟨enabled, outside, settled⟩ := shellPeriodicEnable_on inside on steps
    have bumps : ∀ enabled, s.shell ≠ some (.bump enabled) := fun enabled same =>
      settled enabled (Option.some.inj (inside.symm.trans same))
    have chained := (ok.shell (fun enabled same => absurd same (bumps enabled)) idle steps).chained
    rw [outside, enabled] at chained
    exact ⟨enabled, chained⟩

-- `shell_periodic_enable(1)` up to its last step
def switchOn (now : UInt64) : List PeriodicOp :=
  [.call true, .shell true now, .shell true now, .shell true now, .shell true now]

-- The chain re-arms once and is switched off, and the next one starts while its last event is still pending.
def offAndOn : List PeriodicOp :=
  switchOn 20 ++
    [.shell true 20, .detach ⟨1, 220⟩ 230, .callback true 230, .callback true 230, .callback true 230] ++
    [.call false, .shell true 240, .shell true 240, .shell true 240] ++ switchOn 250 ++ [.shell true 250]

theorem periodicOps_oneChain_offAndOn :
    ∃ s, periodicOps undisturbed offAndOn (periodicStart 100) = some s ∧
      s.pending = [⟨3, 450⟩, ⟨1, 430⟩] ∧
      s.chains = 1 :=
  ⟨_, rfl, rfl, (@periodicOps_oneChain _ 100 offAndOn rfl).1 rfl⟩

-- The event fires before `periodic_enabled = 1`: the callback gives up, and the call reports a chain that is
-- not there.
theorem shellPeriodicEnable_noChain :
    ∃ s s', periodicOps (fun _ _ => true)
        (switchOn 20 ++ [.detach ⟨1, 220⟩ 300, .callback true 300, .callback true 300])
          (periodicStart 100) = some s ∧
      shellPeriodicEnable true 300 s = some (some 0, s') ∧ s'.shell = none ∧ s'.enabled = true ∧ s'.chains = 0 :=
  ⟨_, _, rfl, rfl, rfl, rfl, rfl⟩

section Queue

variable {callback : UInt64} {t t' : Timers} {queue : List Addr}

-- The events of one callback in the queue of the timer.
def periodicEvents (callback : UInt64) (t : Timers) (queue : List Addr) : List Event :=
  (queue.filter fun n => (t.event n).callback = callback).map fun n => ⟨(t.event n).arg, (t.event n).expire⟩

structure Shows (callback : UInt64) (t : Timers) (s : Periodic) : Prop where
  frequency : s.timebaseFrequency = t.timebaseFrequency
  enabled : s.timerEnabled = t.enabled
  pending : ∃ queue, Stack (nextOf t) t.head queue ∧ s.pending.Perm (periodicEvents callback t queue)

theorem periodicEvents_congr
    (same : ∀ n ∈ queue, { t'.event n with next := none } = { t.event n with next := none }) :
    periodicEvents callback t' queue = periodicEvents callback t queue := by
  have fields : ∀ n ∈ queue, (t'.event n).callback = (t.event n).callback ∧ (t'.event n).arg = (t.event n).arg ∧
      (t'.event n).expire = (t.event n).expire := by
    intro n member
    obtain ⟨expire, callback, -, arg, -⟩ := TimerEvent.mk.inj (same n member)
    exact ⟨callback, arg, expire⟩
  unfold periodicEvents
  have kept : queue.filter (fun n => (t'.event n).callback = callback) =
      queue.filter (fun n => (t.event n).callback = callback) :=
    List.filter_congr fun n member => by rw [(fields n member).1]
  rw [kept]
  refine List.map_congr_left fun n member => ?_
  obtain ⟨-, arg, expire⟩ := fields n (List.mem_filter.mp member).1
  rw [arg, expire]

theorem periodicEvents_cons (n : Addr) : periodicEvents callback t (n :: queue) =
    if (t.event n).callback = callback then
      ⟨(t.event n).arg, (t.event n).expire⟩ :: periodicEvents callback t queue
    else periodicEvents callback t queue := by
  by_cases same : (t.event n).callback = callback <;> simp [periodicEvents, same]

theorem inserted_perm (t : Timers) (node : Addr) (xs : List Addr) : (inserted t node xs).Perm (node :: xs) := by
  have middle : (inserted t node xs).Perm
      (node :: (earlier (expireOf t) (expireOf t node) xs ++ later (expireOf t) (expireOf t node) xs)) :=
    List.perm_middle
  rwa [earlier_append_later] at middle

theorem Shows.inserts (shows : Shows callback t s) {n : Addr} (stack : Stack (nextOf t) t.head queue)
    (absent : n ∉ queue) (mine : (t.event n).callback = callback) :
    ∃ t', insertEvent n t = some t' ∧
      Shows callback t' { s with pending := ⟨(t.event n).arg, (t.event n).expire⟩ :: s.pending } := by
  obtain ⟨t', walk, after, relinked⟩ := insertEvent_stack stack absent
  obtain ⟨deadline, sbi, programmed⟩ := timerReprogramLocked_eq t'
  obtain ⟨others, listed, perm⟩ := shows.pending
  rw [listed.unique stack] at perm
  have events : periodicEvents callback (timerReprogramLocked t') (inserted t n queue) =
      periodicEvents callback t (inserted t n queue) := by
    rw [programmed]
    exact periodicEvents_congr fun m _ => relinked.data m
  refine ⟨_, walk, ?_, ?_, inserted t n queue, ?_, ?_⟩
  · rw [programmed, relinked.others]
    exact shows.frequency
  · rw [programmed, relinked.others]
    exact shows.enabled
  · rw [programmed]
    exact after
  · rw [events]
    have split : (periodicEvents callback t (inserted t n queue)).Perm (periodicEvents callback t (n :: queue)) :=
      ((inserted_perm t n queue).filter _).map _
    rw [periodicEvents_cons, if_pos mine] at split
    exact (perm.cons _).trans split.symm

theorem Shows.fills (shows : Shows callback t s) {n : Addr} (stack : Stack (nextOf t) t.head queue)
    (absent : n ∉ queue) (arg duration cleanup now : UInt64) :
    Shows callback (fillEvent n callback arg duration cleanup now t) s ∧
      Stack (nextOf (fillEvent n callback arg duration cleanup now t)) t.head queue := by
  have others : ∀ m ∈ queue, (fillEvent n callback arg duration cleanup now t).event m = t.event m := by
    intro m member
    have other : m ≠ n := fun same => absent (same ▸ member)
    simp [fillEvent, other]
  have same : Stack (nextOf (fillEvent n callback arg duration cleanup now t)) t.head queue :=
    ⟨chain_congr (fun m member => by rw [nextOf, others m member, nextOf]) stack.chain, stack.first⟩
  obtain ⟨listed, listing, perm⟩ := shows.pending
  rw [listing.unique stack] at perm
  have events : periodicEvents callback (fillEvent n callback arg duration cleanup now t) queue =
      periodicEvents callback t queue :=
    periodicEvents_congr fun m member => by rw [others m member]
  exact ⟨⟨shows.frequency, shows.enabled, queue, same, events ▸ perm⟩, same⟩

-- `add_timer` in one step does what its sections do one after the other.
theorem addTimer_shown {t : TimerState} (run : TimerRun TimerOp.allowed t) (given : callback ≠ 0)
    (shows : Shows callback t.timers s) {i : Nat} (closed : t.adds i = none) {node : Option Addr}
    (free : ∀ n, node = some n → t.record.owner n = none) (arg now : UInt64) :
    ∃ m, insertStep i (addStep i callback arg (2 * s.timebaseFrequency.toUInt64) 0 node now t) = some m ∧
      Shows callback (giveBackStep i m).timers (s.addTimer arg node.isSome now).2 ∧
      ((s.addTimer arg node.isSome now).1 = 0 ↔ ∃ n, node = some n ∧
        (giveBackStep i m).record.owner n ≠ none) := by
  obtain ⟨place, queue, rests, ok⟩ := timerRun_own run
  have unchanged : insertStep i t = some t ∧ giveBackStep i t = t := by simp [insertStep, giveBackStep, closed]
  have failed : ¬ (-1 : Int) = 0 := by decide
  by_cases frequency : s.timebaseFrequency = 0
  · have refused : s.addTimer arg node.isSome now = (-1, s) := if_pos (.inl frequency)
    refine ⟨t, by simp [addStep, ← shows.frequency, frequency, unchanged.1], ?_⟩
    rw [unchanged.2, refused]
    refine ⟨shows, iff_of_false failed ?_⟩
    rintro ⟨n, taken, owned⟩
    exact owned (free n taken)
  have set : t.timers.timebaseFrequency ≠ 0 := shows.frequency ▸ frequency
  cases node with
  | none =>
    have refused : s.addTimer arg false now = (-1, s) := if_pos (.inr (.inl rfl))
    refine ⟨t, by simp [addStep, set, given, unchanged.1], ?_⟩
    rw [unchanged.2, Option.isSome_none, refused]
    exact ⟨shows, iff_of_false failed (by simp)⟩
  | some n =>
    have absent : n ∉ queue := ok.fresh (free n rfl) .pending
    rw [Option.isSome_some]
    by_cases overflows : expireOverflows now (2 * s.timebaseFrequency.toUInt64) = true
    · have refused : s.addTimer arg true now = (-1, s) := if_pos (.inr (.inr (.inl overflows)))
      refine ⟨_, by simp [addStep, set, given, overflows, insertStep]; rfl, ?_⟩
      rw [refused]
      exact ⟨by simpa [giveBackStep] using shows,
        iff_of_false failed (by simp [giveBackStep, Lifecycle.Record.giveBack])⟩
    obtain ⟨filled, stack⟩ := shows.fills ok.pending absent arg (2 * s.timebaseFrequency.toUInt64) 0 now
    have same := filled.enabled
    by_cases enabled : s.timerEnabled = true
    · have added : s.addTimer arg true now =
          (0, { s with pending := ⟨arg, now + 2 * s.timebaseFrequency.toUInt64⟩ :: s.pending }) :=
        if_neg (by simp [frequency, overflows, enabled])
      obtain ⟨timers, inserts, shown⟩ := filled.inserts stack absent (by simp [fillEvent])
      rw [enabled] at same
      refine ⟨_, by simp [addStep, set, given, overflows, insertStep, ← same, inserts]; rfl, ?_⟩
      rw [added]
      exact ⟨by simpa [giveBackStep, fillEvent] using shown,
        iff_of_true rfl (by simp [giveBackStep, Lifecycle.Record.take, Lifecycle.Record.note])⟩
    · have off : s.timerEnabled = false := by simpa using enabled
      have refused : s.addTimer arg true now = (-1, s) := if_pos (.inr (.inr (.inr off)))
      rw [off] at same
      refine ⟨_, by simp [addStep, set, given, overflows, insertStep, ← same]; rfl, ?_⟩
      rw [refused]
      exact ⟨by simpa [giveBackStep] using filled,
        iff_of_false failed (by simp [giveBackStep, Lifecycle.Record.giveBack])⟩

theorem timerTurn_shown (shows : Shows callback t s) (idle : s.firing = none) {node : Option Addr}
    (turn : timerTurn now t = some (node, t')) :
    Shows callback t' s ∧ (∀ n, node = some n → (t.event n).callback ≠ callback) ∨
      ∃ n s', node = some n ∧ (t.event n).callback = callback ∧ Shows callback t' s' ∧
        periodicStep s (.detach ⟨(t.event n).arg, (t.event n).expire⟩ now) = some (none, s') := by
  obtain ⟨queue, stack, perm⟩ := shows.pending
  unfold timerTurn at turn
  split at turn
  · cases turn
    exact .inl ⟨shows, by simp⟩
  next disabled =>
    have enabled : t.enabled = true := by simpa using disabled
    obtain ⟨deadline, -, detach⟩ := Option.map_eq_some_iff.mp turn
    have ticked : Stack (nextOf { t with schedTickDeadline := deadline }) t.head queue := stack
    rcases detachDue_cases ticked now with ⟨same, -⟩ | ⟨n, rest, after, rfl, taken, due, restStack, relinked⟩
    · obtain ⟨rfl, rfl⟩ := Prod.mk.inj (same.symm.trans detach)
      exact .inl ⟨⟨shows.frequency, shows.enabled, queue, ticked, perm⟩, by simp⟩
    · obtain ⟨rfl, rfl⟩ := Prod.mk.inj (taken.symm.trans detach)
      have events : periodicEvents callback after rest = periodicEvents callback t rest :=
        periodicEvents_congr fun m _ => relinked.data m
      have frequency : s.timebaseFrequency = after.timebaseFrequency := by
        rw [relinked.others]
        exact shows.frequency
      have still : s.timerEnabled = after.enabled := by
        rw [relinked.others]
        exact shows.enabled
      rw [periodicEvents_cons] at perm
      split at perm
      next mine =>
        have first : ⟨(t.event n).arg, (t.event n).expire⟩ ∈ s.pending := perm.mem_iff.mpr List.mem_cons_self
        have others := perm.erase (⟨(t.event n).arg, (t.event n).expire⟩ : Event)
        rw [List.erase_cons_head] at others
        have detached : periodicStep s (.detach ⟨(t.event n).arg, (t.event n).expire⟩ now) = some (none, { s with
            pending := s.pending.erase ⟨(t.event n).arg, (t.event n).expire⟩
            firing := some ((t.event n).arg, .test) }) :=
          if_pos ⟨idle, first, shows.enabled.trans enabled, due⟩
        refine .inr ⟨n, _, rfl, mine, ?_, detached⟩
        exact ⟨frequency, still, rest, restStack, events ▸ others⟩
      next other =>
        refine .inl ⟨⟨frequency, still, rest, restStack, events ▸ perm⟩, ?_⟩
        rintro m ⟨⟩
        exact other

end Queue

end OrangeKernel.Shell
