import OrangeKernel.Uart.Receive

set_option autoImplicit false

namespace OrangeKernel.Uart

open Function Thread

structure ReadersOk (rxWait : Addr) (a : Sched) (inside : List Addr) (entry : Addr → Option Addr) : Prop where
  nodup : inside.Nodup
  known : ∀ t ∈ inside, t ∈ a.all ∧ a.idle t = false
  calling : ∀ t e, entry t = some e → t ∈ inside
  own : ∀ t u e, entry t = some e → entry u = some e → t = u
  queued : ∀ e, a.place e = some rxWait → ∃ t, a.owner e = some t ∧ entry t = some e
  registered : ∀ t e, entry t = some e →
    (a.owner e = some t ∧ a.place e = some rxWait) ∨ (a.state t = .zombie ∧ a.owner e = none)
  looping : ∀ t ∈ inside, entry t = none → a.state t ≠ .waiting

structure UartOk (rxWait : Addr) (s : UartState) (a : Sched) : Prop where
  rep : Rep s.kernel a
  sched : SchedOk a
  readers : ReadersOk rxWait a s.inside s.entry
  current : a.current ∈ s.inside → a.state a.current ≠ .waiting
  bounded : s.rxBuf.size ≤ 128

def Covered (rxWait : Addr) (s : UartState) : Prop :=
  (∃ t, WaitingOn rxWait s.kernel t) → s.rxBuf.size ≤ s.inside.countP (awake s.kernel)

variable {k : Kernel} {a : Sched}

theorem waitingOn_iff (rep : Rep k a) (queue t : Addr) :
    WaitingOn queue k t ↔ a.state t = .waiting ∧ ∃ e, a.owner e = some t ∧ a.place e = some queue := by
  unfold WaitingOn
  rw [rep.state, rep.owner, rep.place]

theorem awake_iff (rep : Rep k a) (t : Addr) :
    awake k t = true ↔ a.state t = .running ∨ a.state t = .runnable := by
  unfold awake
  rw [rep.state]
  simp

theorem countP_le_erase (p : Addr → Bool) {xs : List Addr} {x : Addr} (member : x ∈ xs) :
    xs.countP p ≤ (xs.erase x).countP p + 1 := by
  rw [(List.perm_cons_erase member).countP_eq, List.countP_cons]
  split <;> omega

theorem countP_succ {p q : Addr → Bool} {xs : List Addr} (nodup : xs.Nodup) {x : Addr} (member : x ∈ xs)
    (before : p x = false) (after : q x = true) (same : ∀ y, y ≠ x → q y = p y) :
    xs.countP q = xs.countP p + 1 := by
  have rest : (xs.erase x).countP q = (xs.erase x).countP p := by
    refine List.countP_congr fun y inRest => ?_
    rw [same y ((nodup.mem_erase_iff.mp inRest).1)]
  rw [(List.perm_cons_erase member).countP_eq, List.countP_cons, (List.perm_cons_erase member).countP_eq (p := p),
    List.countP_cons, rest, before, after]
  simp

variable {b : Sched} {e : Addr}

section Readers

variable {rxWait : Addr} {inside : List Addr} {entry : Addr → Option Addr}
  (readers : ReadersOk rxWait a inside entry)
include readers

theorem ReadersOk.switched (switched : Switched a b) : ReadersOk rxWait b inside entry := by
  refine { readers with
    known := ?_
    queued := ?_
    registered := ?_
    looping := ?_ }
  · rw [switched.all, switched.idle]
    exact readers.known
  · rw [switched.place, switched.owner]
    exact readers.queued
  · intro t e local'
    rw [switched.owner, switched.place, switched.zombie]
    exact readers.registered t e local'
  · intro t member free
    rw [Ne, switched.waiting]
    exact readers.looping t member free

theorem ReadersOk.prepare (member : a.current ∈ inside) (awake : entry a.current = none) (free : a.owner e = none)
    (unused : ∀ t ∈ inside, entry t ≠ some e) :
    ReadersOk rxWait (a.prepare rxWait e) inside (update entry a.current (some e)) := by
  have other : ∀ t e', entry t = some e' → t ≠ a.current ∧ e' ≠ e := by
    rintro t e' held
    refine ⟨?_, ?_⟩
    · rintro rfl
      simp [awake] at held
    · rintro rfl
      exact unused t (readers.calling t e' held) held
  refine { readers with
    calling := fun t e' held => ?_
    own := fun t u e' left right => ?_
    queued := fun e' placed => ?_
    registered := fun t e' held => ?_
    looping := fun t inside' outside => ?_ }
  · have before := readers.calling t e'
    grind [update_apply]
  · have before := readers.own t u e'
    have left' := other t e'
    have right' := other u e'
    grind [update_apply]
  · by_cases same : e' = e
    · exact ⟨a.current, by simp [Sched.prepare, same], by simp [same]⟩
    · simp only [Sched.prepare, update_of_ne same] at placed ⊢
      obtain ⟨t, owned, held⟩ := readers.queued e' placed
      exact ⟨t, owned, by simpa [(other t e' held).1] using held⟩
  · by_cases here : t = a.current
    · subst here
      obtain rfl : e = e' := by simpa using held
      exact Or.inl ⟨by simp [Sched.prepare], by simp [Sched.prepare]⟩
    · rw [update_of_ne here] at held
      have apart := (other t e' held).2
      simpa [Sched.prepare, apart, here] using readers.registered t e' held
  · have here : t ≠ a.current := by
      rintro rfl
      simp at outside
    rw [update_of_ne here] at outside
    simpa [Sched.prepare, here] using readers.looping t inside' outside

theorem ReadersOk.finish (held : entry a.current = some e) (awake : a.state a.current ≠ .waiting) :
    ReadersOk rxWait (a.finish e) inside (update entry a.current none) := by
  have other : ∀ t e', update entry a.current none t = some e' → t ≠ a.current ∧
    entry t = some e' ∧ e' ≠ e := by
    intro t e' held'
    have apart : t ≠ a.current := by
      rintro rfl
      simp at held'
    rw [update_of_ne apart] at held'
    refine ⟨apart, held', ?_⟩
    rintro rfl
    exact apart (readers.own t a.current e' held' held)
  have looping : ∀ t ∈ inside, update entry a.current none t = none → a.state t ≠ .waiting := by
    intro t member free
    by_cases here : t = a.current
    · exact here ▸ awake
    · rw [update_of_ne here] at free
      exact readers.looping t member free
  have kept : ∀ e', e' ≠ e → ∀ t, entry t = some e' → update entry a.current none t = some e' := by
    intro e' apart t held'
    have here : t ≠ a.current := by
      rintro rfl
      exact apart (Option.some.inj (held'.symm.trans held))
    rw [update_of_ne here, held']
  obtain ⟨owned, placed⟩ | ⟨-, unowned⟩ := readers.registered a.current e held
  · have finished : a.finish e = a.detach e a.current rxWait := by
      simp [Sched.finish, owned, placed, awake]
    rw [finished]
    refine { readers with
      calling := fun t e' held' => readers.calling t e' (other t e' held').2.1
      own := fun t u e' left right => readers.own t u e' (other t e' left).2.1 (other u e' right).2.1
      queued := fun e' placed' => ?_
      registered := fun t e' held' => ?_
      looping := looping }
    · have apart : e' ≠ e := by
        rintro rfl
        simp [Sched.detach] at placed'
      simp only [Sched.detach, update_of_ne apart] at placed' ⊢
      obtain ⟨t, owned', held'⟩ := readers.queued e' placed'
      exact ⟨t, owned', kept e' apart t held'⟩
    · obtain ⟨-, old, apart⟩ := other t e' held'
      simpa [Sched.detach, apart] using readers.registered t e' old
  · have finished : a.finish e = a := by simp [Sched.finish, unowned]
    rw [finished]
    refine { readers with
      calling := fun t e' held' => readers.calling t e' (other t e' held').2.1
      own := fun t u e' left right => readers.own t u e' (other t e' left).2.1 (other u e' right).2.1
      queued := fun e' placed' => ?_
      registered := fun t e' held' => readers.registered t e' (other t e' held').2.1
      looping := looping }
    obtain ⟨t, owned', held'⟩ := readers.queued e' placed'
    have apart : e' ≠ e := by
      rintro rfl
      simp [unowned] at owned'
    exact ⟨t, owned', kept e' apart t held'⟩

theorem ReadersOk.wake {t : Addr} (asleep : a.state t = .waiting) : ReadersOk rxWait (a.wake t) inside entry := by
  obtain ⟨sameAll, sameIdle, -, -, sameOwner, samePlace⟩ := a.wake_table t
  have states : ∀ u, (a.wake t).state u = .zombie ↔ a.state u = .zombie := by
    intro u
    rw [Sched.wake_state asleep]
    grind [update_apply]
  have sleepers : ∀ u, (a.wake t).state u = .waiting → a.state u = .waiting := by
    intro u
    rw [Sched.wake_state asleep]
    grind [update_apply]
  refine { readers with
    known := by rw [sameAll, sameIdle]; exact readers.known
    queued := by rw [sameOwner, samePlace]; exact readers.queued
    registered := fun u e held => ?_
    looping := fun u member free still => readers.looping u member free (sleepers u still) }
  rw [sameOwner, samePlace, states]
  exact readers.registered u e held

theorem ReadersOk.stop (t : Addr) : ReadersOk rxWait (a.stop t) inside entry := by
  unfold Sched.stop
  split
  · exact readers
  next alive =>
    refine { readers with
      queued := fun e placed => ?_
      registered := fun u e held => ?_
      looping := fun u member free => ?_ }
    · have before := readers.queued e
      simp only [Sched.bury, Sched.cancel] at placed ⊢
      grind
    · have before := readers.registered u e held
      simp only [Sched.bury, Sched.cancel]
      grind [update_apply]
    · have before := readers.looping u member free
      simp only [Sched.bury, Sched.cancel]
      grind [update_apply]

end Readers

section Steps

variable {rxWait : Addr} {s : UartState} (ok : UartOk rxWait s a)
include ok

theorem UartOk.enter (flags : LocalFlags) :
    UartOk rxWait (recvEnter flags s) a ∧ (Covered rxWait s → Covered rxWait (recvEnter flags s)) := by
  have entered : threadCurrent s.kernel = some a.current := ok.rep.current
  unfold recvEnter
  rw [entered]
  dsimp only
  split
  next sleepable =>
    have running : a.idle a.current = false ∧ a.state a.current = .running := by
      have can := sleepable.1
      unfold threadCanSleep at can
      rw [entered] at can
      simp only [ok.rep.idle, ok.rep.state, Bool.and_eq_true, Bool.not_eq_true', decide_eq_true_eq] at can
      exact can.1.1
    have outside : s.entry a.current = none := by
      cases entry : s.entry a.current with
      | none => rfl
      | some e => exact absurd (ok.readers.calling _ e entry) sleepable.2
    refine ⟨{ ok with
      readers := { ok.readers with
        nodup := List.nodup_cons.mpr ⟨sleepable.2, ok.readers.nodup⟩
        known := ?_
        calling := fun t e entry => List.mem_cons_of_mem _ (ok.readers.calling t e entry)
        looping := ?_ }
      current := fun _ => by simp [running.2] }, ?_⟩
    · intro t member
      cases member with
      | head => exact ⟨ok.sched.current.member, running.1⟩
      | tail _ old => exact ok.readers.known t old
    · intro t member free
      cases member with
      | head => simp [running.2]
      | tail _ old => exact ok.readers.looping t old free
    · intro covered sleeper
      exact (covered sleeper).trans (by simp [List.countP_cons])
  · exact ⟨ok, id⟩

theorem UartOk.take {c : UInt8} {popped : Ringbuf} (member : a.current ∈ s.inside)
    (free : s.entry a.current = none) (pop : ringbufPop s.rxBuf = some (c, popped)) :
    UartOk rxWait { s with rxBuf := popped, inside := s.inside.erase a.current } a ∧
      (Covered rxWait s → Covered rxWait { s with rxBuf := popped, inside := s.inside.erase a.current }) := by
  have size := ringbufPop_size pop
  have bounded := ok.bounded
  refine ⟨{ ok with
    readers := { ok.readers with
      nodup := ok.readers.nodup.erase _
      known := fun t inRest => ok.readers.known t (List.mem_of_mem_erase inRest)
      calling := ?_
      looping := fun t inRest => ok.readers.looping t (List.mem_of_mem_erase inRest) }
    current := fun inRest => ok.current (List.mem_of_mem_erase inRest)
    bounded := by dsimp only; omega }, ?_⟩
  · intro t e entry
    refine (List.mem_erase_of_ne ?_).mpr (ok.readers.calling t e entry)
    rintro rfl
    simp [free] at entry
  · intro covered sleeper
    have before := covered sleeper
    have left := countP_le_erase (Uart.awake s.kernel) member
    dsimp only
    omega

theorem UartOk.sleep (bottomHalf : Bool) (member : a.current ∈ s.inside) (free : s.entry a.current = none)
    (fresh : freshLocal e s = true) :
    ∃ s' b, recvSleep rxWait bottomHalf a.current e s = some s' ∧ UartOk rxWait s' b ∧ s'.rxBuf = s.rxBuf := by
  obtain ⟨prepared, prepares, registered⟩ :=
    ok.rep.prepare ok.sched.wait ⟨false, bottomHalf⟩ (some rxWait) (some e)
  have okPrepared := ok.sched.prepareLocked ⟨false, bottomHalf⟩ (some rxWait) (some e)
  unfold recvSleep
  dsimp only
  rw [prepares]
  obtain refused | ⟨accepted, -, thread, worker, -, unowned⟩ :=
    a.prepareLocked_cases ⟨false, bottomHalf⟩ rxWait e
  · rw [refused] at registered ⊢
    exact ⟨_, a, rfl, { ok with rep := registered }, rfl⟩
  · rw [accepted] at registered okPrepared ⊢
    dsimp only at thread registered okPrepared
    simp only [freshLocal, Bool.and_eq_true, List.all_eq_true, decide_eq_true_eq, ne_eq, decide_not,
      Bool.not_eq_true', decide_eq_false_iff_not] at fresh
    -- the thread is WAITING with a registration, so it is switched away from
    have sleeps : (a.prepare rxWait e).waitLocked ⟨false, bottomHalf⟩ = (0, (a.prepare rxWait e).schedule) := by
      simp [Sched.waitLocked, Sched.prepare, thread, worker]
    obtain ⟨switched, switches, after⟩ := registered.wait okPrepared ⟨false, bottomHalf⟩
    rw [sleeps] at switches after
    have switch := okPrepared.switched
    have readers := ok.readers.prepare member free unowned fresh.2
    refine ⟨{ s with kernel := switched, entry := update s.entry a.current (some e) }, _, by simp [switches],
      ⟨after, okPrepared.schedule, readers.switched switch, fun _ => ?_, ok.bounded⟩, rfl⟩
    obtain ⟨-, idle⟩ | running := switch.current
    · exact absurd idle (by simp [Sched.prepare, worker])
    · simp [running]

theorem UartOk.pass (bottomHalf : Bool) (e : Addr) :
    ∃ s' b, recvPass rxWait bottomHalf e s = some s' ∧ UartOk rxWait s' b ∧
      (Covered rxWait s → Covered rxWait s') := by
  have entered : threadCurrent s.kernel = some a.current := ok.rep.current
  unfold recvPass
  rw [entered]
  dsimp only
  split
  · exact ⟨s, a, rfl, ok, id⟩
  next due =>
    rw [not_or, not_not, not_not] at due
    obtain ⟨member, free⟩ := due
    cases pop : ringbufPop s.rxBuf with
    | some result =>
      obtain ⟨taken, covered⟩ := ok.take member free pop
      exact ⟨_, a, rfl, taken, covered⟩
    | none =>
      have empty := ringbufPop_none pop
      dsimp only
      split
      next fresh =>
        obtain ⟨s', b, result, okAfter, sameRing⟩ := ok.sleep bottomHalf member free fresh
        refine ⟨s', b, result, okAfter, fun _ _ => ?_⟩
        rw [sameRing, empty]
        exact Nat.zero_le _
      · exact ⟨s, a, rfl, ok, id⟩

theorem UartOk.resume :
    ∃ s' b, recvResume s = some s' ∧ UartOk rxWait s' b ∧ (Covered rxWait s → Covered rxWait s') := by
  have entered : threadCurrent s.kernel = some a.current := ok.rep.current
  unfold recvResume
  rw [entered]
  dsimp only
  cases held : s.entry a.current with
  | none => exact ⟨s, a, rfl, ok, id⟩
  | some e =>
    have member := ok.readers.calling _ e held
    have running := ok.current member
    have own : ∀ t, a.owner e = some t → t = a.current := by
      intro t owned
      obtain ⟨mine, -⟩ | ⟨-, none⟩ := ok.readers.registered _ e held
      · exact Option.some.inj (owned.symm.trans mine)
      · simp [none] at owned
    obtain ⟨finished, finishes, after⟩ := ok.rep.finish ok.sched.wait e
    have states : (a.finish e).state = a.state ∧ (a.finish e).current = a.current := by
      unfold Sched.finish
      split
      next t q owned placed =>
        have asleep : ¬ (t = a.current ∧ a.state t = .waiting ∧ (a.detach e t q).regs t = []) := by
          rintro ⟨rfl, waiting, -⟩
          exact running waiting
        rw [if_neg asleep]
        exact ⟨rfl, rfl⟩
      next => exact ⟨rfl, rfl⟩
    have sleepers : ∀ t, WaitingOn rxWait finished t → WaitingOn rxWait s.kernel t := by
      intro t
      rw [waitingOn_iff after, waitingOn_iff ok.rep, states.1]
      rintro ⟨waiting, e', owned, placed⟩
      obtain ⟨keptOwner, keptPlace⟩ := a.finish_links e e' t rxWait
      exact ⟨waiting, e', keptOwner owned, keptPlace placed⟩
    have sameAwake : awake finished = awake s.kernel := by
      funext t
      rw [Bool.eq_iff_iff, awake_iff after, awake_iff ok.rep, states.1]
    refine ⟨{ s with kernel := finished, entry := update s.entry a.current none }, a.finish e, by simp [finishes],
      ⟨after, ok.sched.finish own, ok.readers.finish held running, ?_, ok.bounded⟩, ?_⟩
    · intro _
      rw [states.1, states.2]
      exact running
    · rintro covered ⟨t, waiting⟩
      have before := covered ⟨t, sleepers t waiting⟩
      rwa [← sameAwake] at before

theorem UartOk.drain (c : UInt8) :
    ∃ s' b, rxDrainByte rxWait c s = some s' ∧ UartOk rxWait s' b ∧ (Covered rxWait s → Covered rxWait s') := by
  unfold rxDrainByte
  cases push : ringbufPush c s.rxBuf with
  | none => exact ⟨s, a, rfl, ok, id⟩
  | some pushed =>
    obtain ⟨size, bounded⟩ := ringbufPush_size ok.bounded push
    obtain ⟨woken, wakes, after⟩ := ok.rep.wakeOne ok.sched rxWait
    have okAfter := ok.sched.wakeFirst (a.queued rxWait)
    dsimp only
    rw [wakes]
    refine ⟨{ s with kernel := woken, rxBuf := pushed }, a.wakeOne rxWait, rfl, ?_⟩
    unfold Sched.wakeOne at after ⊢
    obtain ⟨unchanged, nobody⟩ | ⟨e, queued, t, owned, asleep, wakesIt⟩ := a.wakeFirst_cases (a.queued rxWait)
    · rw [unchanged] at after ⊢
      refine ⟨{ ok with rep := after, bounded := bounded }, ?_⟩
      rintro - ⟨t, waiting⟩
      obtain ⟨waiting, e, owned, placed⟩ := (waitingOn_iff after rxWait t).mp waiting
      exact absurd waiting (nobody e ((ok.sched.wait.mem_queued e rxWait).mpr placed) t owned)
    · rw [wakesIt] at after okAfter ⊢
      have placed := (ok.sched.wait.mem_queued e rxWait).mp queued
      obtain ⟨u, owned', held⟩ := ok.readers.queued e placed
      obtain rfl : u = t := Option.some.inj (owned'.symm.trans owned)
      have member := ok.readers.calling u e held
      obtain ⟨-, -, sameCurrent, -, sameOwner, samePlace⟩ := a.wake_table u
      refine ⟨⟨after, okAfter, ok.readers.wake asleep, fun inside => ?_, bounded⟩, fun covered _ => ?_⟩
      · rw [sameCurrent] at inside ⊢
        have before := ok.current inside
        rw [Sched.wake_state asleep]
        grind [update_apply]
      · have before := covered ⟨u, (waitingOn_iff ok.rep rxWait u).mpr ⟨asleep, e, owned, placed⟩⟩
        have more : s.inside.countP (awake woken) = s.inside.countP (awake s.kernel) + 1 := by
          refine countP_succ ok.readers.nodup member ?_ ?_ fun v other => ?_
          · rw [Bool.eq_false_iff, Ne, awake_iff ok.rep, asleep]
            simp
          · rw [awake_iff after, Sched.wake_state asleep]
            grind [update_apply]
          · rw [Bool.eq_iff_iff, awake_iff after, awake_iff ok.rep, Sched.wake_state asleep]
            simp [other]
        dsimp only
        omega

theorem UartOk.schedule :
    ∃ s' b, (schedule s.kernel).map (fun kernel => { s with kernel := kernel }) = some s' ∧ UartOk rxWait s' b ∧
      (Covered rxWait s → Covered rxWait s') := by
  obtain ⟨switched, switches, after⟩ := ok.rep.schedule ok.sched
  have switch := ok.sched.switched
  have sameAwake : awake switched = awake s.kernel := by
    funext t
    rw [Bool.eq_iff_iff, awake_iff after, awake_iff ok.rep, switch.awake]
  refine ⟨{ s with kernel := switched }, a.schedule, by rw [switches]; rfl,
    ⟨after, ok.sched.schedule, ok.readers.switched switch, fun inside => ?_, ok.bounded⟩, ?_⟩
  · obtain ⟨same, -⟩ | running := switch.current
    · rw [same] at inside ⊢
      exact ok.current inside
    · simp [running]
  · rintro covered ⟨t, waiting⟩
    have asleep : WaitingOn rxWait s.kernel t := by
      rw [waitingOn_iff after, switch.waiting, switch.owner, switch.place] at waiting
      exact (waitingOn_iff ok.rep rxWait t).mpr waiting
    have before := covered ⟨t, asleep⟩
    rwa [← sameAwake] at before

theorem UartOk.stopped (rep : Rep k b) (okAfter : SchedOk b) (readers : ReadersOk rxWait b s.inside s.entry)
    (sameCurrent : b.current = a.current) (sleepers : ∀ t, b.state t = .waiting → a.state t = .waiting) :
    UartOk rxWait { s with kernel := k } b := by
  refine ⟨rep, okAfter, readers, fun inside waiting => ?_, ok.bounded⟩
  rw [sameCurrent] at inside waiting
  exact ok.current inside (sleepers _ waiting)

theorem UartOk.spared (rep : Rep k b) (readers : ReadersOk rxWait b s.inside s.entry) {named : Addr → Bool}
    (gone : ∀ t ∈ a.all, a.idle t = false → named t = true → b.state t = .zombie)
    (kept : ∀ t, named t = false → b.state t = a.state t)
    (spares : (∃ t, WaitingOn rxWait s.kernel t ∧ named t = false) →
      s.rxBuf.size ≤ s.inside.countP fun u => awake s.kernel u && !named u) :
    Covered rxWait { s with kernel := k } := by
  rintro ⟨t, waiting⟩
  obtain ⟨asleep, e, owned, placed⟩ := (waitingOn_iff rep rxWait t).mp waiting
  obtain ⟨u, owned', held⟩ := readers.queued e placed
  obtain rfl : u = t := Option.some.inj (owned'.symm.trans owned)
  obtain ⟨member, worker⟩ := ok.readers.known u (ok.readers.calling u e held)
  have other : named u = false := by
    cases name : named u with
    | false => rfl
    | true => simp [gone u member worker name] at asleep
  rw [kept u other] at asleep
  have before : WaitingOn rxWait s.kernel u := by
    refine (waitingOn_iff ok.rep rxWait u).mpr ⟨asleep, e, ?_⟩
    obtain registered | ⟨dead, -⟩ := ok.readers.registered u e held
    · exact registered
    · simp [dead] at asleep
  refine (spares ⟨u, before, other⟩).trans (List.countP_mono_left fun v _ stays => ?_)
  simp only [Bool.and_eq_true, Bool.not_eq_true'] at stays
  rw [awake_iff rep, kept v stays.2]
  exact (awake_iff ok.rep v).mp stays.1

end Steps

variable {rxWait : Addr}

theorem ReadersOk.stopTid {inside : List Addr} {entry : Addr → Option Addr} (tid : Int)
    (readers : ReadersOk rxWait a inside entry) :
    ReadersOk rxWait (a.stopTid tid).2 inside entry ∧ (a.stopTid tid).2.current = a.current ∧
      ∀ t, (a.stopTid tid).2.state t = .waiting → a.state t = .waiting := by
  unfold Sched.stopTid
  split
  · exact ⟨readers, rfl, fun _ => id⟩
  next t found =>
    split
    · exact ⟨readers, rfl, fun _ => id⟩
    · obtain ⟨-, -, -, -, -, same, -⟩ := a.stop_table t
      exact ⟨readers.stop t, same, fun _ => Sched.stop_waiting⟩

theorem ReadersOk.stopEach {inside : List Addr} {entry : Addr → Option Addr} (tgid : Int) (ts : List Addr)
    (readers : ReadersOk rxWait a inside entry) :
    ReadersOk rxWait (a.stopEach tgid ts) inside entry ∧ (a.stopEach tgid ts).current = a.current ∧
      ∀ t, (a.stopEach tgid ts).state t = .waiting → a.state t = .waiting := by
  induction ts generalizing a with
  | nil => exact ⟨readers, rfl, fun _ => id⟩
  | cons u ts ih =>
    unfold Sched.stopEach
    split
    · obtain ⟨rest, sameCurrent, sleepers⟩ := ih (readers.stop u)
      obtain ⟨-, -, -, -, -, same, -⟩ := a.stop_table u
      exact ⟨rest, sameCurrent.trans same, fun t waiting => Sched.stop_waiting (sleepers t waiting)⟩
    · exact ih readers

variable {s : UartState}

theorem uartStep_follows (ok : UartOk rxWait s a) (op : UartOp) :
    ∃ s' b, uartStep rxWait s op = some s' ∧ UartOk rxWait s' b ∧
      ((op.stops = true → Spares rxWait op s) → Covered rxWait s → Covered rxWait s') := by
  cases op with
  | enter flags =>
    obtain ⟨after, covered⟩ := ok.enter flags
    exact ⟨_, a, rfl, after, fun _ => covered⟩
  | pass bottomHalf e =>
    obtain ⟨s', b, result, after, covered⟩ := ok.pass bottomHalf e
    exact ⟨s', b, result, after, fun _ => covered⟩
  | resume =>
    obtain ⟨s', b, result, after, covered⟩ := ok.resume
    exact ⟨s', b, result, after, fun _ => covered⟩
  | drain c =>
    obtain ⟨s', b, result, after, covered⟩ := ok.drain c
    exact ⟨s', b, result, after, fun _ => covered⟩
  | schedule =>
    obtain ⟨s', b, result, after, covered⟩ := ok.schedule
    exact ⟨s', b, result, after, fun _ => covered⟩
  | stopTid tid status =>
    obtain ⟨k, stops, rep⟩ := ok.rep.stopTid ok.sched tid status
    obtain ⟨readers, same, sleepers⟩ := ok.readers.stopTid tid
    obtain ⟨gone, kept⟩ := ok.sched.stopTid_state tid
    refine ⟨{ s with kernel := k }, (a.stopTid tid).2, by simp [uartStep, stops],
      ok.stopped rep (ok.sched.stopTid tid) readers same sleepers, fun spares _ => ?_⟩
    refine ok.spared rep readers (fun t member worker named => ?_) (fun t other => ?_) (spares rfl)
    · simp only [UartOp.names, ok.rep.tid, decide_eq_true_eq] at named
      exact gone t member worker named
    · simp only [UartOp.names, ok.rep.tid, decide_eq_false_iff_not] at other
      exact kept t other
  | stopProcess tgid status =>
    obtain ⟨k, stops, rep⟩ := ok.rep.stopProcess ok.sched tgid status
    obtain ⟨readers, same, sleepers⟩ := ok.readers.stopEach tgid a.all
    obtain ⟨gone, kept, -⟩ := a.stopEach_state tgid a.all
    refine ⟨{ s with kernel := k }, (a.stopProcess tgid).2, by simp [uartStep, stops],
      ok.stopped rep (ok.sched.stopEach tgid fun _ member => member) readers same sleepers, fun spares _ => ?_⟩
    refine ok.spared rep readers (fun t member worker named => ?_) (fun t other => ?_) (spares rfl)
    · simp only [UartOp.names, ok.rep.kind, ok.rep.tgid, Bool.and_eq_true, decide_eq_true_eq] at named
      exact gone t member worker named
    · simp only [UartOp.names, ok.rep.kind, ok.rep.tgid, Bool.and_eq_false_iff, decide_eq_false_iff_not] at other
      exact kept t (not_and_or.mpr other)

theorem uartStart_ok (rep : Rep k a) (sched : SchedOk a) (unused : k.queueHead rxWait = none) :
    UartOk rxWait (uartStart k) a := by
  have empty : a.queued rxWait = [] := by
    rw [rep.queued.first, List.head?_eq_none_iff] at unused
    exact unused
  refine ⟨rep, sched, ?_, by simp [uartStart], by simp [uartStart, ringbufInit, Ringbuf.size]⟩
  constructor
  case queued =>
    intro e placed
    simpa [empty] using (sched.wait.mem_queued e rxWait).mpr placed
  all_goals simp [uartStart]

theorem uartRun_covered (run : UartRun rxWait (Spares rxWait) s) :
    ∃ a, UartOk rxWait s a ∧ Covered rxWait s := by
  induction run with
  | start threads unused =>
    obtain ⟨a, rep, sched⟩ := threadRun_rep threads
    exact ⟨a, uartStart_ok rep sched unused, fun _ => Nat.zero_le _⟩
  | step op _ spares result ih =>
    obtain ⟨a, ok, covered⟩ := ih
    obtain ⟨s', b, steps, after, kept⟩ := uartStep_follows ok op
    obtain rfl := Option.some.inj (steps.symm.trans result)
    exact ⟨b, after, kept spares covered⟩

theorem uartRun_noLostWakeup {rxWait : Addr} {s : UartState} (run : UartRun rxWait (Spares rxWait) s) :
    NoLostWakeup rxWait s ∧ ∀ op, ∃ s', uartStep rxWait s op = some s' := by
  obtain ⟨a, ok, covered⟩ := uartRun_covered run
  refine ⟨fun filled t waiting => ?_, fun op => ?_⟩
  · have enough := covered ⟨t, waiting⟩
    have positive : 0 < s.inside.countP (awake s.kernel) := by omega
    obtain ⟨u, member, isAwake⟩ := List.countP_pos_iff.mp positive
    refine ⟨u, member, ?_, isAwake⟩
    rintro rfl
    have asleep := waiting.1
    simp [awake, asleep] at isAwake
  · obtain ⟨s', -, steps, -⟩ := uartStep_follows ok op
    exact ⟨s', steps⟩

def twoReaders : List UartOp :=
  [.schedule, .enter ⟨true, false⟩, .pass false 0x80307f00, .enter ⟨true, false⟩, .pass false 0x80317f00]

def threeReaders : List UartOp := twoReaders ++ [.enter ⟨true, false⟩, .pass false 0x80327f00, .drain 0x61]

theorem uartRun_foldlM {May : UartOp → UartState → Prop} (ops : List UartOp) {s' : UartState}
    (run : UartRun rxWait May s) (may : ∀ op ∈ ops, op.stops = true → ∀ s, May op s)
    (result : ops.foldlM (uartStep rxWait) s = some s') : UartRun rxWait May s' := by
  induction ops generalizing s with
  | nil =>
    obtain rfl : s = s' := by simpa using result
    exact run
  | cons op ops ih =>
    rw [List.foldlM_cons, Option.bind_eq_bind, Option.bind_eq_some_iff] at result
    obtain ⟨middle, first, rest⟩ := result
    exact ih (.step op run (fun stops => may op List.mem_cons_self stops _) first)
      (fun op' member => may op' (List.mem_cons_of_mem _ member)) rest

-- Of three readers the first is woken, the second sleeps on and the third is stopped.
theorem uartRun_noLostWakeup_stopThird :
    ∃ s, UartRun 0x80210000 (Spares 0x80210000) s ∧ s.kernel.state 0x80320000 = .zombie ∧ s.rxBuf.size ≠ 0 ∧
      WaitingOn 0x80210000 s.kernel 0x80310000 ∧ NoLostWakeup 0x80210000 s := by
  have runs : (threeReaders.foldlM (uartStep 0x80210000) (uartStart threeThreads)).any (fun s =>
      decide (s.rxBuf.size ≤ s.inside.countP fun u =>
        awake s.kernel u && !(UartOp.stopTid 3 0).names s.kernel u) &&
      (uartStep 0x80210000 s (.stopTid 3 0)).any fun s' =>
        s'.kernel.state 0x80320000 = .zombie && s'.rxBuf.size ≠ 0 && s'.kernel.state 0x80310000 = .waiting &&
          s'.kernel.task 0x80317f00 = some 0x80310000 && s'.kernel.queue 0x80317f00 = some 0x80210000) = true := by
    decide +kernel
  obtain ⟨s, result, facts⟩ := (Option.any_eq_true _ _).mp runs
  obtain ⟨enough, stopped⟩ := Bool.and_eq_true_iff.mp facts
  obtain ⟨s', stops, after⟩ := (Option.any_eq_true _ _).mp stopped
  simp only [Bool.and_eq_true, decide_eq_true_eq] at after
  obtain ⟨⟨⟨⟨dead, filled⟩, waiting⟩, task⟩, queue⟩ := after
  have before : UartRun 0x80210000 (Spares 0x80210000) s :=
    uartRun_foldlM threeReaders (.start threeThreads_run (by decide +kernel))
      (by simp [threeReaders, twoReaders, UartOp.stops]) result
  have run := before.step (.stopTid 3 0) (fun _ _ => of_decide_eq_true enough) stops
  exact ⟨s', run, dead, filled, ⟨waiting, _, task, queue⟩, (uartRun_noLostWakeup run).1⟩

-- The woken reader is stopped before it runs: the byte stays and the other reader sleeps on.
theorem uartRun_lostWakeup : ∃ s, UartRun 0x80210000 (fun _ _ => True) s ∧ ¬ NoLostWakeup 0x80210000 s := by
  have runs : ((twoReaders ++ [UartOp.drain 0x61, UartOp.stopTid 1 0]).foldlM (uartStep 0x80210000)
    (uartStart pairCreated)).any (fun s =>
      s.rxBuf.size ≠ 0 && s.kernel.state 0x80310000 = .waiting && s.kernel.task 0x80317f00 = some 0x80310000 &&
        s.kernel.queue 0x80317f00 = some 0x80210000 && s.inside.all fun u => !awake s.kernel u) = true := by
    decide +kernel
  obtain ⟨s, result, facts⟩ := (Option.any_eq_true _ _).mp runs
  simp only [Bool.and_eq_true, decide_eq_true_eq, List.all_eq_true, Bool.not_eq_true'] at facts
  obtain ⟨⟨⟨⟨filled, waiting⟩, task⟩, queue⟩, nobody⟩ := facts
  refine ⟨s, uartRun_foldlM _ (.start pairCreated_run (by decide +kernel)) (fun _ _ _ _ => trivial) result,
    fun kept => ?_⟩
  obtain ⟨u, member, -, isAwake⟩ := kept filled 0x80310000 ⟨waiting, _, task, queue⟩
  simp [nobody u member] at isAwake

end OrangeKernel.Uart
