import OrangeKernel.Timer.Calls

set_option autoImplicit false

namespace OrangeKernel.Timer

open Irq Intrusive Lifecycle

inductive Station where
  | filled (i : Nat)
  | refused (i : Nat)
  | pending
  | firing (firing : Firing)
  | doomed (j : Nat)
  | dropping (j : Nat) (dropping : Dropping)
deriving DecidableEq, Repr

def Station.cleaning : Station → Bool
  | .firing .cleaning => true
  | .dropping _ .cleaning => true
  | _ => false

def cleanupStory (q : Request) : List Happening :=
  if q.cleanup ≠ 0 then [.cleanup q.cleanup q.arg, .cleaned] else []

def firedStory (q : Request) : List Happening :=
  [.registered, .called q.callback q.arg, .returned] ++ cleanupStory q ++ [.freed]

def droppedStory (q : Request) : List Happening := [.registered, .discarded] ++ cleanupStory q ++ [.freed]

def refusedStory : List Happening := [.freed]

def stories (q : Request) : List (List Happening) := [firedStory q, droppedStory q, refusedStory]

def storyAt (q : Request) : Station → List Happening
  | .filled _ | .refused _ => []
  | .pending | .doomed _ | .firing .detached => [.registered]
  | .firing .inside => [.registered, .called q.callback q.arg]
  | .firing .returned => [.registered, .called q.callback q.arg, .returned]
  | .firing .cleaning => [.registered, .called q.callback q.arg, .returned, .cleanup q.cleanup q.arg]
  | .firing .release => [.registered, .called q.callback q.arg, .returned] ++ cleanupStory q
  | .dropping _ .discard => [.registered, .discarded]
  | .dropping _ .cleaning => [.registered, .discarded, .cleanup q.cleanup q.arg]
  | .dropping _ .release => [.registered, .discarded] ++ cleanupStory q

theorem storyAt_cases (q : Request) (a : Station) (cleans : a.cleaning = true → q.cleanup ≠ 0) :
    storyAt q a = [] ∨
      .registered ∈ storyAt q a ∧ ∃ story ∈ [firedStory q, droppedStory q], storyAt q a <+: story := by
  cases a with
  | filled i | refused i => exact Or.inl rfl
  | pending => exact Or.inr ⟨by simp [storyAt], firedStory q, by simp, by simp [storyAt, firedStory]⟩
  | doomed j => exact Or.inr ⟨by simp [storyAt], droppedStory q, by simp, by simp [storyAt, droppedStory]⟩
  | firing firing =>
    right
    cases firing with
    | cleaning =>
      exact ⟨by simp [storyAt], firedStory q, by simp, by simp [storyAt, firedStory, cleanupStory, cleans rfl]⟩
    | detached | inside | returned | release =>
      exact ⟨by simp [storyAt], firedStory q, by simp, by simp [storyAt, firedStory]⟩
  | dropping j dropping =>
    right
    cases dropping with
    | cleaning =>
      exact ⟨by simp [storyAt], droppedStory q, by simp, by simp [storyAt, droppedStory, cleanupStory, cleans rfl]⟩
    | discard | release => exact ⟨by simp [storyAt], droppedStory q, by simp, by simp [storyAt, droppedStory]⟩

def requestOf (requests : List Request) (k : Nat) : Request := requests.getD k ⟨0, 0, 0⟩

def story (requests : List Request) (k : Nat) (a : Station) : List Happening := storyAt (requestOf requests k) a

def ended (requests : List Request) (k : Nat) (past : List Happening) : Prop := past ∈ stories (requestOf requests k)

def Stands (s : TimerState) (queue : List Addr) (rests : Nat → List Addr) (n : Addr) : Station → Prop
  | .filled i => s.adds i = some (.filled n)
  | .refused i => s.adds i = some (.refused n)
  | .pending => n ∈ queue
  | .firing firing => ∃ budget, s.handler = some (.event n firing budget)
  | .doomed j => n ∈ rests j
  | .dropping j dropping => ∃ pending, s.halts j = some (.event n dropping pending)

-- A place where one event at a time may stand.
inductive Slot where
  | add (i : Nat)
  | handler
  | halt (j : Nat)
deriving DecidableEq

def Station.slot : Station → Option Slot
  | .filled i | .refused i => some (.add i)
  | .firing _ => some .handler
  | .dropping j _ => some (.halt j)
  | .pending | .doomed _ => none

def AddPlace.holds (i : Nat) : AddPlace → Addr × Station
  | .filled n => (n, .filled i)
  | .refused n => (n, .refused i)

def HandlerPlace.holds : HandlerPlace → Option (Addr × Station)
  | .event n firing _ => some (n, .firing firing)
  | .enter | .loop _ | .last | .finished => none

def StopPlace.holds (j : Nat) : StopPlace → Option (Addr × Station)
  | .event n dropping _ => some (n, .dropping j dropping)
  | .test _ => none

def holder (s : TimerState) : Slot → Option (Addr × Station)
  | .add i => (s.adds i).map (AddPlace.holds i)
  | .handler => s.handler.bind HandlerPlace.holds
  | .halt j => (s.halts j).bind (StopPlace.holds j)

variable {x : Slot} {new : Option (Addr × Station)}

section Slots

open Function

variable {s s' : TimerState} {queue : List Addr} {rests : Nat → List Addr} {m : Addr} {c : Station}

theorem stands_slot (slot : c.slot = some x) : Stands s queue rests m c ↔ holder s x = some (m, c) := by
  cases c with
  | filled i =>
    cases slot
    cases held : s.adds i with
    | none => simp [Stands, holder, held]
    | some place => cases place <;> simp [Stands, holder, held, AddPlace.holds]
  | refused i =>
    cases slot
    cases held : s.adds i with
    | none => simp [Stands, holder, held]
    | some place => cases place <;> simp [Stands, holder, held, AddPlace.holds]
  | firing firing =>
    cases slot
    cases held : s.handler with
    | none => simp [Stands, holder, held]
    | some place => cases place <;> simp [Stands, holder, held, HandlerPlace.holds]
  | dropping j dropping =>
    cases slot
    cases held : s.halts j with
    | none => simp [Stands, holder, held]
    | some place => cases place <;> simp [Stands, holder, held, StopPlace.holds]
  | pending | doomed => cases slot

theorem holder_add {i : Nat} {held : Option AddPlace} (adds : s'.adds = update s.adds i held)
    (handler : s'.handler = s.handler) (halts : s'.halts = s.halts) (holds : held.map (AddPlace.holds i) = new) :
    holder s' = update (holder s) (.add i) new := by
  subst holds
  funext x
  cases x with
  | add k =>
    by_cases here : k = i
    · subst here
      simp [holder, adds]
    · simp [holder, adds, here]
  | handler => simp [holder, handler]
  | halt j => simp [holder, halts]

theorem holder_handler (adds : s'.adds = s.adds) (halts : s'.halts = s.halts)
    (holds : s'.handler.bind HandlerPlace.holds = new) : holder s' = update (holder s) .handler new := by
  subst holds
  funext x
  cases x with
  | add i => simp [holder, adds]
  | handler => simp [holder]
  | halt j => simp [holder, halts]

theorem holder_halt {j : Nat} {place : Option StopPlace} (halts : s'.halts = update s.halts j place)
    (adds : s'.adds = s.adds) (handler : s'.handler = s.handler) (holds : place.bind (StopPlace.holds j) = new) :
    holder s' = update (holder s) (.halt j) new := by
  subst holds
  funext x
  cases x with
  | add i => simp [holder, adds]
  | handler => simp [holder, handler]
  | halt k =>
    by_cases here : k = j
    · subst here
      simp [holder, halts]
    · simp [holder, halts, here]

theorem stands_update (holders : holder s' = update (holder s) x new)
    (fits : ∀ m c, new = some (m, c) → c.slot = some x) :
    Stands s' queue rests m c ↔ new = some (m, c) ∨ c.slot ≠ some x ∧ Stands s queue rests m c := by
  cases slot : c.slot with
  | none =>
    -- the event is in a list
    have same : Stands s' queue rests m c ↔ Stands s queue rests m c := by
      cases c with
      | pending | doomed => exact Iff.rfl
      | filled | refused | firing | dropping => cases slot
    have notNew : new ≠ some (m, c) := fun isNew => by
      have fitting := fits m c isNew
      rw [slot] at fitting
      cases fitting
    simp [same, notNew]
  | some y =>
    rw [stands_slot slot, stands_slot slot, holders]
    by_cases here : y = x
    · subst here
      simp
    · have notNew : new ≠ some (m, c) := fun isNew => here (Option.some.inj (slot.symm.trans (fits m c isNew)))
      simp [here, notNew]

theorem stands_vacated (holders : holder s' = update (holder s) x none) :
    Stands s' queue rests m c ↔ c.slot ≠ some x ∧ Stands s queue rests m c := by
  rw [stands_update holders (by rintro _ _ ⟨⟩)]
  simp

theorem stands_queue (queue queue' : List Addr) :
    Stands s queue' rests m c ↔ c = .pending ∧ m ∈ queue' ∨ c ≠ .pending ∧ Stands s queue rests m c := by
  cases c <;> simp [Stands]

theorem stands_rests (j : Nat) (rest : List Addr) :
    Stands s queue (update rests j rest) m c ↔ c = .doomed j ∧ m ∈ rest ∨ c ≠ .doomed j ∧
    Stands s queue rests m c := by
  cases c with
  | doomed k =>
    by_cases here : k = j
    · subst here
      simp [Stands]
    · simp [Stands, here]
  | filled | refused | pending | firing | dropping => simp [Stands]

theorem stands_elsewhere {n : Addr} {a : Station} (stood : Stands s queue rests n a) (slot : a.slot = some x)
    (stands : Stands s queue rests m c) (other : m ≠ n) : c.slot ≠ some x := by
  intro same
  have held := (stands_slot same).mp stands
  rw [(stands_slot slot).mp stood] at held
  exact other (Prod.mk.inj (Option.some.inj held)).1.symm

end Slots

def Rest (next : Addr → Option Addr) (rest : List Addr) : Option StopPlace → Prop
  | none => rest = []
  | some (.test pending) => Stack next pending rest
  | some (.event _ _ pending) => Stack next pending rest

def payload (t : Timers) (n : Addr) : Request := ⟨(t.event n).callback, (t.event n).arg, (t.event n).cleanup⟩

theorem SameData.payload {t t' : Timers} (same : SameData t t') : payload t' = payload t := by
  funext n
  obtain ⟨-, callback, cleanup, arg, -⟩ := TimerEvent.mk.inj (same n)
  simp only [Timer.payload, callback, cleanup, arg]

structure OwnOk (s : TimerState) (place : Addr → Option Station) (queue : List Addr) (rests : Nat → List Addr) :
    Prop where
  runner : s.runner.Ok
  handler : s.handler.isSome = s.runner.isActive .timer
  lives : s.record.lives = s.requests.length
  tracked : Tracked (story s.requests) (ended s.requests) s.record place
  stands : ∀ n a, place n = some a ↔ Stands s queue rests n a
  pending : Stack (nextOf s.timers) s.timers.head queue
  rest : ∀ j, Rest (nextOf s.timers) (rests j) (s.halts j)
  filled : ∀ n k a, s.record.owner n = some k → place n = some a → (∀ i, a ≠ .refused i) →
    payload s.timers n = requestOf s.requests k
  cleans : ∀ n a, place n = some a → a.cleaning = true → (payload s.timers n).cleanup ≠ 0

theorem timerStart_own (timebaseFreq : UInt32) (event : Addr → TimerEvent) (sbiTimer : UInt64) (stie : Bool) :
    OwnOk (timerStart timebaseFreq event sbiTimer stie) (fun _ => none) [] (fun _ => []) where
  runner := bottomHalfInit_ok
  handler := rfl
  lives := rfl
  tracked := tracked_noLives _ _
  stands n a := by cases a <;> simp [Stands, timerStart]
  pending := ⟨trivial, rfl⟩
  rest _ := rfl
  filled _ _ _ owns := by cases owns
  cleans _ _ stood := by cases stood

theorem Rest.congr {next next' : Addr → Option Addr} {rest : List Addr} {place : Option StopPlace}
    (holds : Rest next rest place) (agree : ∀ n ∈ rest, next' n = next n) : Rest next' rest place := by
  match place with
  | none => exact holds
  | some (.test _) => exact ⟨chain_congr agree holds.chain, holds.first⟩
  | some (.event _ _ _) => exact ⟨chain_congr agree holds.chain, holds.first⟩

variable {b : Station} {s' : TimerState}

section Steps

variable {s : TimerState} {place : Addr → Option Station} {queue : List Addr} {rests : Nat → List Addr}
  (ok : OwnOk s place queue rests)
include ok

variable {n : Addr} {a : Station}

theorem OwnOk.unique (first : Stands s queue rests n a) (second : Stands s queue rests n b) :
    a = b :=
  Option.some.inj (((ok.stands n a).mpr first).symm.trans ((ok.stands n b).mpr second))

theorem OwnOk.only (stood : Stands s queue rests n a) (c : Station) :
    Stands s queue rests n c ↔ c = a :=
  ⟨fun stands => ok.unique stands stood, fun same => same ▸ stood⟩

-- An event goes on in its slot.
theorem OwnOk.swaps (stood : Stands s queue rests n a) (slot : a.slot = some x)
    (slot' : b.slot = some x) (holders : holder s' = Function.update (holder s) x (some (n, b))) (m : Addr)
    (c : Station) :
    Stands s' queue rests m c ↔ if m = n then c = b else Stands s queue rests m c := by
  rw [stands_update holders (by rintro _ _ ⟨⟩; exact slot')]
  by_cases here : m = n
  · subst here
    rw [if_pos rfl, ok.only stood]
    constructor
    · rintro (isNew | ⟨elsewhere, rfl⟩)
      · cases isNew
        rfl
      · exact absurd slot elsewhere
    · rintro rfl
      exact .inl rfl
  · rw [if_neg here]
    constructor
    · rintro (isNew | ⟨-, stands⟩)
      · cases isNew
        exact absurd rfl here
      · exact stands
    · exact fun stands => .inr ⟨stands_elsewhere stood slot stands here, stands⟩

theorem OwnOk.vacates (stood : Stands s queue rests n a) (slot : a.slot = some x)
    (holders : holder s' = Function.update (holder s) x none) (m : Addr) (c : Station) :
    Stands s' queue rests m c ↔ m ≠ n ∧ Stands s queue rests m c := by
  rw [stands_vacated holders]
  constructor
  · rintro ⟨elsewhere, stands⟩
    refine ⟨?_, stands⟩
    rintro rfl
    exact elsewhere ((ok.only stood c).mp stands ▸ slot)
  · rintro ⟨here, stands⟩
    exact ⟨stands_elsewhere stood slot stands here, stands⟩

-- An event comes to a slot, from nowhere or from a list.
omit ok in
theorem stands_occupied {queue' : List Addr}
    {rests' : Nat → List Addr} (absent : ∀ c, ¬ Stands s queue' rests' n c)
    (others : ∀ m c, m ≠ n → (Stands s queue' rests' m c ↔ Stands s queue rests m c)) (free : holder s x = none)
    (slot' : b.slot = some x) (holders : holder s' = Function.update (holder s) x (some (n, b))) (m : Addr)
    (c : Station) :
    Stands s' queue' rests' m c ↔ if m = n then c = b else Stands s queue rests m c := by
  rw [stands_update holders (by rintro _ _ ⟨⟩; exact slot')]
  by_cases here : m = n
  · subst here
    rw [if_pos rfl]
    constructor
    · rintro (isNew | ⟨-, stands⟩)
      · cases isNew
        rfl
      · exact absurd stands (absent c)
    · rintro rfl
      exact .inl rfl
  · rw [if_neg here, others m c here]
    constructor
    · rintro (isNew | ⟨-, stands⟩)
      · cases isNew
        exact absurd rfl here
      · exact stands
    · refine fun stands => .inr ⟨fun slot => ?_, stands⟩
      rw [stands_slot slot, free] at stands
      cases stands

theorem OwnOk.frame {timers : Timers} {runner : Runner} {handler : Option HandlerPlace} {inits : Nat → Bool}
    {ready : Bool} (okAfter : runner.Ok) (active : handler.isSome = runner.isActive .timer)
    (inside : ∀ n firing budget, handler = some (.event n firing budget) ↔
      s.handler = some (.event n firing budget))
    (head : timers.head = s.timers.head) (event : timers.event = s.timers.event) :
    OwnOk { s with timers := timers, runner := runner, handler := handler, inits := inits, ready := ready } place queue
      rests := by
  have next : nextOf timers = nextOf s.timers := by
    funext n
    rw [nextOf, event, nextOf]
  exact
    { ok with
      runner := okAfter
      handler := active
      stands := fun n a => by
        rw [ok.stands n a]
        cases a <;> simp [Stands, inside]
      pending := by
        rw [next, head]
        exact ok.pending
      rest := fun j => by
        rw [next]
        exact ok.rest j
      filled := fun n k a owns stood notRefused => by
        rw [payload, event]
        exact ok.filled n k a owns stood notRefused
      cleans := fun n a stood cleaning => by
        rw [payload, event]
        exact ok.cleans n a stood cleaning }

theorem OwnOk.request (stood : Stands s queue rests n a) (notRefused : ∀ i, a ≠ .refused i) :
    ∀ k, s.record.owner n = some k → requestOf s.requests k = payload s.timers n :=
  fun k owns => (ok.filled n k a owns ((ok.stands n a).mpr stood) notRefused).symm

theorem OwnOk.moves {queue' : List Addr} {rests' : Nat → List Addr} (stood : Stands s queue rests n a)
    (runner : s'.runner.Ok) (handler : s'.handler.isSome = s'.runner.isActive .timer)
    (requests : s'.requests = s.requests)
    (stands : ∀ m c, Stands s' queue' rests' m c ↔ if m = n then c = b else Stands s queue rests m c)
    (pending : Stack (nextOf s'.timers) s'.timers.head queue')
    (rest : ∀ j, Rest (nextOf s'.timers) (rests' j) (s'.halts j)) (data : SameData s.timers s'.timers)
    (notRefused : ∀ i, a ≠ .refused i) (cleans : b.cleaning = true → (s.timers.event n).cleanup ≠ 0)
    (record : s'.record = s.record ∧ storyAt (payload s.timers n) b = storyAt (payload s.timers n) a ∨
      ∃ h, s'.record = s.record.note n h ∧
        storyAt (payload s.timers n) b = storyAt (payload s.timers n) a ++ [h]) :
    OwnOk s' (Function.update place n (some b)) queue' rests' := by
  have stood' := (ok.stands n a).mpr stood
  obtain ⟨k, owns⟩ := ok.tracked.owner stood'
  have request := ok.request stood notRefused k owns
  have owner : s'.record.owner = s.record.owner ∧ s'.record.lives = s.record.lives := by
    rcases record with ⟨same, -⟩ | ⟨h, noted, -⟩
    · rw [same]
      exact ⟨rfl, rfl⟩
    · rw [noted]
      exact ⟨rfl, rfl⟩
  constructor
  · exact runner
  · exact handler
  · rw [owner.2, requests]
    exact ok.lives
  · rw [requests]
    rcases record with ⟨same, told⟩ | ⟨h, noted, told⟩
    · rw [same]
      refine ok.tracked.move (fun m => ?_) fun m j c d owned before after => ?_
      · by_cases here : m = n
        · simp [here, stood']
        · simp [here]
      · by_cases here : m = n
        · subst here
          obtain rfl : a = c := Option.some.inj (stood'.symm.trans before)
          obtain rfl : b = d := by simpa using after
          obtain rfl : k = j := Option.some.inj (owns.symm.trans owned)
          rw [story, story, request]
          exact told
        · have same : c = d := Option.some.inj (before.symm.trans (by simpa [here] using after))
          rw [same]
    · rw [noted]
      exact ok.tracked.note owns stood' h (by rw [story, story, request]; exact told)
  · intro m c
    rw [stands m c]
    by_cases here : m = n
    · simp [here, eq_comm]
    · simp only [Function.update_of_ne here, if_neg here]
      exact ok.stands m c
  · exact pending
  · exact rest
  · intro m j c owned stands' filled
    rw [owner.1] at owned
    rw [data.payload, requests]
    by_cases here : m = n
    · subst here
      exact ok.filled m j a owned stood' notRefused
    · exact ok.filled m j c owned (by simpa [here] using stands') filled
  · intro m c stands' cleaning
    rw [data.payload]
    by_cases here : m = n
    · subst here
      obtain rfl : b = c := by simpa using stands'
      exact cleans cleaning
    · exact ok.cleans m c (by simpa [here] using stands') cleaning

theorem OwnOk.frees (stood : Stands s queue rests n a)
    (runner : s'.runner = s.runner) (handler : s'.handler.isSome = s.handler.isSome)
    (requests : s'.requests = s.requests) (timers : s'.timers = s.timers)
    (stands : ∀ m c, Stands s' queue rests m c ↔ m ≠ n ∧ Stands s queue rests m c)
    (rest : ∀ j, Rest (nextOf s.timers) (rests j) (s'.halts j)) (record : s'.record = s.record.giveBack n .freed)
    (complete : ∀ q, storyAt q a ++ [.freed] ∈ stories q) :
    OwnOk s' (Function.update place n none) queue rests := by
  have stood' := (ok.stands n a).mpr stood
  obtain ⟨k, owns⟩ := ok.tracked.owner stood'
  constructor
  · rw [runner]
    exact ok.runner
  · rw [handler, runner]
    exact ok.handler
  · rw [record, requests]
    exact ok.lives
  · rw [record, requests]
    exact ok.tracked.giveBack owns stood' .freed (complete _)
  · intro m c
    rw [stands m c]
    by_cases here : m = n
    · simp [here]
    · simp only [Function.update_of_ne here, ne_eq, here, not_false_eq_true, true_and]
      exact ok.stands m c
  · rw [timers]
    exact ok.pending
  · rw [timers]
    exact rest
  · intro m j c owned stands' notRefused
    rw [record] at owned
    by_cases here : m = n
    · simp [here] at stands'
    · rw [timers, requests]
      exact ok.filled m j c (by simpa [Record.giveBack, here] using owned) (by simpa [here] using stands') notRefused
  · intro m c stands' cleaning
    rw [timers]
    by_cases here : m = n
    · simp [here] at stands'
    · exact ok.cleans m c (by simpa [here] using stands') cleaning

theorem OwnOk.fresh (free : s.record.owner n = none) (a : Station) : ¬ Stands s queue rests n a := by
  intro stands
  have stood := (ok.stands n a).mpr stands
  rw [ok.tracked.absent free] at stood
  cases stood

theorem OwnOk.takes (free : s.record.owner n = none) (q : Request) (a : Station)
    (fresh : storyAt q a = []) (calm : a.cleaning = false)
    (runner : s'.runner = s.runner) (handler : s'.handler = s.handler) (requests : s'.requests = s.requests ++ [q])
    (record : s'.record = s.record.take n) (head : s'.timers.head = s.timers.head)
    (event : ∀ m, m ≠ n → s'.timers.event m = s.timers.event m) (halts : s'.halts = s.halts)
    (stands : ∀ m c, Stands s' queue rests m c ↔ if m = n then c = a else Stands s queue rests m c)
    (filled : (∃ i, a = .refused i) ∨ payload s'.timers n = q) :
    OwnOk s' (Function.update place n (some a)) queue rests := by
  have absent : ∀ c, ¬ Stands s queue rests n c := ok.fresh free
  have older : ∀ k, k < s.record.lives → requestOf (s.requests ++ [q]) k = requestOf s.requests k := by
    intro k below
    rw [ok.lives] at below
    simp [requestOf, List.getElem?_append_left below]
  have newest : requestOf (s.requests ++ [q]) s.record.lives = q := by
    simp [requestOf, ok.lives]
  have next : ∀ {xs : List Addr}, n ∉ xs → ∀ m ∈ xs, nextOf s'.timers m = nextOf s.timers m :=
    fun outside m member => by
    rw [nextOf, event m fun same => outside (same ▸ member), nextOf]
  constructor
  · rw [runner]
    exact ok.runner
  · rw [handler, runner]
    exact ok.handler
  · rw [record, requests, List.length_append]
    exact congrArg (· + 1) ok.lives
  · rw [record, requests]
    refine ok.tracked.take free a (fun k below => ?_) (fun k below => ?_) ?_
    · funext c
      rw [story, older k below, story]
    · funext past
      rw [ended, older k below, ended]
    · rw [story, newest, fresh]
  · intro m c
    rw [stands m c]
    by_cases here : m = n
    · simp [here, eq_comm]
    · simp only [Function.update_of_ne here, if_neg here]
      exact ok.stands m c
  · rw [head]
    exact ⟨chain_congr (next (absent .pending)) ok.pending.chain, ok.pending.first⟩
  · intro j
    rw [halts]
    exact (ok.rest j).congr (next (absent (.doomed j)))
  · intro m k c owns stood notRefused
    rw [record] at owns
    rw [requests]
    by_cases here : m = n
    · subst here
      obtain rfl : a = c := by simpa using stood
      obtain rfl : s.record.lives = k := by simpa [Record.take] using owns
      rw [newest]
      exact filled.resolve_left fun refused => refused.elim notRefused
    · have owns : s.record.owner m = some k := by simpa [Record.take, here] using owns
      rw [older k (ok.tracked.known m k owns), payload, event m here]
      exact ok.filled m k c owns (by simpa [here] using stood) notRefused
  · intro m c stood cleaning
    by_cases here : m = n
    · subst here
      obtain rfl : a = c := by simpa using stood
      rw [calm] at cleaning
      cases cleaning
    · rw [payload, event m here]
      exact ok.cleans m c (by simpa [here] using stood) cleaning

end Steps

def Told (q : Request) (past : List Happening) (gone : Prop) : Prop :=
  (.registered ∉ past ∧ past <+: refusedStory ∧ (gone → past = refusedStory)) ∨
    .registered ∈ past ∧ ∃ story ∈ [firedStory q, droppedStory q], past <+: story ∧ (gone → past = story)

theorem OwnOk.told {s : TimerState} {place : Addr → Option Station} {queue : List Addr} {rests : Nat → List Addr}
    (ok : OwnOk s place queue rests) {k : Nat} {q : Request} (known : s.requests[k]? = some q) :
    Told q (past k s.record.log) (∀ n a, s.record.owner n = some k → ¬ Stands s queue rests n a) := by
  have request : requestOf s.requests k = q := by simp [requestOf, known]
  by_cases lives : ∃ n, s.record.owner n = some k
  · obtain ⟨n, owns⟩ := lives
    have live := ok.tracked.live n
    rw [owns] at live
    obtain ⟨a, stood⟩ := Option.isSome_iff_exists.mp live.symm
    have stands := (ok.stands n a).mp stood
    have cleans : a.cleaning = true → q.cleanup ≠ 0 := fun cleaning => by
      have filled := ok.filled n k a owns stood fun i refused => by simp [refused, Station.cleaning] at cleaning
      rw [← request, ← filled]
      exact ok.cleans n a stood cleaning
    have told : past k s.record.log = storyAt q a := by
      rw [ok.tracked.told n k a owns stood, story, request]
    rw [told]
    rcases storyAt_cases q a cleans with empty | ⟨registered, whole, one, start⟩
    · rw [empty]
      exact Or.inl ⟨by simp, by simp, fun gone => absurd stands (gone n a owns)⟩
    · exact Or.inr ⟨registered, whole, one, start, fun gone => absurd stands (gone n a owns)⟩
  · have below : k < s.record.lives := by
      rw [ok.lives]
      exact (List.getElem?_eq_some_iff.mp known).1
    have whole := ok.tracked.ended k below fun n owns => lives ⟨n, owns⟩
    rw [ended, request] at whole
    simp only [stories, List.mem_cons, List.not_mem_nil, or_false] at whole
    rcases whole with fired | dropped | refused
    · exact Or.inr ⟨by simp [fired, firedStory], firedStory q, by simp, by simp [fired], fun _ => fired⟩
    · exact Or.inr ⟨by simp [dropped, droppedStory], droppedStory q, by simp, by simp [dropped], fun _ => dropped⟩
    · exact Or.inl ⟨by simp [refused, refusedStory], by simp [refused], fun _ => refused⟩

end OrangeKernel.Timer
