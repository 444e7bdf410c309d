import OrangeKernel.Timer.Stations

set_option autoImplicit false

namespace OrangeKernel.Timer

open Function Irq Intrusive Lifecycle

variable {s' : TimerState} {j : Nat}

section Steps

variable {s : TimerState} {place : Addr → Option Station} {queue : List Addr} {rests : Nat → List Addr}
  (ok : OwnOk s place queue rests)
include ok

theorem OwnOk.add {i : Nat} (closed : s.adds i = none) (callback arg duration cleanup : UInt64) {node : Option Addr}
    (free : ∀ n, node = some n → s.record.owner n = none) (now : UInt64) :
    ∃ place queue rests, OwnOk (addStep i callback arg duration cleanup node now s) place queue rests := by
  unfold addStep
  split
  · exact ⟨place, queue, rests, ok⟩
  · cases node with
    | none => exact ⟨place, queue, rests, ok⟩
    | some n =>
      have fresh := free n rfl
      have absent := ok.fresh fresh
      have vacant : holder s (.add i) = none := by simp [holder, closed]
      dsimp only
      split
      · refine ⟨_, queue, rests, ok.takes fresh ⟨callback, arg, cleanup⟩ (.refused i) rfl rfl rfl rfl rfl rfl rfl
          (fun _ _ => rfl) rfl ?_ (Or.inl ⟨i, rfl⟩)⟩
        exact stands_occupied absent (fun _ _ _ => Iff.rfl) vacant rfl (holder_add rfl rfl rfl rfl)
      · refine ⟨_, queue, rests, ok.takes fresh ⟨callback, arg, cleanup⟩ (.filled i) rfl rfl rfl rfl rfl rfl rfl
          (fun m other => ?_) rfl ?_ (Or.inr ?_)⟩
        · simp [fillEvent, other]
        · exact stands_occupied absent (fun _ _ _ => Iff.rfl) vacant rfl (holder_add rfl rfl rfl rfl)
        · simp [payload, fillEvent]

theorem OwnOk.rest_relinked {t : Timers} {nodes : List Addr} (relinked : Relinked s.timers t nodes)
    (apart : ∀ n ∈ nodes, ∀ j, ¬ Stands s queue rests n (.doomed j)) (j : Nat) :
    Rest (nextOf t) (rests j) (s.halts j) :=
  (ok.rest j).congr fun n member => relinked.next n fun inside => apart n inside j member

theorem OwnOk.insert (i : Nat) : ∃ s' place queue rests, insertStep i s = some s' ∧ OwnOk s' place queue rests := by
  unfold insertStep
  cases holds : s.adds i with
  | none => exact ⟨s, place, queue, rests, rfl, ok⟩
  | some held =>
    cases held with
    | refused n => exact ⟨s, place, queue, rests, rfl, ok⟩
    | filled n =>
      have stood : Stands s queue rests n (.filled i) := holds
      have only := ok.only stood
      dsimp only
      split
      · refine ⟨_, _, queue, rests, rfl,
          ok.moves (b := .refused i) stood ok.runner ok.handler rfl ?_ ok.pending ok.rest
          (.refl _) (by simp) (by simp [Station.cleaning]) (Or.inl ⟨rfl, rfl⟩)⟩
        exact ok.swaps stood rfl rfl (holder_add rfl rfl rfl rfl)
      · have absent : n ∉ queue := fun inside => by
          have same := (only .pending).mp inside
          cases same
        obtain ⟨t, walk, after, relinked⟩ := insertEvent_stack ok.pending absent
        obtain ⟨deadline, sbi, programmed⟩ := timerReprogramLocked_eq t
        have others := ok.rest_relinked relinked fun m member j doomed => by
          rcases List.mem_cons.mp member with rfl | inside
          · cases (only (.doomed j)).mp doomed
          · cases ok.unique doomed (show Stands s queue rests m .pending from inside)
        rw [walk, Option.map_some]
        refine ⟨_, _, inserted s.timers n queue, rests, rfl,
          ok.moves (b := .pending) stood ok.runner ok.handler rfl ?_ ?_
          ?_ ?_ (by simp) (by simp [Station.cleaning]) (Or.inr ⟨.registered, rfl, rfl⟩)⟩
        · intro m c
          refine Iff.trans (stands_vacated (x := .add i) (holder_add rfl rfl rfl rfl)) ?_
          rw [stands_queue queue, mem_inserted]
          by_cases here : m = n
          · subst here
            rw [if_pos rfl, only c]
            constructor
            · rintro ⟨elsewhere, ⟨isPending, -⟩ | ⟨-, rfl⟩⟩
              · exact isPending
              · exact absurd rfl elsewhere
            · rintro rfl
              exact ⟨by simp [Station.slot], .inl ⟨rfl, .inl rfl⟩⟩
          · rw [if_neg here]
            constructor
            · rintro ⟨-, ⟨rfl, member⟩ | ⟨-, stands⟩⟩
              · exact member.resolve_left here
              · exact stands
            · intro stands
              refine ⟨stands_elsewhere stood rfl stands here, ?_⟩
              by_cases isPending : c = .pending
              · subst isPending
                exact .inl ⟨rfl, .inr stands⟩
              · exact .inr ⟨isPending, stands⟩
        · rw [programmed]
          exact after
        · rw [programmed]
          exact others
        · rw [programmed]
          exact relinked.data

theorem OwnOk.giveBack (i : Nat) : ∃ place, OwnOk (giveBackStep i s) place queue rests := by
  unfold giveBackStep
  cases holds : s.adds i with
  | none => exact ⟨place, ok⟩
  | some held =>
    cases held with
    | filled n => exact ⟨place, ok⟩
    | refused n =>
      have stood : Stands s queue rests n (.refused i) := holds
      refine ⟨_, ok.frees stood rfl rfl rfl rfl ?_ ok.rest rfl fun q => by simp [storyAt, stories, refusedStory]⟩
      exact ok.vacates stood rfl (holder_add rfl rfl rfl rfl)

variable {n : Addr}

theorem OwnOk.fires {firing after : Firing} {budget : Nat} (inside : s.handler = some (.event n firing budget))
    (cleans : after = .cleaning → (s.timers.event n).cleanup ≠ 0) {record : Record Addr Happening}
    (noted : record = s.record ∧
        storyAt (payload s.timers n) (.firing after) = storyAt (payload s.timers n) (.firing firing) ∨
      ∃ h, record = s.record.note n h ∧
        storyAt (payload s.timers n) (.firing after) = storyAt (payload s.timers n) (.firing firing) ++ [h]) :
    ∃ place, OwnOk { s with handler := some (.event n after budget), record := record } place queue rests := by
  have stood : Stands s queue rests n (.firing firing) := ⟨budget, inside⟩
  have active : true = s.runner.isActive .timer := by
    rw [← ok.handler, inside]
    rfl
  refine ⟨_, ok.moves (b := .firing after) stood ok.runner active rfl ?_ ok.pending ok.rest (.refl _) (by simp)
    (fun cleaning => cleans ?_) noted⟩
  · exact ok.swaps stood rfl rfl (holder_handler rfl rfl rfl)
  · cases after <;> first | rfl | cases cleaning

theorem OwnOk.fire {firing : Firing} {budget : Nat} (inside : s.handler = some (.event n firing budget)) :
    ∃ place, OwnOk (fireStep n budget s firing) place queue rests := by
  have stood : Stands s queue rests n (.firing firing) := ⟨budget, inside⟩
  cases firing with
  | detached => exact ok.fires inside (by simp) (Or.inr ⟨_, rfl, rfl⟩)
  | inside => exact ok.fires inside (by simp) (Or.inr ⟨_, rfl, rfl⟩)
  | returned =>
    unfold fireStep
    dsimp only
    split
    next some => exact ok.fires inside (fun _ => some) (Or.inr ⟨_, rfl, rfl⟩)
    next null =>
      refine ok.fires inside (by simp) (Or.inl ⟨rfl, ?_⟩)
      have null : (payload s.timers n).cleanup = 0 := not_not.mp null
      simp [storyAt, cleanupStory, null]
  | cleaning =>
    have some := ok.cleans n _ ((ok.stands n _).mpr stood) rfl
    refine ok.fires inside (by simp) (Or.inr ⟨_, rfl, ?_⟩)
    simp [storyAt, cleanupStory, some]
  | release =>
    have held : (some (HandlerPlace.loop budget)).isSome = s.handler.isSome := by rw [inside]; rfl
    refine ⟨_, ok.frees stood rfl held rfl rfl ?_ ok.rest rfl fun q => by simp [storyAt, stories, firedStory]⟩
    exact ok.vacates stood rfl (holder_handler rfl rfl rfl)

theorem OwnOk.handles {before after : HandlerPlace} (inside : s.handler = some before)
    (free : ∀ n firing budget, before ≠ .event n firing budget)
    (freeAfter : ∀ n firing budget, after ≠ .event n firing budget)
    {timers : Timers} {runner : Runner} (okAfter : runner.Ok)
    (active : runner.isActive .timer = s.runner.isActive .timer)
    (head : timers.head = s.timers.head) (event : timers.event = s.timers.event) :
    OwnOk { s with timers := timers, runner := runner, handler := some after } place queue rests := by
  have runs : (some after).isSome = runner.isActive .timer := by
    rw [active, ← ok.handler, inside]
    rfl
  have events : ∀ n firing budget,
      some after = some (.event n firing budget) ↔ s.handler = some (.event n firing budget) := by
    intro n firing budget
    rw [inside]
    simp [free n firing budget, freeAfter n firing budget]
  exact ok.frame okAfter runs events head event

theorem OwnOk.detaches {rest : List Addr} (first : queue = n :: rest) {before : HandlerPlace}
    (inside : s.handler = some before) (free : ∀ m firing budget, before ≠ .event m firing budget) (budget : Nat)
    {timers : Timers} (after : Stack (nextOf timers) timers.head rest) {ticked : Timers}
    (relinked : Relinked ticked timers queue) (same : ticked.event = s.timers.event) :
    ∃ place, OwnOk { s with timers := timers, handler := some (.event n .detached budget) } place rest rests := by
  subst first
  have stood : Stands s (n :: rest) rests n .pending := List.mem_cons_self
  have only := ok.only stood
  have absent := (List.nodup_cons.mp ok.pending.nodup).1
  have active : true = s.runner.isActive .timer := by
    rw [← ok.handler, inside]
    rfl
  have data : SameData s.timers timers := fun m => by rw [relinked.data m, same]
  refine ⟨_, ok.moves (b := .firing .detached) stood ok.runner active rfl ?_ after (fun j => ?_) data (by simp)
    (by simp [Station.cleaning]) (Or.inl ⟨rfl, rfl⟩)⟩
  · have vacant : holder s .handler = none := by
      simp only [holder, inside, Option.bind_some]
      cases before with
      | event node firing budget => exact absurd rfl (free node firing budget)
      | enter | loop | last | finished => rfl
    have gone : ∀ c, ¬ Stands s rest rests n c := by
      intro c stands
      rcases (stands_queue (n :: rest) rest).mp stands with ⟨-, member⟩ | ⟨other, stands⟩
      · exact absent member
      · exact other ((only c).mp stands)
    refine stands_occupied gone (fun m c here => ?_) vacant rfl (holder_handler rfl rfl rfl)
    rw [stands_queue (n :: rest) rest]
    constructor
    · rintro (⟨rfl, member⟩ | ⟨-, stands⟩)
      · exact List.mem_cons_of_mem _ member
      · exact stands
    · intro stands
      by_cases isPending : c = .pending
      · subst isPending
        exact .inl ⟨rfl, (List.mem_cons.mp stands).resolve_left here⟩
      · exact .inr ⟨isPending, stands⟩
  · refine (ok.rest j).congr fun m member => ?_
    have apart : m ∉ n :: rest := fun queued => by
      cases ok.unique (show Stands s (n :: rest) rests m (.doomed j) from member)
        (show Stands s (n :: rest) rests m .pending from queued)
    rw [relinked.next m apart, nextOf, same, nextOf]

theorem OwnOk.work {now : UInt64} (steps : handlerStep now s = some s') :
    ∃ place queue rests, OwnOk s' place queue rests := by
  unfold handlerStep at steps
  cases inside : s.handler with
  | none =>
    obtain rfl : s = s' := by simpa [inside] using steps
    exact ⟨place, queue, rests, ok⟩
  | some before =>
    simp only [inside] at steps
    cases before with
    | enter =>
      dsimp only at steps
      split at steps
      · cases steps
        exact ⟨_, _, _, ok.handles inside (by simp) (by simp) ok.runner rfl rfl rfl⟩
      · split at steps <;> cases steps
        · exact ⟨_, _, _, ok.handles inside (by simp) (by simp) ok.runner rfl rfl rfl⟩
        · exact ⟨_, _, _, ok.handles inside (by simp) (by simp) ok.runner rfl rfl rfl⟩
    | loop budget =>
      cases budget with
      | zero =>
        cases steps
        exact ⟨_, _, _, ok.handles inside (by simp) (by simp) ok.runner rfl rfl rfl⟩
      | succ budget =>
        obtain ⟨⟨node, timers⟩, turn, rfl⟩ := Option.map_eq_some_iff.mp steps
        cases timerTurn_cases ok.pending turn with
        | off disabled => exact ⟨_, _, _, ok.handles inside (by simp) (by simp) ok.runner rfl rfl rfl⟩
        | idle enabled deadline ticks =>
          exact ⟨_, _, _, ok.handles inside (by simp) (by simp) ok.runner rfl rfl rfl⟩
        | detached enabled deadline ticks n rest first t after relinked =>
          obtain ⟨place, okAfter⟩ := ok.detaches first inside (by simp) budget after relinked rfl
          exact ⟨place, rest, rests, okAfter⟩
    | event n firing budget =>
      cases steps
      obtain ⟨place, okAfter⟩ := ok.fire inside
      exact ⟨place, queue, rests, okAfter⟩
    | last =>
      cases steps
      obtain ⟨head, event, runner⟩ := timerRearm_frame now s.timers s.runner
      refine ⟨_, _, _, ok.handles inside (by simp) (by simp) ?_ ?_ head event⟩
      · rcases runner with same | raised
        · rw [same]
          exact ok.runner
        · rw [raised]
          exact ok.runner.raise _
      · rcases runner with same | raised
        · rw [same]
        · rw [raised, raiseTimer, raiseBottomHalf_active]
    | finished =>
      cases steps
      refine ⟨_, _, _, ok.frame ok.runner.returns (ok.runner.returns_types .timer).2.2.symm
        (fun n firing budget => ?_)
        rfl rfl⟩
      simp [inside]

theorem OwnOk.stop (closed : s.halts j = none) :
    ∃ place, OwnOk
      { s with
        timers := (timerStop s.timers s.runner).1
        runner := (timerStop s.timers s.runner).2
        halts := update s.halts j (some (.test s.timers.head))
        ready := false }
      place [] (update rests j queue) := by
  have none : rests j = [] := by
    have rest := ok.rest j
    rw [closed] at rest
    exact rest
  have moved : ∀ n, place n = some .pending ↔ n ∈ queue := fun n => ok.stands n .pending
  refine ⟨fun n => if n ∈ queue then some (.doomed j) else place n, ?_⟩
  have okAfter : (clearTimer s.runner).Ok := ok.runner.clear _
  have next : nextOf (timerStop s.timers s.runner).1 = nextOf s.timers := rfl
  constructor
  · exact okAfter
  · exact ok.handler.trans (clearBottomHalf_active _ _ _).symm
  · exact ok.lives
  · refine ok.tracked.move (fun n => ?_) fun n k a b owns before after => ?_
    · by_cases queued : n ∈ queue
      · simp [queued, (moved n).mpr queued]
      · simp [queued]
    · by_cases queued : n ∈ queue
      · obtain rfl : Station.pending = a := Option.some.inj (((moved n).mpr queued).symm.trans before)
        obtain rfl : Station.doomed j = b := by simpa [queued] using after
        rfl
      · obtain rfl : a = b := Option.some.inj (before.symm.trans (by simpa [queued] using after))
        rfl
  · intro n c
    refine Iff.trans ?_ (Iff.symm (stands_vacated (x := .halt j) (holder_halt rfl rfl rfl rfl)))
    rw [stands_rests, stands_queue queue []]
    by_cases queued : n ∈ queue
    · have only := ok.only (show Stands s queue rests n .pending from queued) c
      rw [if_pos queued, only]
      constructor
      · rintro ⟨⟩
        exact ⟨by simp [Station.slot], .inl ⟨rfl, queued⟩⟩
      · rintro ⟨-, ⟨rfl, -⟩ | ⟨-, ⟨-, ⟨⟩⟩ | ⟨other, same⟩⟩⟩
        · rfl
        · exact absurd same other
    · rw [if_neg queued, ok.stands n c]
      constructor
      · intro stands
        have unheld : c.slot ≠ some (.halt j) := fun slot => by
          rw [stands_slot slot] at stands
          simp [holder, closed] at stands
        have unlisted : c ≠ .doomed j := fun same => by
          subst same
          have listed : n ∈ rests j := stands
          simp [none] at listed
        have unqueued : c ≠ .pending := fun same => by
          subst same
          exact queued stands
        exact ⟨unheld, .inr ⟨unlisted, .inr ⟨unqueued, stands⟩⟩⟩
      · rintro ⟨-, ⟨-, member⟩ | ⟨-, ⟨-, ⟨⟩⟩ | ⟨-, stands⟩⟩⟩
        · exact absurd member queued
        · exact stands
  · exact ⟨trivial, rfl⟩
  · intro i
    by_cases here : i = j
    · subst here
      simpa [next] using (show Rest (nextOf s.timers) queue (some (.test s.timers.head)) from ok.pending)
    · simpa [next, here] using ok.rest i
  · intro n k a owns stands notRefused
    by_cases queued : n ∈ queue
    · exact ok.filled n k .pending owns ((moved n).mpr queued) (by simp)
    · exact ok.filled n k a owns (by simpa [queued] using stands) notRefused
  · intro n a stands cleaning
    by_cases queued : n ∈ queue
    · obtain rfl : Station.doomed j = a := by simpa [queued] using stands
      cases cleaning
    · exact ok.cleans n a (by simpa [queued] using stands) cleaning

theorem OwnOk.drops {dropping after : Dropping} {pending : Option Addr}
    (inside : s.halts j = some (.event n dropping pending))
    (cleans : after = .cleaning → (s.timers.event n).cleanup ≠ 0) {record : Record Addr Happening}
    (noted : record = s.record ∧
        storyAt (payload s.timers n) (.dropping j after) = storyAt (payload s.timers n) (.dropping j dropping) ∨
      ∃ h, record = s.record.note n h ∧
        storyAt (payload s.timers n) (.dropping j after) = storyAt (payload s.timers n) (.dropping j dropping) ++ [h]) :
    ∃ place, OwnOk
      { s with halts := update s.halts j (some (.event n after pending)), record := record } place queue rests := by
  have stood : Stands s queue rests n (.dropping j dropping) := ⟨pending, inside⟩
  refine ⟨_, ok.moves (b := .dropping j after) stood ok.runner ok.handler rfl ?_ ok.pending (fun i => ?_) (.refl _)
    (by simp) (fun cleaning => cleans ?_) noted⟩
  · exact ok.swaps stood rfl rfl (holder_halt rfl rfl rfl rfl)
  · have rest := ok.rest i
    by_cases same : i = j
    · subst same
      rw [inside] at rest
      simpa using (show Rest (nextOf s.timers) (rests i) (some (.event n after pending)) from rest)
    · simpa [same] using rest
  · cases after <;> first | rfl | cases cleaning

theorem OwnOk.discards (inside : s.halts j = some (.test (some n))) :
    ∃ place rests, OwnOk
      { s with
        halts := update s.halts j (some (.event n .discard (s.timers.event n).next))
        record := s.record.note n .discarded }
      place queue rests := by
  have stack := ok.rest j
  rw [inside] at stack
  obtain ⟨rest, whole⟩ : ∃ rest, rests j = n :: rest := by
    cases split : rests j with
    | nil => simpa [split] using stack.first
    | cons m rest => exact ⟨rest, by simpa [split, eq_comm] using stack.first⟩
  rw [whole] at stack
  have stood : Stands s queue rests n (.doomed j) := by
    show n ∈ rests j
    rw [whole]
    exact List.mem_cons_self
  have only := ok.only stood
  have absent := (List.nodup_cons.mp stack.nodup).1
  refine ⟨_, update rests j rest, ok.moves (b := .dropping j .discard) stood ok.runner ok.handler rfl ?_
    ok.pending (fun i => ?_) (.refl _) (by simp) (by simp [Station.cleaning]) (Or.inr ⟨.discarded, rfl, rfl⟩)⟩
  · have vacant : holder s (.halt j) = none := by simp [holder, inside, StopPlace.holds]
    have gone : ∀ c, ¬ Stands s queue (update rests j rest) n c := by
      intro c stands
      rcases (stands_rests j rest).mp stands with ⟨-, member⟩ | ⟨other, stands⟩
      · exact absent member
      · exact other ((only c).mp stands)
    refine stands_occupied gone (fun m c here => ?_) vacant rfl (holder_halt rfl rfl rfl rfl)
    rw [stands_rests]
    constructor
    · rintro (⟨rfl, member⟩ | ⟨-, stands⟩)
      · show m ∈ rests j
        rw [whole]
        exact List.mem_cons_of_mem _ member
      · exact stands
    · intro stands
      by_cases isDoomed : c = .doomed j
      · subst isDoomed
        have member : m ∈ rests j := stands
        rw [whole, List.mem_cons, or_iff_right here] at member
        exact .inl ⟨rfl, member⟩
      · exact .inr ⟨isDoomed, stands⟩
  · by_cases same : i = j
    · subst same
      simpa using (show Rest (nextOf s.timers) rest (some (.event n .discard (s.timers.event n).next)) from stack.pop)
    · simpa [same] using ok.rest i

theorem OwnOk.discard {dropping : Dropping} {pending : Option Addr}
    (inside : s.halts j = some (.event n dropping pending)) :
    ∃ place, OwnOk (discardStep j n pending s dropping) place queue rests := by
  have stood : Stands s queue rests n (.dropping j dropping) := ⟨pending, inside⟩
  cases dropping with
  | discard =>
    unfold discardStep
    dsimp only
    split
    next some => exact ok.drops inside (fun _ => some) (Or.inr ⟨_, rfl, rfl⟩)
    next null =>
      refine ok.drops inside (by simp) (Or.inl ⟨rfl, ?_⟩)
      have null : (payload s.timers n).cleanup = 0 := not_not.mp null
      simp [storyAt, cleanupStory, null]
  | cleaning =>
    have some := ok.cleans n _ ((ok.stands n _).mpr stood) rfl
    refine ok.drops inside (by simp) (Or.inr ⟨_, rfl, ?_⟩)
    simp [storyAt, cleanupStory, some]
  | release =>
    refine ⟨_,
      ok.frees stood rfl rfl rfl rfl ?_ (fun i => ?_) rfl fun q => by simp [storyAt, stories, droppedStory]⟩
    · exact ok.vacates stood rfl (holder_halt rfl rfl rfl rfl)
    · have rest := ok.rest i
      by_cases same : i = j
      · subst same
        rw [inside] at rest
        simpa [discardStep] using (show Rest (nextOf s.timers) (rests i) (some (.test pending)) from rest)
      · simpa [discardStep, same] using rest

theorem OwnOk.drop (j : Nat) : ∃ place rests, OwnOk (dropStep j s) place queue rests := by
  unfold dropStep
  cases inside : s.halts j with
  | none => exact ⟨place, rests, ok⟩
  | some spot =>
    cases spot with
    | test pending =>
      cases pending with
      | none =>
        -- the list of the call is empty
        have rest := ok.rest j
        rw [inside] at rest
        have nothing : rests j = [] := List.head?_eq_none_iff.mp rest.first.symm
        refine ⟨place, rests, { ok with stands := fun n c => ?_, rest := fun i => ?_ }⟩
        · rw [ok.stands n c]
          cases c with
          | dropping i d =>
            by_cases same : i = j
            · simp [Stands, same, inside]
            · simp [Stands, same]
          | filled | refused | pending | firing | doomed => rfl
        · by_cases same : i = j
          · simp [same, Rest, nothing]
          · simpa [same] using ok.rest i
      | some n => exact ok.discards inside
    | event n dropping pending =>
      obtain ⟨place, okAfter⟩ := ok.discard inside
      exact ⟨place, rests, okAfter⟩

theorem OwnOk.runs {runner : Runner} (okAfter : runner.Ok)
    (active : runner.isActive .timer = s.runner.isActive .timer) :
    OwnOk { s with runner := runner } place queue rests :=
  ok.frame okAfter (ok.handler.trans active.symm) (fun _ _ _ => Iff.rfl) rfl rfl

theorem OwnOk.starts (starts : s.runner.starts = some .timer) : s.handler = none := by
  cases ok.runner.advance_cases.2 with
  | same none | round none => simp [none] at starts
  | started t starts' pending was selected idle =>
    have quiet := ok.handler
    rw [idle] at quiet
    simpa using quiet

theorem OwnOk.advance :
    OwnOk
      { s with
        runner := Irq.advance s.runner
        handler := if s.runner.starts = some .timer then some .enter else s.handler }
      place queue rests := by
  have active := ok.runner.advance_active .timer
  rw [← ok.handler] at active
  by_cases starts : s.runner.starts = some .timer
  · simp only [if_pos starts]
    exact ok.frame ok.runner.advance_cases.1 (by simp [active, starts]) (by simp [ok.starts starts]) rfl rfl
  · simp only [if_neg starts]
    exact ok.frame ok.runner.advance_cases.1 (by simp [active, starts]) (fun _ _ _ => Iff.rfl) rfl rfl

theorem OwnOk.step {op : TimerOp} (may : op.allowed s = true) (steps : timerStep s op = some s') :
    ∃ place queue rests, OwnOk s' place queue rests := by
  cases op with
  | add i callback arg duration cleanup node now =>
    obtain ⟨closed, free⟩ : s.adds i = none ∧ node.bind s.record.owner = none := by
      simpa [TimerOp.allowed] using may
    cases steps
    exact ok.add closed callback arg duration cleanup (fun n given => by simpa [given] using free) now
  | insert i =>
    obtain ⟨after, place, queue, rests, inserts, okAfter⟩ := ok.insert i
    obtain rfl : after = s' := Option.some.inj (inserts.symm.trans steps)
    exact ⟨place, queue, rests, okAfter⟩
  | giveBack i =>
    cases steps
    obtain ⟨place, okAfter⟩ := ok.giveBack i
    exact ⟨place, queue, rests, okAfter⟩
  | irqTop =>
    cases steps
    have okAfter : (raiseTimer s.runner).Ok := ok.runner.raise _
    exact ⟨_, _, _, ok.frame okAfter (ok.handler.trans (raiseBottomHalf_active _ _ _).symm)
      (fun _ _ _ => Iff.rfl) rfl rfl⟩
  | work now => exact ok.work steps
  | stop j =>
    cases steps
    obtain ⟨place, okAfter⟩ := ok.stop (by simpa [TimerOp.allowed] using may)
    exact ⟨place, _, _, okAfter⟩
  | drop j =>
    cases steps
    obtain ⟨place, rests, okAfter⟩ := ok.drop j
    exact ⟨place, queue, rests, okAfter⟩
  | init i now =>
    simp only [timerStep] at steps
    split at steps <;> cases steps
    · exact ⟨place, queue, rests, ok⟩
    · obtain ⟨deadline, sbi, programmed⟩ := timerReprogramLocked_eq { s.timers with
        enabled := true
        schedTickInterval := tickInterval s.timers.timebaseFrequency
        schedTickDeadline := now + tickInterval s.timers.timebaseFrequency }
      rw [timerInit, programmed]
      exact ⟨_, _, _, ok.frame ok.runner ok.handler (fun _ _ _ => Iff.rfl) rfl rfl⟩
  | unmask i =>
    simp only [timerStep] at steps
    split at steps <;> cases steps
    · exact ⟨_, _, _, ok.frame ok.runner ok.handler (fun _ _ _ => Iff.rfl) rfl rfl⟩
    · exact ⟨place, queue, rests, ok⟩
  | raise type =>
    cases steps
    exact ⟨_, _, _, ok.runs (ok.runner.raise type) (raiseBottomHalf_active type _ _)⟩
  | clear type =>
    cases steps
    exact ⟨_, _, _, ok.runs (ok.runner.clear type) (clearBottomHalf_active type _ _)⟩
  | run =>
    cases steps
    exact ⟨_, _, _, ok.runs ok.runner.run (ok.runner.run_types .timer).2⟩
  | advance =>
    cases steps
    exact ⟨_, _, _, ok.advance⟩
  | finish =>
    simp only [timerStep] at steps
    split at steps <;> cases steps
    next none =>
      refine ⟨_, _, _, ok.runs ok.runner.returns ?_⟩
      rw [(ok.runner.returns_types .timer).2.2, ← ok.handler, none]
      rfl
    · exact ⟨place, queue, rests, ok⟩

end Steps

theorem timerRun_own {s : TimerState} (run : TimerRun TimerOp.allowed s) :
    ∃ place queue rests, OwnOk s place queue rests := by
  induction run with
  | start timebaseFreq event sbiTimer stie => exact ⟨_, _, _, timerStart_own timebaseFreq event sbiTimer stie⟩
  | step op _ may steps ih =>
    obtain ⟨place, queue, rests, ok⟩ := ih
    exact ok.step may steps

def runOps (allowed : TimerState → TimerOp → Bool) (ops : List TimerOp) (s : TimerState) : Option TimerState :=
  ops.foldlM (fun s op => if allowed s op then timerStep s op else none) s

theorem timerRun_runOps {allowed : TimerState → TimerOp → Bool} (ops : List TimerOp) {s : TimerState}
    (run : TimerRun allowed s) (runs : runOps allowed ops s = some s') : TimerRun allowed s' := by
  induction ops generalizing s with
  | nil =>
    cases runs
    exact run
  | cons op ops ih =>
    simp only [runOps, List.foldlM_cons] at runs
    obtain ⟨middle, first, rest⟩ := Option.bind_eq_some_iff.mp runs
    split at first
    next may => exact ih (.step op run may first) rest
    · cases first

def noTimers : TimerState := timerStart 100 (fun _ => ⟨0, 0, 0, 0, none⟩) 0 false

def stopInside : List TimerOp :=
  [.init 0 10, .unmask 0, .add 0 0x1000 1 0 0x2000 (some 0x100) 11, .insert 0,
    .add 1 0x1000 2 1000 0x2000 (some 0x200) 12,
    .insert 1, .irqTop, .run, .advance, .work 20, .work 20, .work 20, .stop 0, .drop 0, .drop 0, .drop 0, .drop 0]

theorem timerRun_owned {s : TimerState} (run : TimerRun TimerOp.allowed s) :
    ∃ queue rests, Stack (nextOf s.timers) s.timers.head queue ∧
      (∀ j, Rest (nextOf s.timers) (rests j) (s.halts j)) ∧
      (∀ n k, s.record.owner n = some k → ∃! a, Stands s queue rests n a) ∧
      (∀ entry ∈ s.record.log, ∃ k q, entry.1 = some k ∧ s.requests[k]? = some q) ∧
      (∀ k q, s.requests[k]? = some q →
        Told q (past k s.record.log) (∀ n a, s.record.owner n = some k → ¬ Stands s queue rests n a)) ∧
      ∀ i callback arg duration cleanup node now,
        callback = 0 ∨ s.timers.timebaseFrequency = 0 ∨ node = none →
          addStep i callback arg duration cleanup node now s = s := by
  obtain ⟨place, queue, rests, ok⟩ := timerRun_own run
  refine ⟨queue, rests, ok.pending, ok.rest, fun n k owns => ?_, fun entry member => ?_,
    fun k q known => ok.told known,
    fun i callback arg duration cleanup node now fails => ?_⟩
  · have live := ok.tracked.live n
    rw [owns] at live
    obtain ⟨a, stood⟩ := Option.isSome_iff_exists.mp live.symm
    exact ⟨a, (ok.stands n a).mp stood, fun b stands => ok.unique stands ((ok.stands n a).mp stood)⟩
  · obtain ⟨k, name, below⟩ := ok.tracked.named entry member
    rw [ok.lives] at below
    exact ⟨k, _, name, List.getElem?_eq_getElem below⟩
  · unfold addStep
    rcases fails with null | none | none
    · rw [if_pos (Or.inl null)]
    · rw [if_pos (Or.inr none)]
    · subst none
      split <;> rfl

theorem timerRun_owned_stopInside :
    ∃ s, runOps TimerOp.allowed stopInside noTimers = some s ∧ s.handler = some (.event 0x100 .inside 15) ∧
      past 0 s.record.log = [.registered, .called 0x1000 1] ∧
      past 1 s.record.log = [.registered, .discarded, .cleanup 0x2000 2, .cleaned, .freed] ∧
      ∃ (queue : List Addr) (rests : Nat → List Addr), Stack (nextOf s.timers) s.timers.head queue ∧
        ∀ j, Rest (nextOf s.timers) (rests j) (s.halts j) := by
  obtain ⟨s, runs⟩ : ∃ s, runOps TimerOp.allowed stopInside noTimers = some s :=
    Option.isSome_iff_exists.mp (by decide +kernel)
  have facts : (runOps TimerOp.allowed stopInside noTimers).map
    (fun s => (s.handler, past 0 s.record.log, past 1 s.record.log)) =
      some (some (.event 0x100 .inside 15), [.registered, .called 0x1000 1],
        [.registered, .discarded, .cleanup 0x2000 2, .cleaned, .freed]) := by
    decide +kernel
  rw [runs, Option.map_some, Option.some.injEq, Prod.mk.injEq, Prod.mk.injEq] at facts
  obtain ⟨queue, rests, pending, rest, -⟩ := timerRun_owned (timerRun_runOps stopInside (.start _ _ _ _) runs)
  exact ⟨s, runs, facts.1, facts.2.1, facts.2.2, queue, rests, pending, rest⟩

end OrangeKernel.Timer
