import OrangeKernel.Irq.BottomHalf
import OrangeKernel.Shared.EventLog

set_option autoImplicit false

-- A raise has its place in the log as its number; a start is logged with the raises that its round
-- took.

namespace OrangeKernel.Irq

open WordMask EventLog

inductive Event where
  | raise (t : BottomHalf)
  | clear (t : BottomHalf)
  | start (t : BottomHalf) (raises : List Nat)
  | leave
deriving DecidableEq, Repr

def Event.consumed : Event → List Nat
  | .start _ raises => raises
  | _ => []

-- `unserved` are the raises since the last round or clear, `batch` those of the last round.
structure Notices where
  runner : Runner
  log : List Event
  unserved : BottomHalf → List Nat
  batch : BottomHalf → List Nat

inductive NoticeOp where
  | raise (type : UInt32)
  | clear (type : UInt32)
  | run
  | advance
  | finish

def typeOf (type : UInt32) : Option BottomHalf := dispatchOrder.find? fun t => UInt32.ofNat t.bit = type

def noteRaise (type : UInt32) (s : Notices) : Notices :=
  match typeOf type with
  | none => s
  | some t =>
    { s with
      log := s.log ++ [Event.raise t]
      unserved := Function.update s.unserved t (s.log.length :: s.unserved t) }

def noteClear (type : UInt32) (s : Notices) : Notices :=
  match typeOf type with
  | none => s
  | some t =>
    { s with
      log := s.log ++ [Event.clear t]
      unserved := Function.update s.unserved t [] }

def noteRound (s : Notices) : Notices :=
  if s.runner.pending ≠ 0 then
    { s with
      unserved := fun _ => []
      batch := s.unserved }
  else { s with log := s.log ++ [Event.leave] }

def noteAdvance (s : Notices) : Notices :=
  match s.runner.starts, s.runner.frames with
  | some t, _ =>
    { s with
      log := s.log ++ [Event.start t (s.batch t)]
      batch := Function.update s.batch t [] }
  | none, ⟨_, [], none⟩ :: _ => noteRound s
  | _, _ => s

def noticeStep (s : Notices) : NoticeOp → Notices
  | .raise type => { noteRaise type s with runner := raiseBottomHalf type s.runner }
  | .clear type => { noteClear type s with runner := clearBottomHalf type s.runner }
  | .run => { (if s.runner.running then s else noteRound s) with runner := runBottomHalves s.runner }
  | .advance => { noteAdvance s with runner := Irq.advance s.runner }
  | .finish => { s with runner := handlerReturns s.runner }

def noticesStart : Notices :=
  { runner := bottomHalfInit
    log := []
    unserved := fun _ => []
    batch := fun _ => [] }

inductive NoticeRun : Notices → Prop where
  | start : NoticeRun noticesStart
  | step {s : Notices} (op : NoticeOp) (run : NoticeRun s) : NoticeRun (noticeStep s op)

def Kept (r : Runner) (after : List Event) (t : BottomHalf) : Prop :=
  .clear t ∉ after → (∃ raises, .start t raises ∈ after) ∨ r.isPending t = true ∨ r.isSelected t = true

structure NoticesOk (s : Notices) : Prop where
  runner : s.runner.Ok
  pending : ∀ t, s.runner.isPending t = true ↔ s.unserved t ≠ []
  selected : ∀ t, s.runner.isSelected t = true → s.batch t ≠ []
  unserved : ∀ t, ∀ n ∈ s.unserved t, s.log[n]? = some (.raise t)
  batch : ∀ t, ∀ n ∈ s.batch t, s.log[n]? = some (.raise t)
  apart : ∀ t, (s.unserved t).Disjoint (s.batch t)
  unserved_new : ∀ e ∈ s.log, ∀ t, (s.unserved t).Disjoint e.consumed
  batch_new : ∀ e ∈ s.log, ∀ t, (s.batch t).Disjoint e.consumed
  started : ∀ before e after, s.log = before ++ e :: after →
    ∀ t raises, e = .start t raises → raises ≠ [] ∧ ∀ n ∈ raises, before[n]? = some (.raise t)
  once : s.log.Pairwise fun e f => e.consumed.Disjoint f.consumed
  kept : ∀ before e after, s.log = before ++ e :: after → ∀ t, e = .raise t → Kept s.runner after t

theorem noticesStart_ok : NoticesOk noticesStart := by
  refine ⟨bottomHalfInit_ok, ?_, ?_, ?_, ?_, ?_, ?_, ?_, ?_, ?_, ?_⟩ <;>
    simp [noticesStart, Runner.isPending, Runner.isSelected, bottomHalfInit]

theorem typeOf_bit (u : BottomHalf) : typeOf (UInt32.ofNat u.bit) = some u := by
  cases u <;> decide

theorem typeOf_outside {type : UInt32} (outside : bhCount ≤ type) : typeOf type = none := by
  refine List.find?_eq_none.mpr fun t _ => ?_
  have other : UInt32.ofNat t.bit ≠ type := fun same => bhCount_le_bit t (same ▸ outside)
  simpa using other

variable {log : List Event}

theorem getElem?_grow {n : Nat} {e : Event} (found : log[n]? = some e) (last : Event) :
    (log ++ [last])[n]? = some e := by
  obtain ⟨within, -⟩ := List.getElem?_eq_some_iff.mp found
  rw [List.getElem?_append_left within, found]

variable {s : Notices}

theorem NoticesOk.consumed_lt (ok : NoticesOk s) {e : Event} (member : e ∈ s.log) {n : Nat}
    (consumed : n ∈ e.consumed) : n < s.log.length := by
  cases e with
  | start t raises =>
    obtain ⟨before, after, split⟩ := List.append_of_mem member
    have found := (ok.started before _ after split t raises rfl).2 n consumed
    obtain ⟨within, -⟩ := List.getElem?_eq_some_iff.mp found
    rw [split, List.length_append]
    omega
  | raise | clear | leave => simp [Event.consumed] at consumed

variable {last : Event}

theorem started_snoc
    (old : ∀ (before : List Event) (e : Event) (after : List Event), log = before ++ e :: after →
      ∀ t raises, e = .start t raises → raises ≠ [] ∧ ∀ n ∈ raises, before[n]? = some (.raise t))
    (new : ∀ t raises, last = .start t raises → raises ≠ [] ∧ ∀ n ∈ raises, log[n]? = some (.raise t)) :
    ∀ (before : List Event) (e : Event) (after : List Event), log ++ [last] = before ++ e :: after →
      ∀ t raises, e = .start t raises → raises ≠ [] ∧ ∀ n ∈ raises, before[n]? = some (.raise t) :=
  forall_split_snoc old (fun _ _ _ _ holds => holds) new

theorem once_snoc (old : log.Pairwise fun e f => e.consumed.Disjoint f.consumed)
    (new : ∀ e ∈ log, e.consumed.Disjoint last.consumed) :
    (log ++ [last]).Pairwise fun e f => e.consumed.Disjoint f.consumed := by
  refine List.pairwise_append.mpr ⟨old, by simp, fun e member f last => ?_⟩
  obtain rfl := List.mem_singleton.mp last
  exact new e member

theorem disjoint_snoc {ns : List Nat} (old : ∀ e ∈ log, ns.Disjoint e.consumed)
    (new : ns.Disjoint last.consumed) : ∀ e ∈ log ++ [last], ns.Disjoint e.consumed := by
  intro e member
  rcases List.mem_append.mp member with older | latest
  · exact old e older
  · obtain rfl := List.mem_singleton.mp latest
    exact new

variable {r : Runner}

theorem kept_snoc {r' : Runner}
    (old : ∀ before e after, log = before ++ e :: after → ∀ t, e = .raise t → Kept r after t)
    (keeps : ∀ t, last ≠ .clear t → r.isPending t = true ∨ r.isSelected t = true →
      (∃ raises, last = .start t raises) ∨ r'.isPending t = true ∨ r'.isSelected t = true)
    (new : ∀ t, last = .raise t → r'.isPending t = true) :
    ∀ before e after, log ++ [last] = before ++ e :: after → ∀ t, e = .raise t → Kept r' after t := by
  intro before e after split t raised uncleared
  obtain ⟨-, rfl, rfl⟩ | ⟨rest, rfl, older⟩ := snoc_split split
  · exact Or.inr (Or.inl (new t raised))
  · simp only [List.mem_append, List.mem_singleton, not_or] at uncleared ⊢
    rcases old before e rest older t raised uncleared.1 with ⟨raises, served⟩ | waiting
    · exact Or.inl ⟨raises, Or.inl served⟩
    · rcases keeps t (Ne.symm uncleared.2) waiting with ⟨raises, starts⟩ | waits
      · exact Or.inl ⟨raises, Or.inr starts.symm⟩
      · exact Or.inr waits

theorem kept_same {r' : Runner}
    (old : ∀ before e after, log = before ++ e :: after → ∀ t, e = .raise t → Kept r after t)
    (keeps : ∀ t, r.isPending t = true ∨ r.isSelected t = true → r'.isPending t = true ∨
      r'.isSelected t = true) :
    ∀ before e after, log = before ++ e :: after → ∀ t, e = .raise t → Kept r' after t :=
  fun before e after split t raised uncleared => (old before e after split t raised uncleared).imp_right (keeps t)

-- An event that uses up no raise.
theorem NoticesOk.note (ok : NoticesOk s) {queue : BottomHalf → List Nat}
    (plain : ∀ t raises, last ≠ .start t raises)
    (queued : ∀ t, ∀ n ∈ queue t, n ∈ s.unserved t ∨ n = s.log.length ∧ last = .raise t)
    (okAfter : r.Ok) (pending : ∀ t, r.isPending t = true ↔ queue t ≠ [])
    (selected : ∀ t, r.isSelected t = s.runner.isSelected t)
    (keeps : ∀ t, last ≠ .clear t → s.runner.isPending t = true → r.isPending t = true)
    (new : ∀ t, last = .raise t → r.isPending t = true) :
    NoticesOk { s with runner := r, log := s.log ++ [last], unserved := queue } := by
  have free : last.consumed = [] := by
    cases last with
    | start t raises => exact absurd rfl (plain t raises)
    | raise | clear | leave => rfl
  constructor
  · exact okAfter
  · exact pending
  · intro t chosen
    exact ok.selected t (by rw [← selected]; exact chosen)
  · intro t n member
    obtain old | ⟨rfl, rfl⟩ := queued t n member
    · exact getElem?_grow (ok.unserved t n old) _
    · simp
  · exact fun t n member => getElem?_grow (ok.batch t n member) _
  · intro t n member taken
    obtain old | ⟨rfl, -⟩ := queued t n member
    · exact ok.apart t old taken
    · simpa using ok.batch t _ taken
  · intro e member t
    refine disjoint_snoc (fun e older n inside consumed => ?_) (by simp [free]) e member
    obtain old | ⟨rfl, -⟩ := queued t n inside
    · exact ok.unserved_new e older t old consumed
    · exact absurd (ok.consumed_lt older consumed) (Nat.lt_irrefl _)
  · exact fun e member t => disjoint_snoc (fun e older => ok.batch_new e older t) (by simp [free]) e member
  · exact started_snoc ok.started fun t raises same => absurd same (plain t raises)
  · exact once_snoc ok.once (by simp [free])
  · refine kept_snoc ok.kept (fun t other waiting => Or.inr (waiting.imp (keeps t other) fun chosen => ?_)) new
    rw [selected, chosen]

theorem NoticesOk.raised (ok : NoticesOk s) (okAfter : r.Ok) (u : BottomHalf)
    (pending : ∀ t, r.isPending t = (s.runner.isPending t || decide (t = u)))
    (selected : ∀ t, r.isSelected t = s.runner.isSelected t) :
    NoticesOk
      { s with
        runner := r
        log := s.log ++ [Event.raise u]
        unserved := Function.update s.unserved u (s.log.length :: s.unserved u) } := by
  refine ok.note (by simp) (fun t n member => ?_) okAfter (fun t => ?_) selected
    (fun t _ set => by rw [pending, set, Bool.true_or]) fun t same => ?_
  · by_cases here : t = u
    · subst here
      simpa [or_comm] using member
    · exact .inl (by simpa [here] using member)
  · rw [pending]
    by_cases here : t = u
    · simp [here]
    · simp [here, ok.pending t]
  · obtain rfl : u = t := by simpa using same
    simp [pending]

theorem NoticesOk.cleared (ok : NoticesOk s) (okAfter : r.Ok) (u : BottomHalf)
    (pending : ∀ t, r.isPending t = (s.runner.isPending t && decide (t ≠ u)))
    (selected : ∀ t, r.isSelected t = s.runner.isSelected t) :
    NoticesOk
      { s with
        runner := r
        log := s.log ++ [Event.clear u]
        unserved := Function.update s.unserved u [] } := by
  refine ok.note (by simp) (fun t n member => .inl ?_) okAfter (fun t => ?_) selected (fun t other set => ?_) (by simp)
  · by_cases here : t = u
    · simp [here] at member
    · simpa [here] using member
  · rw [pending]
    by_cases here : t = u
    · simp [here]
    · simp [here, ok.pending t]
  · have different : t ≠ u := fun same => other (same ▸ rfl)
    simp [pending, set, different]

theorem NoticesOk.left (ok : NoticesOk s) (okAfter : r.Ok) (zero : s.runner.pending = 0)
    (pending : ∀ t, r.isPending t = false) (selected : ∀ t, r.isSelected t = s.runner.isSelected t) :
    NoticesOk { s with runner := r, log := s.log ++ [Event.leave] } := by
  have clear := ok.runner.pending_zero.mp zero
  refine ok.note (by simp) (fun _ _ old => .inl old) okAfter (fun t => ?_) selected (fun t _ set => ?_) (by simp)
  · rw [pending, ← ok.pending, clear]
  · rw [clear t] at set
    cases set

theorem NoticesOk.round (ok : NoticesOk s) (okAfter : r.Ok) (none : ∀ t, s.runner.isSelected t = false)
    (pending : ∀ t, r.isPending t = false) (selected : ∀ t, r.isSelected t = s.runner.isPending t) :
    NoticesOk { s with runner := r, unserved := fun _ => [], batch := s.unserved } := by
  constructor
  · exact okAfter
  · simp [pending]
  · intro t chosen
    rw [selected] at chosen
    exact (ok.pending t).mp chosen
  · simp
  · exact ok.unserved
  · simp
  · simp
  · exact ok.unserved_new
  · exact ok.started
  · exact ok.once
  · refine kept_same ok.kept fun t waiting => ?_
    rw [none t] at waiting
    exact Or.inr (by simpa [selected] using waiting)

theorem NoticesOk.start (ok : NoticesOk s) {t : BottomHalf} (okAfter : r.Ok)
    (pending : r.pending = s.runner.pending) (was : s.runner.isSelected t = true)
    (selected : ∀ u, r.isSelected u = (s.runner.isSelected u && decide (u ≠ t))) :
    NoticesOk
      { s with
        runner := r
        log := s.log ++ [Event.start t (s.batch t)]
        batch := Function.update s.batch t [] } := by
  have same : ∀ u, r.isPending u = s.runner.isPending u := fun u => by simp only [Runner.isPending, pending]
  have fewer : ∀ u, Function.update s.batch t [] u ⊆ s.batch u := fun u => by
    by_cases here : u = t
    · simp [here]
    · simp [here]
  constructor
  · exact okAfter
  · intro u
    rw [same]
    exact ok.pending u
  · intro u chosen
    rw [selected, Bool.and_eq_true, decide_eq_true_eq] at chosen
    simpa [chosen.2] using ok.selected u chosen.1
  · exact fun u n member => getElem?_grow (ok.unserved u n member) _
  · exact fun u n member => getElem?_grow (ok.batch u n (fewer u member)) _
  · exact fun u n member inside => ok.apart u member (fewer u inside)
  · intro e member u
    refine disjoint_snoc (fun e older => ok.unserved_new e older u) (fun n waiting taken => ?_) e member
    -- the number says which type was raised
    obtain rfl : u = t := by simpa [ok.unserved u n waiting] using ok.batch t n taken
    exact ok.apart u waiting taken
  · intro e member u
    refine disjoint_snoc (fun e older n inside => ok.batch_new e older u (fewer u inside)) (fun n waiting taken => ?_) e
      member
    obtain rfl : u = t := by simpa [ok.batch u n (fewer u waiting)] using ok.batch t n taken
    simp at waiting
  · refine started_snoc ok.started fun u raises this => ?_
    obtain ⟨rfl, rfl⟩ : t = u ∧ s.batch t = raises := by simpa using this
    exact ⟨ok.selected t was, ok.batch t⟩
  · exact once_snoc ok.once fun e member => List.disjoint_comm.mp (ok.batch_new e member t)
  · refine kept_snoc ok.kept (fun u _ waiting => ?_) (by simp)
    by_cases here : u = t
    · exact Or.inl ⟨s.batch t, by rw [here]⟩
    · right
      rw [same, selected]
      simpa [here] using waiting

theorem NoticesOk.same (ok : NoticesOk s) (okAfter : r.Ok)
    (pending : ∀ t, r.isPending t = s.runner.isPending t) (selected : ∀ t, r.isSelected t = s.runner.isSelected t) :
    NoticesOk { s with runner := r } :=
  { ok with
    runner := okAfter
    pending := fun t => by rw [pending]; exact ok.pending t
    selected := fun t chosen => ok.selected t (by rw [← selected]; exact chosen)
    kept := kept_same ok.kept fun t waiting => by rw [pending, selected]; exact waiting }

inductive Noticed (s : Notices) : Notices → Prop where
  | quiet {r : Runner} (ok : r.Ok) (pending : ∀ t, r.isPending t = s.runner.isPending t)
      (selected : ∀ t, r.isSelected t = s.runner.isSelected t) : Noticed s { s with runner := r }
  | raised {r : Runner} (ok : r.Ok) (u : BottomHalf)
      (pending : ∀ t, r.isPending t = (s.runner.isPending t || decide (t = u)))
      (selected : ∀ t, r.isSelected t = s.runner.isSelected t) :
      Noticed s
        { s with
          runner := r
          log := s.log ++ [Event.raise u]
          unserved := Function.update s.unserved u (s.log.length :: s.unserved u) }
  | cleared {r : Runner} (ok : r.Ok) (u : BottomHalf)
      (pending : ∀ t, r.isPending t = (s.runner.isPending t && decide (t ≠ u)))
      (selected : ∀ t, r.isSelected t = s.runner.isSelected t) :
      Noticed s
        { s with
          runner := r
          log := s.log ++ [Event.clear u]
          unserved := Function.update s.unserved u [] }
  | started {r : Runner} (ok : r.Ok) (t : BottomHalf) (pending : r.pending = s.runner.pending)
      (was : s.runner.isSelected t = true)
      (selected : ∀ u, r.isSelected u = (s.runner.isSelected u && decide (u ≠ t))) :
      Noticed s
        { s with
          runner := r
          log := s.log ++ [Event.start t (s.batch t)]
          batch := Function.update s.batch t [] }
  | round {r : Runner} (ok : r.Ok) (none : ∀ t, s.runner.isSelected t = false)
      (pending : ∀ t, r.isPending t = false) (selected : ∀ t, r.isSelected t = s.runner.isPending t) :
      Noticed s { s with runner := r, unserved := fun _ => [], batch := s.unserved }
  | left {r : Runner} (ok : r.Ok) (zero : s.runner.pending = 0) (none : ∀ t, s.runner.isSelected t = false)
      (pending : r.pending = 0) (selected : ∀ t, r.isSelected t = s.runner.isSelected t) :
      Noticed s { s with runner := r, log := s.log ++ [Event.leave] }

theorem nextRound_pending (outer : List Frame) (r : Runner) : (nextRound outer r).pending = 0 := by
  unfold nextRound
  split
  · rfl
  next none => exact not_not.mp none

theorem noticed_round (ok : s.runner.Ok) (none : ∀ t, s.runner.isSelected t = false)
    (types : r.pending = s.runner.pending) (running : r.running = true) :
    Noticed s { noteRound s with runner := nextRound [] r } := by
  have okRound : (nextRound [] r).Ok := nextRound_ok (types ▸ ok.types) running
  have selected : ∀ t, (nextRound [] r).isSelected t = s.runner.isPending t := fun t => by
    rw [(nextRound_types r t).2.1, Runner.isPending, Runner.isPending, types]
  unfold noteRound
  split
  · exact .round okRound none (fun t => (nextRound_types r t).1) selected
  next left =>
    have zero := not_not.mp left
    refine .left okRound zero none (nextRound_pending _ _) fun t => ?_
    rw [selected, ok.pending_zero.mp zero, none]

theorem Runner.Ok.noticed (ok : s.runner.Ok) (op : NoticeOp) : Noticed s (noticeStep s op) := by
  cases op with
  | raise type =>
    obtain outside | ⟨u, rfl⟩ := type_cases type
    · simp only [noticeStep, noteRaise, typeOf_outside outside, raiseBottomHalf_outside outside]
      exact .quiet ok (fun _ => rfl) fun _ => rfl
    · simp only [noticeStep, noteRaise, typeOf_bit]
      refine .raised (ok.raise _) u (fun t => raiseBottomHalf_pending u t _) fun t => ?_
      simp only [Runner.isSelected, (raiseBottomHalf_frames _ s.runner).1]
  | clear type =>
    obtain outside | ⟨u, rfl⟩ := type_cases type
    · simp only [noticeStep, noteClear, typeOf_outside outside, clearBottomHalf_outside outside]
      exact .quiet ok (fun _ => rfl) fun _ => rfl
    · simp only [noticeStep, noteClear, typeOf_bit]
      refine .cleared (ok.clear _) u (fun t => clearBottomHalf_pending u t _) fun t => ?_
      simp only [Runner.isSelected, (clearBottomHalf_frames _ s.runner).1]
  | run =>
    simp only [noticeStep]
    obtain ⟨running, same⟩ | ⟨frames, takes⟩ := ok.run_cases
    · rw [if_pos running, same]
      exact .quiet ok (fun _ => rfl) fun _ => rfl
    · have idle : s.runner.running = false := by
        obtain ⟨-, stopped⟩ | ⟨f, one, -⟩ := ok.alone
        · exact stopped
        · simp [frames] at one
      rw [idle, takes]
      exact noticed_round ok (by simp [Runner.isSelected, frames]) rfl rfl
  | advance =>
    simp only [noticeStep, noteAdvance]
    obtain ⟨okAfter, how⟩ := ok.advance_cases
    cases how with
    | same none within pending selected active =>
      rw [none]
      split
      next starts => simp at starts
      next spent => exact absurd spent (within _ _)
      · exact .quiet okAfter (fun t => by simp only [Runner.isPending, pending]) selected
    | started t starts pending was selected idle active =>
      rw [starts]
      exact .started okAfter t pending was selected
    | round none mask spent next =>
      rw [none, spent, next]
      have running : s.runner.running = true := by
        obtain ⟨no, -⟩ | ⟨f, -, busy, -⟩ := ok.alone
        · simp [spent] at no
        · exact busy
      exact noticed_round ok (by simp [Runner.isSelected, spent]) rfl running
  | finish => exact .quiet ok.returns (fun t => (ok.returns_types t).1) fun t => (ok.returns_types t).2.1

theorem NoticesOk.step {s s' : Notices} (ok : NoticesOk s) (noticed : Noticed s s') : NoticesOk s' := by
  cases noticed with
  | quiet okAfter pending selected => exact ok.same okAfter pending selected
  | raised okAfter u pending selected => exact ok.raised okAfter u pending selected
  | cleared okAfter u pending selected => exact ok.cleared okAfter u pending selected
  | started okAfter t pending was selected => exact ok.start okAfter pending was selected
  | round okAfter none pending selected => exact ok.round okAfter none pending selected
  | left okAfter zero none pending selected =>
    exact ok.left okAfter zero (fun t => by simp [Runner.isPending, pending]) selected

theorem noticeRun_ok (run : NoticeRun s) : NoticesOk s := by
  induction run with
  | start => exact noticesStart_ok
  | step op _ ih => exact ih.step (ih.runner.noticed op)

def Leaves (s : Notices) (op : NoticeOp) : Prop := (noticeStep s op).log = s.log ++ [Event.leave]

theorem NoticesOk.leaves (ok : NoticesOk s) {op : NoticeOp} (leaves : Leaves s op) :
    s.runner.pending = 0 ∧ (∀ t, s.runner.isSelected t = false) ∧ (noticeStep s op).runner.pending = 0 := by
  have noticed := ok.runner.noticed op
  unfold Leaves at leaves
  generalize noticeStep s op = after at noticed leaves
  cases noticed with
  | left okAfter zero none pending selected => exact ⟨zero, none, pending⟩
  | quiet | raised | cleared | started | round => simp at leaves

def handlersInProgress (s : Notices) : Nat := s.runner.frames.countP fun f => f.active.isSome

theorem Runner.Ok.one_frame (ok : r.Ok) : r.frames.length ≤ 1 := by
  obtain ⟨none, -⟩ | ⟨f, one, -⟩ := ok.alone
  · simp [none]
  · simp [one]

theorem noticeRun_exact {s : Notices} (run : NoticeRun s) :
    handlersInProgress s ≤ 1 ∧
      (∀ op, Leaves s op → (noticeStep s op).runner.pending = 0 ∧
        ∀ t before after, s.log = before ++ Event.raise t :: after → .clear t ∉ after →
          ∃ raises, .start t raises ∈ after) ∧
      (∀ t raises before after, s.log = before ++ Event.start t raises :: after →
        raises ≠ [] ∧ (∀ n ∈ raises, before[n]? = some (.raise t)) ∧ ∀ e ∈ before,
        raises.Disjoint e.consumed) := by
  have ok := noticeRun_ok run
  refine ⟨Nat.le_trans List.countP_le_length ok.runner.one_frame, fun op leaves => ?_,
    fun t raises before after split => ?_⟩
  · obtain ⟨zero, selected, pending⟩ := ok.leaves leaves
    refine ⟨pending, fun t before after split uncleared => ?_⟩
    rcases ok.kept before _ after split t rfl uncleared with served | set | chosen
    · exact served
    · rw [ok.runner.pending_zero.mp zero t] at set
      cases set
    · rw [selected t] at chosen
      cases chosen
  · obtain ⟨some, earlier⟩ := ok.started before _ after split t raises rfl
    refine ⟨some, earlier, fun e member => ?_⟩
    have pairs := ok.once
    rw [split] at pairs
    exact List.disjoint_comm.mp ((List.pairwise_append.mp pairs).2.2 e member _ List.mem_cons_self)

def nestedRaise : List NoticeOp := [.raise 0, .run, .advance, .raise 0, .run, .finish]

theorem noticeRun_foldl (ops : List NoticeOp) (run : NoticeRun s) :
    NoticeRun (ops.foldl noticeStep s) := by
  induction ops generalizing s with
  | nil => exact run
  | cons op ops ih => exact ih (.step op run)

theorem noticeRun_exact_nestedRaise :
    NoticeRun (nestedRaise.foldl noticeStep noticesStart) ∧
      (nestedRaise.foldl noticeStep noticesStart).log = [.raise .timer, .start .timer [0], .raise .timer] ∧
      handlersInProgress (nestedRaise.foldl noticeStep noticesStart) ≤ 1 := by
  have run := noticeRun_foldl nestedRaise .start
  exact ⟨run, by decide +kernel, (noticeRun_exact run).1⟩

end OrangeKernel.Irq
