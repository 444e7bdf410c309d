import OrangeKernel.Irq.Notices

set_option autoImplicit false

-- A round takes all that is pending before its first handler. Whoever is raised meanwhile waits for
-- the rest of this round and for the handlers before its own in the next one.

namespace OrangeKernel.Irq

open EventLog

def Event.isStart (u : BottomHalf) : Event → Bool
  | .start t _ => t = u
  | _ => false

variable {s : Notices} {r : Runner}

def allowance (r : Runner) (t u : BottomHalf) : Nat :=
  (if r.isSelected u then 1 else 0) + (if r.isSelected t then 0 else 1)

def Bounded (r : Runner) (after : List Event) (t : BottomHalf) : Prop :=
  .clear t ∉ after → (∀ raises, .start t raises ∉ after) →
    ∀ u, after.countP (Event.isStart u) + allowance r t u ≤ 2

variable {r' : Runner}

theorem allowance_same (selected : ∀ t, r'.isSelected t = r.isSelected t) (t u : BottomHalf) :
    allowance r' t u = allowance r t u := by
  rw [allowance, allowance, selected, selected]

theorem allowance_le (r : Runner) (t u : BottomHalf) : allowance r t u ≤ 2 := by
  unfold allowance
  split <;> split <;> decide

theorem allowance_round {t : BottomHalf} (none : ∀ t, r.isSelected t = false) (taken : r'.isSelected t = true)
    (u : BottomHalf) : allowance r' t u ≤ allowance r t u := by
  rw [allowance, allowance, taken, none u, none t]
  split <;> decide

theorem allowance_started {t v : BottomHalf} (other : v ≠ t) (was : r.isSelected v = true)
    (selected : ∀ u, r'.isSelected u = (r.isSelected u && decide (u ≠ v))) (raises : List Nat) (u : BottomHalf) :
    (if Event.isStart u (.start v raises) then 1 else 0) + allowance r' t u ≤ allowance r t u := by
  have kept : r'.isSelected t = r.isSelected t := by simp [selected, other.symm]
  rw [allowance, allowance, kept, selected]
  by_cases same : v = u
  · simp [Event.isStart, ← same, was]
  · simp [Event.isStart, same, Ne.symm same]

def FairLog (s : Notices) : Prop :=
  ∀ before e after, s.log = before ++ e :: after → ∀ t, e = .raise t → Bounded s.runner after t

variable {s' : Notices}

theorem FairLog.snoc {last : Event} (fair : FairLog s) (log : s'.log = s.log ++ [last])
    (spends : ∀ t, (∀ raises, last ≠ .start t raises) → ∀ u,
      (if Event.isStart u last then 1 else 0) + allowance s'.runner t u ≤ allowance s.runner t u) : FairLog s' := by
  intro before e after split t raised uncleared unserved u
  rw [log] at split
  obtain ⟨-, -, rfl⟩ | ⟨rest, rfl, older⟩ := snoc_split split
  · have bound := allowance_le s'.runner t u
    rw [List.countP_nil]
    omega
  · simp only [List.mem_append, List.mem_singleton, not_or] at uncleared unserved
    have bound := fair before e rest older t raised uncleared.1 (fun raises => (unserved raises).1) u
    have spent := spends t (fun raises same => (unserved raises).2 same.symm) u
    rw [List.countP_append, List.countP_singleton]
    omega

theorem FairLog.note {e : Event} (fair : FairLog s) (plain : ∀ t raises, e ≠ .start t raises)
    (log : s'.log = s.log ++ [e]) (selected : ∀ t, s'.runner.isSelected t = s.runner.isSelected t) : FairLog s' := by
  refine fair.snoc log fun t _ u => ?_
  have uncounted : Event.isStart u e = false := by
    cases e with
    | start t raises => exact absurd rfl (plain t raises)
    | raise | clear | leave => rfl
  rw [uncounted, allowance_same selected]
  exact Nat.le_of_eq (Nat.zero_add _)

theorem FairLog.step (ok : NoticesOk s) (fair : FairLog s) (noticed : Noticed s s') : FairLog s' := by
  cases noticed with
  | quiet okAfter pending selected =>
    intro before e after split t raised uncleared unserved u
    rw [allowance_same selected]
    exact fair before e after split t raised uncleared unserved u
  | raised okAfter u pending selected => exact fair.note (by simp) rfl selected
  | cleared okAfter u pending selected => exact fair.note (by simp) rfl selected
  | left okAfter zero none pending selected => exact fair.note (by simp) rfl selected
  | started okAfter v pending was selected =>
    refine fair.snoc rfl fun t unserved u => ?_
    exact allowance_started (fun same => unserved _ (by rw [same])) was selected _ u
  | round okAfter none pending selected =>
    intro before e after split t raised uncleared unserved u
    -- The raise is still waiting, so the new round has it.
    have waits : s.runner.isPending t = true := by
      rcases ok.kept before e after split t raised uncleared with ⟨raises, served⟩ | set | chosen
      · exact absurd served (unserved raises)
      · exact set
      · rw [none t] at chosen
        cases chosen
    have bound := fair before e after split t raised uncleared unserved u
    have lower := allowance_round none ((selected t).trans waits) u
    exact Nat.le_trans (Nat.add_le_add_left lower _) bound

theorem noticeRun_fairLog (run : NoticeRun s) : FairLog s := by
  induction run with
  | start => exact fun before e after split => by simp [noticesStart] at split
  | step op run ih => exact ih.step (noticeRun_ok run) ((noticeRun_ok run).runner.noticed op)

theorem Noticed.grows (noticed : Noticed s s') : s'.log = s.log ∨ ∃ e, s'.log = s.log ++ [e] := by
  cases noticed with
  | quiet | round => exact .inl rfl
  | raised | cleared | started | left => exact .inr ⟨_, rfl⟩

theorem noticeRun_fair {s : Notices} (run : NoticeRun s) (t : BottomHalf) (before between after : List Event)
    (split : s.log = before ++ Event.raise t :: (between ++ after)) (uncleared : .clear t ∉ between)
    (unserved : ∀ raises, .start t raises ∉ between) (u : BottomHalf) :
    between.countP (Event.isStart u) ≤ 2 := by
  induction run generalizing after with
  | start => simp [noticesStart] at split
  | @step s op run ih =>
    have ok := noticeRun_ok run
    obtain rfl | ⟨rest, last, rfl⟩ := List.eq_nil_or_concat' after
    · -- The raise still waits.
      rw [List.append_nil] at split
      have bound := noticeRun_fairLog (.step op run) before _ between split t rfl uncleared unserved u
      omega
    · obtain same | ⟨e, grown⟩ := (ok.runner.noticed op).grows
      · exact ih (rest ++ [last]) (same ▸ split)
      · rw [grown] at split
        have shape : s.log ++ [e] = (before ++ Event.raise t :: (between ++ rest)) ++ [last] := by simpa using split
        exact ih rest (List.append_inj' shape rfl).1

def twiceBefore : List NoticeOp :=
  [.raise 0, .run, .raise 2, .advance, .raise 0, .finish, .advance, .advance, .advance, .advance, .advance, .finish,
    .advance, .advance]

theorem noticeRun_fair_twiceBefore :
    (twiceBefore.foldl noticeStep noticesStart).log =
        [Event.raise .timer] ++ Event.raise .uartTx ::
          ([Event.start .timer [0], Event.raise .timer, Event.start .timer [3]] ++ [Event.start .uartTx [1]]) ∧
      [Event.start .timer [0], .raise .timer, .start .timer [3]].countP (Event.isStart .timer) ≤ 2 := by
  have log : (twiceBefore.foldl noticeStep noticesStart).log =
      [Event.raise .timer] ++ Event.raise .uartTx ::
        ([Event.start .timer [0], Event.raise .timer, Event.start .timer [3]] ++
          [Event.start .uartTx [1]]) := by decide +kernel
  exact ⟨log, noticeRun_fair (noticeRun_foldl twiceBefore .start) .uartTx _ _ _ log (by decide) (by simp) .timer⟩

end OrangeKernel.Irq
