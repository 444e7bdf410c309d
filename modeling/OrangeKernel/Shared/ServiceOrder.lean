import Mathlib.Data.List.Nodup
import Mathlib.Data.List.TakeWhile

set_option autoImplicit false

namespace ServiceOrder

variable {A : Type} [DecidableEq A]

def ahead (t : A) (queue : List A) : List A := queue.takeWhile (· ≠ t)

@[simp] theorem ahead_cons_self (t : A) (rest : List A) : ahead t (t :: rest) = [] := by simp [ahead]

variable {t : A}

theorem ahead_cons_of_ne {x : A} (other : x ≠ t) (rest : List A) : ahead t (x :: rest) = x :: ahead t rest := by
  simp [ahead, other]

variable {queue : List A}

theorem ahead_append (member : t ∈ queue) (new : List A) :
    ahead t (queue ++ new) = ahead t queue := by
  induction queue with
  | nil => cases member
  | cons x rest ih =>
    by_cases same : x = t
    · simp [same]
    · have later : t ∈ rest := (List.mem_cons.mp member).resolve_left (Ne.symm same)
      rw [List.cons_append, ahead_cons_of_ne same, ahead_cons_of_ne same, ih later]

theorem ahead_sublist {kept : List A} (left : kept.Sublist queue) (distinct : queue.Nodup)
    (stays : t ∈ kept) : (ahead t kept).Sublist (ahead t queue) := by
  induction left with
  | slnil => exact .slnil
  | cons x sub ih =>
    obtain ⟨absent, restDistinct⟩ := List.nodup_cons.mp distinct
    have other : x ≠ t := fun same => absent (same ▸ sub.subset stays)
    rw [ahead_cons_of_ne other]
    exact .cons x (ih restDistinct stays)
  | cons_cons x sub ih =>
    by_cases same : x = t
    · simp [same]
    · rw [ahead_cons_of_ne same, ahead_cons_of_ne same]
      exact .cons_cons x
        (ih (List.nodup_cons.mp distinct).2 ((List.mem_cons.mp stays).resolve_left (Ne.symm same)))

def Moves (t : A) (queue queue' : List A) : Prop :=
  ∃ kept new, kept.Sublist queue ∧ t ∈ kept ∧ queue' = kept ++ new

theorem Moves.ahead {queue' : List A} (moves : Moves t queue queue') (distinct : queue.Nodup) :
    (ahead t queue').Sublist (ahead t queue) := by
  obtain ⟨kept, new, left, stays, rfl⟩ := moves
  rw [ahead_append stays]
  exact ahead_sublist left distinct stays

inductive Serves (t : A) : List A → List A → Prop where
  | done (queue : List A) : Serves t queue []
  | pass {queue queue' served : List A} (distinct : queue.Nodup) (moves : Moves t queue queue')
      (rest : Serves t queue' served) : Serves t queue served
  | serve {x : A} {queue queue' served : List A} (distinct : queue.Nodup) (other : x ≠ t)
      (moves : Moves t queue queue') (rest : Serves t queue' served) : Serves t (x :: queue) (x :: served)

theorem Serves.count_le {served : List A} (serves : Serves t queue served) (u : A) :
    served.count u ≤ (ServiceOrder.ahead t queue).count u := by
  induction serves with
  | done queue => simp
  | pass distinct moves _ ih => exact ih.trans ((moves.ahead distinct).count_le u)
  | serve distinct other moves _ ih =>
    rw [ahead_cons_of_ne other, List.count_cons, List.count_cons]
    have earlier := ih.trans ((moves.ahead distinct).count_le u)
    omega

theorem Serves.count_le_one {served : List A} (serves : Serves t queue served) (distinct : queue.Nodup)
    (u : A) : served.count u ≤ 1 :=
  (serves.count_le u).trans (List.nodup_iff_count_le_one.mp (distinct.sublist (List.takeWhile_sublist _)) u)

end ServiceOrder
