import Mathlib.Data.List.Basic
import Mathlib.Logic.Function.Basic

set_option autoImplicit false

namespace Lifecycle

variable {N S H : Type} [DecidableEq N]

structure Record (N H : Type) where
  owner : N → Option Nat
  lives : Nat
  log : List (Option Nat × H)

def noLives : Record N H :=
  { owner := fun _ => none
    lives := 0
    log := [] }

def Record.take (n : N) (r : Record N H) : Record N H :=
  { r with
    owner := Function.update r.owner n (some r.lives)
    lives := r.lives + 1 }

def Record.note (n : N) (h : H) (r : Record N H) : Record N H := { r with log := r.log ++ [(r.owner n, h)] }

def Record.giveBack (n : N) (h : H) (r : Record N H) : Record N H :=
  { r.note n h with owner := Function.update r.owner n none }

def past (k : Nat) (log : List (Option Nat × H)) : List H :=
  log.filterMap fun entry => if entry.1 = some k then some entry.2 else none

theorem past_snoc (k : Nat) (log : List (Option Nat × H)) (who : Option Nat) (h : H) :
    past k (log ++ [(who, h)]) = past k log ++ if who = some k then [h] else [] := by
  by_cases here : who = some k <;> simp [past, here]

theorem past_unknown {k : Nat} {log : List (Option Nat × H)} (others : ∀ entry ∈ log, entry.1 ≠ some k) :
    past k log = [] := by
  simp only [past, List.filterMap_eq_nil_iff, ite_eq_right_iff, reduceCtorEq]
  exact fun entry member same => others entry member same

structure Tracked (story : Nat → S → List H) (ended : Nat → List H → Prop) (r : Record N H)
    (place : N → Option S) :
    Prop where
  live : ∀ n, (r.owner n).isSome = (place n).isSome
  known : ∀ n k, r.owner n = some k → k < r.lives
  distinct : ∀ n m k, r.owner n = some k → r.owner m = some k → n = m
  told : ∀ n k a, r.owner n = some k → place n = some a → past k r.log = story k a
  ended : ∀ k, k < r.lives → (∀ n, r.owner n ≠ some k) → ended k (past k r.log)
  named : ∀ entry ∈ r.log, ∃ k, entry.1 = some k ∧ k < r.lives

omit [DecidableEq N] in
theorem tracked_noLives (story : Nat → S → List H) (ended : Nat → List H → Prop) :
    Tracked story ended (noLives : Record N H) (fun _ => none) where
  live _ := rfl
  known _ _ owns := by cases owns
  distinct _ _ _ owns := by cases owns
  told _ _ _ owns := by cases owns
  ended _ below := by cases below
  named _ member := by cases member

section Steps

variable {story : Nat → S → List H} {ended : Nat → List H → Prop} {r : Record N H} {place : N → Option S}
  (tracked : Tracked story ended r place)
include tracked

omit [DecidableEq N] in
theorem Tracked.owner {n : N} {a : S} (stands : place n = some a) : ∃ k, r.owner n = some k := by
  have live := tracked.live n
  rw [stands] at live
  exact Option.isSome_iff_exists.mp live

omit [DecidableEq N] in
theorem Tracked.absent {n : N} (free : r.owner n = none) : place n = none := by
  have live := tracked.live n
  rw [free] at live
  simpa using live.symm

theorem Tracked.take {n : N} (free : r.owner n = none) (a : S) {story' : Nat → S → List H}
    {ended' : Nat → List H → Prop} (stories : ∀ k, k < r.lives → story' k = story k)
    (same : ∀ k, k < r.lives → ended' k = ended k) (fresh : story' r.lives a = []) :
    Tracked story' ended' (r.take n) (Function.update place n (some a)) := by
  have owners : ∀ m k, (r.take n).owner m = some k → m = n ∧ k = r.lives ∨ m ≠ n ∧ r.owner m = some k := by
    intro m k owns
    by_cases here : m = n
    · subst here
      exact Or.inl ⟨rfl, by simpa [Record.take, eq_comm] using owns⟩
    · exact Or.inr ⟨here, by simpa [Record.take, here] using owns⟩
  constructor
  · intro m
    by_cases here : m = n
    · simp [Record.take, here]
    · simpa [Record.take, here] using tracked.live m
  · intro m k owns
    rcases owners m k owns with ⟨-, rfl⟩ | ⟨-, old⟩
    · exact Nat.lt_succ_self _
    · exact Nat.lt_succ_of_lt (tracked.known m k old)
  · intro m m' k owns owns'
    rcases owners m k owns with ⟨rfl, rfl⟩ | ⟨-, old⟩ <;>
      rcases owners m' _ owns' with ⟨rfl, new⟩ | ⟨-, old'⟩
    · rfl
    · exact absurd (tracked.known m' _ old') (Nat.lt_irrefl _)
    · exact absurd (new ▸ tracked.known m k old) (Nat.lt_irrefl _)
    · exact tracked.distinct m m' k old old'
  · intro m k b owns stands
    rcases owners m k owns with ⟨rfl, rfl⟩ | ⟨other, old⟩
    · obtain rfl : a = b := by simpa using stands
      rw [fresh]
      refine past_unknown fun entry member same => ?_
      obtain ⟨k, name, below⟩ := tracked.named entry member
      rw [same] at name
      cases name
      exact absurd below (Nat.lt_irrefl _)
    · rw [stories k (tracked.known m k old)]
      exact tracked.told m k b old (by simpa [other] using stands)
  · intro k below gone
    have notNew : k ≠ r.lives := fun same => gone n (by simp [Record.take, same])
    have older : k < r.lives := Nat.lt_of_le_of_ne (Nat.le_of_lt_succ below) notNew
    rw [same k older]
    refine tracked.ended k older fun m owns => ?_
    have other : m ≠ n := fun same => by simp [same, free] at owns
    exact gone m (by simpa [Record.take, other] using owns)
  · intro entry member
    obtain ⟨k, name, below⟩ := tracked.named entry member
    exact ⟨k, name, Nat.lt_succ_of_lt below⟩

omit [DecidableEq N] in
theorem Tracked.move {place' : N → Option S} (live : ∀ n, (place' n).isSome = (place n).isSome)
    (same : ∀ n k a b, r.owner n = some k → place n = some a → place' n = some b → story k b = story k a) :
    Tracked story ended r place' :=
  { tracked with
    live := fun n => (tracked.live n).trans (live n).symm
    told := fun n k b owns stands => by
      have before := live n
      rw [stands] at before
      obtain ⟨a, stood⟩ := Option.isSome_iff_exists.mp before.symm
      rw [same n k a b owns stood stands]
      exact tracked.told n k a owns stood }

theorem Tracked.note {n : N} {k : Nat} {a b : S} (owns : r.owner n = some k) (stands : place n = some a) (h : H)
    (next : story k b = story k a ++ [h]) :
    Tracked story ended (r.note n h) (Function.update place n (some b)) := by
  have others : ∀ m j, m ≠ n → r.owner m = some j → j ≠ k := fun m j other owned same =>
    other (tracked.distinct m n k (same ▸ owned) owns)
  constructor
  · intro m
    by_cases here : m = n
    · simp [Record.note, here, owns]
    · simpa [Record.note, here] using tracked.live m
  · exact tracked.known
  · exact tracked.distinct
  · intro m j c owned stood
    have owned : r.owner m = some j := owned
    simp only [Record.note, past_snoc, owns]
    by_cases here : m = n
    · subst here
      obtain rfl : k = j := Option.some.inj (owns.symm.trans owned)
      obtain rfl : b = c := by simpa using stood
      rw [if_pos rfl, next, tracked.told m k a owns stands]
    · have different := others m j here owned
      rw [if_neg (by simpa [eq_comm] using different), List.append_nil]
      exact tracked.told m j c owned (by simpa [here] using stood)
  · intro j below gone
    have gone : ∀ m, r.owner m ≠ some j := gone
    have different : k ≠ j := fun same => gone n (same ▸ owns)
    simp only [Record.note, past_snoc, owns, Option.some.injEq, if_neg different, List.append_nil]
    exact tracked.ended j below gone
  · intro entry member
    rcases List.mem_append.mp member with old | new
    · exact tracked.named entry old
    · obtain rfl := List.mem_singleton.mp new
      exact ⟨k, owns, tracked.known n k owns⟩

theorem Tracked.giveBack {n : N} {k : Nat} {a : S} (owns : r.owner n = some k) (stands : place n = some a) (h : H)
    (complete : ended k (story k a ++ [h])) :
    Tracked story ended (r.giveBack n h) (Function.update place n none) := by
  have owners : ∀ m j, (r.giveBack n h).owner m = some j → m ≠ n ∧ r.owner m = some j := by
    intro m j owned
    by_cases here : m = n
    · simp [Record.giveBack, here] at owned
    · exact ⟨here, by simpa [Record.giveBack, here] using owned⟩
  have told := tracked.told n k a owns stands
  constructor
  · intro m
    by_cases here : m = n
    · simp [Record.giveBack, here]
    · simpa [Record.giveBack, here] using tracked.live m
  · exact fun m j owned => tracked.known m j (owners m j owned).2
  · exact fun m m' j owned owned' => tracked.distinct m m' j (owners m j owned).2 (owners m' j owned').2
  · intro m j c owned stood
    obtain ⟨here, old⟩ := owners m j owned
    have different : k ≠ j := fun same => here (tracked.distinct m n k (same ▸ old) owns)
    simp only [Record.giveBack, Record.note, past_snoc, owns, Option.some.injEq, if_neg different, List.append_nil]
    exact tracked.told m j c old (by simpa [here] using stood)
  · intro j below gone
    simp only [Record.giveBack, Record.note, past_snoc, owns, Option.some.injEq]
    by_cases here : k = j
    · subst here
      rw [if_pos rfl, told]
      exact complete
    · rw [if_neg here, List.append_nil]
      refine tracked.ended j below fun m owned => ?_
      have other : m ≠ n := fun same => here (Option.some.inj (owns.symm.trans (same ▸ owned)))
      exact gone m (by simpa [Record.giveBack, other] using owned)
  · intro entry member
    rcases List.mem_append.mp member with old | new
    · exact tracked.named entry old
    · obtain rfl := List.mem_singleton.mp new
      exact ⟨k, owns, tracked.known n k owns⟩

end Steps

end Lifecycle
