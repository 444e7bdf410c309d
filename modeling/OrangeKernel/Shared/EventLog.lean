import Mathlib.Data.List.Basic

set_option autoImplicit false

namespace EventLog

variable {E : Type}

theorem snoc_split {log before after : List E} {last x : E} (split : log ++ [last] = before ++ x :: after) :
    (before = log ∧ x = last ∧ after = []) ∨ ∃ rest, after = rest ++ [last] ∧ log = before ++ x :: rest := by
  obtain rfl | ⟨rest, final, rfl⟩ := List.eq_nil_or_concat after
  · left
    obtain ⟨rfl, same⟩ := List.append_inj' split rfl
    exact ⟨rfl, by simpa using same.symm, rfl⟩
  · right
    have shape : log ++ [last] = (before ++ x :: rest) ++ [final] := by simpa using split
    obtain ⟨rfl, same⟩ := List.append_inj' shape rfl
    obtain rfl : last = final := by simpa using same
    exact ⟨rest, by simp, rfl⟩

theorem forall_split_snoc {P : List E → E → List E → Prop} {log : List E} {last : E}
    (old : ∀ before x after, log = before ++ x :: after → P before x after)
    (keeps : ∀ before x after, log = before ++ x :: after → P before x after → P before x (after ++ [last]))
    (new : P log last []) : ∀ before x after, log ++ [last] = before ++ x :: after → P before x after := by
  intro before x after split
  obtain ⟨rfl, rfl, rfl⟩ | ⟨rest, rfl, older⟩ := snoc_split split
  · exact new
  · exact keeps before x rest older (old before x rest older)

end EventLog
