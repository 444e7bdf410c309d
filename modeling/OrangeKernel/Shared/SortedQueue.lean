import Mathlib.Data.List.TakeWhile
import Mathlib.Order.Lattice

set_option autoImplicit false

namespace SortedQueue

variable {A K : Type} [LinearOrder K]

def Sorted (key : A → K) (xs : List A) : Prop := xs.Pairwise fun x y => key x ≤ key y

def earlier (key : A → K) (k : K) (xs : List A) : List A := xs.takeWhile fun y => key y ≤ k

def later (key : A → K) (k : K) (xs : List A) : List A := xs.dropWhile fun y => key y ≤ k

theorem earlier_append_later (key : A → K) (k : K) (xs : List A) : earlier key k xs ++ later key k xs = xs :=
  List.takeWhile_append_dropWhile

variable {key : A → K} {xs : List A}

theorem Sorted.head_le {x : A} (sorted : Sorted key (x :: xs)) : ∀ y ∈ x :: xs, key x ≤ key y := by
  intro y member
  rcases List.mem_cons.mp member with rfl | behind
  · exact le_refl _
  · exact (List.pairwise_cons.mp sorted).1 y behind

theorem Sorted.later_lt (sorted : Sorted key xs) (k : K) : ∀ y ∈ later key k xs, k < key y := by
  induction xs with
  | nil => simp [later]
  | cons x xs ih =>
    intro y member
    by_cases small : key x ≤ k
    · have rest : later key k (x :: xs) = later key k xs := List.dropWhile_cons_of_pos (by simpa using small)
      rw [rest] at member
      exact ih (List.pairwise_cons.mp sorted).2 y member
    · have whole : later key k (x :: xs) = x :: xs := List.dropWhile_cons_of_neg (by simpa using small)
      rw [whole] at member
      exact lt_of_lt_of_le (lt_of_not_ge small) (sorted.head_le y member)

theorem Sorted.insert (sorted : Sorted key xs) (x : A) :
    Sorted key (earlier key (key x) xs ++ x :: later key (key x) xs) := by
  have whole := sorted
  rw [Sorted, ← earlier_append_later key (key x) xs] at whole
  obtain ⟨front, back, across⟩ := List.pairwise_append.mp whole
  refine List.pairwise_append.mpr ⟨front, List.pairwise_cons.mpr ⟨?_, back⟩, ?_⟩
  · exact fun y member => le_of_lt (sorted.later_lt (key x) y member)
  · intro y member z behind
    rcases List.mem_cons.mp behind with rfl | behind
    · simpa using List.mem_takeWhile_imp member
    · exact across y member z behind

theorem Sorted.congr {key' : A → K} (sorted : Sorted key xs) (same : ∀ x ∈ xs, key' x = key x) :
    Sorted key' xs := by
  refine List.Pairwise.imp_of_mem (fun {x y} inX inY le => ?_) sorted
  rw [same x inX, same y inY]
  exact le

def Stable (key : A → K) (order xs : List A) : Prop :=
  xs.Pairwise fun x y => key x < key y ∨ key x = key y ∧ [x, y].Sublist order

variable {order : List A}

theorem Stable.sorted (stable : Stable key order xs) : Sorted key xs :=
  List.Pairwise.imp (fun ordered => ordered.elim le_of_lt fun same => le_of_eq same.1) stable

theorem Stable.insert (stable : Stable key order xs) (came : ∀ y ∈ xs, y ∈ order) (x : A) :
    Stable key (order ++ [x]) (earlier key (key x) xs ++ x :: later key (key x) xs) := by
  have longer : Stable key (order ++ [x]) xs :=
    List.Pairwise.imp (Or.imp_right (And.imp_right fun sub => sub.trans (List.sublist_append_left _ _))) stable
  rw [Stable, ← earlier_append_later key (key x) xs] at longer
  obtain ⟨front, back, across⟩ := List.pairwise_append.mp longer
  refine List.pairwise_append.mpr ⟨front, List.pairwise_cons.mpr ⟨?_, back⟩, ?_⟩
  · exact fun y member => Or.inl (stable.sorted.later_lt (key x) y member)
  · intro y member z behind
    rcases List.mem_cons.mp behind with rfl | behind
    · have small : key y ≤ key z := by simpa using List.mem_takeWhile_imp member
      have older : y ∈ order := came y ((List.takeWhile_sublist _).subset member)
      refine small.lt_or_eq.imp_right fun same => ⟨same, ?_⟩
      exact (List.singleton_sublist.mpr older).append (List.Sublist.refl [z])
    · exact across y member z behind

theorem Stable.tail [DecidableEq A] {order xs : List A} {x : A} (stable : Stable key order (x :: xs))
    (absent : x ∉ xs) :
    Stable key (order.erase x) xs := by
  refine List.Pairwise.imp_of_mem (fun {y z} inY inZ ordered => ?_) (List.pairwise_cons.mp stable).2
  refine ordered.imp_right fun both => ⟨both.1, ?_⟩
  have left := both.2.erase x
  rwa [List.erase_of_not_mem] at left
  rintro mem
  rcases List.mem_cons.mp mem with rfl | mem
  · exact absent inY
  · exact absent (List.mem_singleton.mp mem ▸ inZ)

theorem Stable.congr {key' : A → K} (stable : Stable key order xs)
    (same : ∀ x ∈ xs, key' x = key x) : Stable key' order xs := by
  refine List.Pairwise.imp_of_mem (fun {x y} inX inY ordered => ?_) stable
  rw [same x inX, same y inY]
  exact ordered

end SortedQueue
