import Mathlib.Data.Nat.ModEq

set_option autoImplicit false

namespace CircularWindow

variable {A : Type}

def window (cells : Nat → A) (capacity start count : Nat) : List A :=
  (List.range count).map fun i => cells ((start + i) % capacity)

theorem length_window (cells : Nat → A) (capacity start count : Nat) :
    (window cells capacity start count).length = count := by
  simp [window]

variable {capacity : Nat}

theorem window_congr {cells cells' : Nat → A} (positive : 0 < capacity)
    (agree : ∀ i < capacity, cells i = cells' i) (start count : Nat) :
    window cells capacity start count = window cells' capacity start count :=
  List.map_congr_left fun _ _ => agree _ (Nat.mod_lt _ positive)

theorem place_ne {start i j : Nat} (before : i < j) (within : j < capacity) :
    (start + i) % capacity ≠ (start + j) % capacity := by
  intro same
  have shifted : i ≡ j [MOD capacity] := Nat.ModEq.add_left_cancel' start same
  have equal := Nat.ModEq.eq_of_lt_of_lt shifted (by omega) within
  omega

theorem window_push (cells : Nat → A) {start count : Nat} (room : count < capacity) (x : A) :
    window (Function.update cells ((start + count) % capacity) x) capacity start (count + 1) =
      window cells capacity start count ++ [x] := by
  unfold window
  rw [List.range_succ, List.map_append]
  congr 1
  · refine List.map_congr_left fun i member => ?_
    exact Function.update_of_ne (place_ne (List.mem_range.mp member) room) _ _
  · simp

theorem window_pop (cells : Nat → A) (capacity start count : Nat) :
    window cells capacity start (count + 1) =
      cells (start % capacity) :: window cells capacity ((start + 1) % capacity) count := by
  unfold window
  rw [List.range_succ_eq_map, List.map_cons, List.map_map]
  congr 1
  refine List.map_congr_left fun i _ => ?_
  simp only [Function.comp_apply, Nat.mod_add_mod]
  congr 2
  omega

end CircularWindow
