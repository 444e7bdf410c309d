import Mathlib.Algebra.Group.Nat.Defs
import Mathlib.Data.List.Nodup
import Mathlib.Data.List.Perm.Subperm
import Mathlib.Logic.Function.Basic

set_option autoImplicit false

namespace Intrusive

open Function

variable {A : Type}

-- The last node points to `after`.
def Chain (next : A → Option A) (after : Option A) : List A → Prop
  | [] => True
  | x :: xs => next x = xs.head?.or after ∧ Chain next after xs

theorem chain_congr {next next' : A → Option A} {after : Option A} {xs : List A}
    (agree : ∀ x ∈ xs, next' x = next x) (chain : Chain next after xs) : Chain next' after xs := by
  induction xs with
  | nil => trivial
  | cons x xs ih =>
    refine ⟨?_, ih (fun y member => agree y (List.mem_cons_of_mem _ member)) chain.2⟩
    rw [agree x List.mem_cons_self]
    exact chain.1

theorem chain_append {next : A → Option A} {after : Option A} {l r : List A} :
    Chain next after (l ++ r) ↔ Chain next (r.head?.or after) l ∧ Chain next after r := by
  induction l with
  | nil => simp [Chain]
  | cons x l ih =>
    simp only [List.cons_append, Chain, ih, List.head?_append, Option.or_assoc, and_assoc]

theorem chain_suffix_unique {next : A → Option A} {xs ys : List A}
    (left : Chain next none xs) (right : Chain next none ys) (heads : xs.head? = ys.head?) :
    xs = ys := by
  induction xs generalizing ys with
  | nil =>
    cases ys with
    | nil => rfl
    | cons y ys => simp at heads
  | cons x xs ih =>
    cases ys with
    | nil => simp at heads
    | cons y ys =>
      obtain rfl : x = y := by simpa using heads
      have tails : xs.head? = ys.head? := by
        simpa using left.1.symm.trans right.1
      rw [ih left.2 right.2 tails]

theorem chain_nodup {next : A → Option A} {xs : List A} (chain : Chain next none xs) :
    xs.Nodup := by
  induction xs with
  | nil => exact List.nodup_nil
  | cons x xs ih =>
    refine List.nodup_cons.mpr ⟨fun member => ?_, ih chain.2⟩
    obtain ⟨l, r, split⟩ := List.append_of_mem member
    have inner : Chain next none (x :: r) := by
      have tail := chain.2
      rw [split] at tail
      exact (chain_append.mp tail).2
    have same := chain_suffix_unique chain inner rfl
    have lengths := congrArg List.length same
    rw [split] at lengths
    simp at lengths
    omega

theorem walk_induction {motive : (fuel : Nat) → (xs : List A) → xs.length < fuel → Prop}
    (nil : ∀ fuel, motive (fuel + 1) [] (Nat.succ_pos fuel))
    (cons : ∀ fuel x xs (enough : xs.length < fuel), motive fuel xs enough →
      motive (fuel + 1) (x :: xs) (Nat.succ_lt_succ enough))
    (fuel : Nat) (xs : List A) (enough : xs.length < fuel) : motive fuel xs enough := by
  induction xs generalizing fuel with
  | nil =>
    cases fuel with
    | zero => exact absurd enough (Nat.not_lt_zero _)
    | succ fuel => exact nil fuel
  | cons x xs ih =>
    cases fuel with
    | zero => exact absurd enough (Nat.not_lt_zero _)
    | succ fuel => exact cons fuel x xs _ (ih fuel (Nat.lt_of_succ_lt_succ enough))

theorem length_le_of_nodup {xs : List UInt64} (nodup : xs.Nodup) : xs.length ≤ 2 ^ 64 := by
  have distinct : (xs.map UInt64.toNat).Nodup := nodup.map fun _ _ => UInt64.toNat_inj.mp
  have inside : xs.map UInt64.toNat ⊆ List.range (2 ^ 64) := by
    intro n member
    obtain ⟨x, -, rfl⟩ := List.mem_map.mp member
    exact List.mem_range.mpr x.toNat_lt
  have length := (distinct.subperm inside).length_le
  rw [List.length_map, List.length_range] at length
  exact length

variable [DecidableEq A]

def setAt (link : A → Option A) (node target : Option A) : A → Option A :=
  match node with
  | none => link
  | some n => update link n target

theorem setAt_ne {link : A → Option A} {node target : Option A} {x : A} (other : node ≠ some x) :
    setAt link node target x = link x := by
  cases node with
  | none => rfl
  | some n =>
    have different : x ≠ n := fun same => other (by rw [same])
    simp [setAt, different]

theorem chain_retarget {next : A → Option A} {after target : Option A} {xs : List A}
    (chain : Chain next after xs) (distinct : xs.Nodup) :
    Chain (setAt next xs.getLast? target) target xs := by
  induction xs with
  | nil => trivial
  | cons x xs ih =>
    cases xs with
    | nil => simp [Chain, setAt]
    | cons y ys =>
      have fresh := (List.nodup_cons.mp distinct).1
      have tail := ih chain.2 (List.nodup_cons.mp distinct).2
      refine ⟨?_, by simpa using tail⟩
      have other : (x :: y :: ys).getLast? ≠ some x := by
        intro last
        rw [List.getLast?_cons_cons] at last
        exact fresh (List.mem_of_getLast? last)
      rw [setAt_ne other]
      simpa using chain.1

theorem chain_update_absent {next : A → Option A} {after target : Option A} {xs : List A} {x : A}
    (absent : x ∉ xs) (chain : Chain next after xs) :
    Chain (update next x target) after xs := by
  apply chain_congr _ chain
  intro y member
  have different : y ≠ x := fun same => absent (same ▸ member)
  simp [different]

theorem chain_cons {next : A → Option A} {xs : List A} {x : A}
    (absent : x ∉ xs) (chain : Chain next none xs) :
    Chain (update next x xs.head?) none (x :: xs) :=
  ⟨by simp, chain_update_absent absent chain⟩

theorem chain_snoc {next : A → Option A} {xs : List A} {x : A}
    (absent : x ∉ xs) (chain : Chain next none xs) :
    Chain (setAt (update next x none) xs.getLast? (some x)) none (xs ++ [x]) := by
  refine chain_append.mpr ⟨?_, ?_, trivial⟩
  · exact chain_retarget (chain_update_absent absent chain) (chain_nodup chain)
  · have other : xs.getLast? ≠ some x := fun last => absent (List.mem_of_getLast? last)
    rw [setAt_ne other]
    simp

theorem chain_remove {next : A → Option A} {l r : List A} {x : A}
    (chain : Chain next none (l ++ x :: r)) :
    Chain (update (setAt next l.getLast? r.head?) x none) none (l ++ r) := by
  have distinct := chain_nodup chain
  obtain ⟨first, -, rest⟩ := chain_append.mp chain
  have apart := List.disjoint_of_nodup_append distinct
  have absent : x ∉ l ++ r := by
    have moved := List.nodup_middle.mp distinct
    exact (List.nodup_cons.mp moved).1
  apply chain_update_absent absent
  refine chain_append.mpr ⟨?_, ?_⟩
  · simpa using chain_retarget first (List.Nodup.of_append_left distinct)
  · apply chain_congr _ rest
    intro y member
    apply setAt_ne
    intro last
    exact apart (List.mem_of_getLast? last) (List.mem_cons_of_mem _ member)

@[ext] structure Links (A : Type) where
  next : A → Option A
  prev : A → Option A

def Links.Holds (links : Links A) (xs : List A) : Prop :=
  Chain links.next none xs ∧ Chain links.prev none xs.reverse

def Links.flip (links : Links A) : Links A :=
  { next := links.prev, prev := links.next }

def Links.pushFront (links : Links A) (head : Option A) (x : A) : Links A :=
  { next := update links.next x head
    prev := setAt (update links.prev x none) head (some x) }

def Links.pushBack (links : Links A) (tail : Option A) (x : A) : Links A :=
  { next := setAt (update links.next x none) tail (some x)
    prev := update links.prev x tail }

def Links.unlink (links : Links A) (x : A) : Links A :=
  { next := update (setAt links.next (links.prev x) (links.next x)) x none
    prev := update (setAt links.prev (links.next x) (links.prev x)) x none }

omit [DecidableEq A] in
theorem Links.holds_flip {links : Links A} {xs : List A} :
    links.flip.Holds xs.reverse ↔ links.Holds xs := by
  simp [Links.Holds, Links.flip, and_comm]

omit [DecidableEq A] in
theorem Links.Holds.nodup {links : Links A} {xs : List A} (holds : links.Holds xs) : xs.Nodup :=
  chain_nodup holds.1

omit [DecidableEq A] in
theorem Links.holds_congr {links links' : Links A} {xs : List A}
    (nextAgree : ∀ x ∈ xs, links'.next x = links.next x)
    (prevAgree : ∀ x ∈ xs, links'.prev x = links.prev x) (holds : links.Holds xs) :
    links'.Holds xs :=
  ⟨chain_congr nextAgree holds.1,
    chain_congr (fun x member => prevAgree x (List.mem_reverse.mp member)) holds.2⟩

theorem Links.holds_pushFront {links : Links A} {xs : List A} {x : A}
    (holds : links.Holds xs) (absent : x ∉ xs) :
    (links.pushFront xs.head? x).Holds (x :: xs) := by
  refine ⟨chain_cons absent holds.1, ?_⟩
  have reversed := chain_snoc (x := x) (by simpa using absent) holds.2
  simpa [pushFront] using reversed

theorem Links.holds_pushBack {links : Links A} {xs : List A} {x : A}
    (holds : links.Holds xs) (absent : x ∉ xs) :
    (links.pushBack xs.getLast? x).Holds (xs ++ [x]) := by
  have flipped := holds_pushFront (x := x) (holds_flip.mpr holds) (by simpa using absent)
  rw [List.head?_reverse, ← List.reverse_concat] at flipped
  exact holds_flip.mp flipped

omit [DecidableEq A] in
theorem Links.Holds.at_middle {links : Links A} {l r : List A} {x : A}
    (holds : links.Holds (l ++ x :: r)) : links.next x = r.head? ∧ links.prev x = l.getLast? := by
  constructor
  · simpa using (chain_append.mp holds.1).2.1
  · have reversed := holds.2
    rw [List.reverse_append, List.reverse_cons, List.append_assoc] at reversed
    simpa using (chain_append.mp reversed).2.1

theorem Links.holds_unlink {links : Links A} {l r : List A} {x : A}
    (holds : links.Holds (l ++ x :: r)) : (links.unlink x).Holds (l ++ r) := by
  obtain ⟨nextAt, prevAt⟩ := holds.at_middle
  constructor
  · simp only [unlink, nextAt, prevAt]
    exact chain_remove holds.1
  · have reversed := holds.2
    rw [List.reverse_append, List.reverse_cons, List.append_assoc] at reversed
    have removed := chain_remove reversed
    simp only [unlink, nextAt, prevAt, List.reverse_append]
    simpa using removed

theorem Links.holds_pushFront_other {links : Links A} {xs ys : List A} {x : A}
    (apart : xs.Disjoint ys) (absent : x ∉ ys) (holds : links.Holds ys) :
    (links.pushFront xs.head? x).Holds ys := by
  refine ⟨chain_update_absent absent holds.1, ?_⟩
  have reversed : Chain (update links.prev x none) none ys.reverse :=
    chain_update_absent (by simpa using absent) holds.2
  apply chain_congr _ reversed
  intro y member
  apply setAt_ne
  intro head
  exact apart (List.mem_of_head? head) (List.mem_reverse.mp member)

theorem Links.holds_pushBack_other {links : Links A} {xs ys : List A} {x : A}
    (apart : xs.Disjoint ys) (absent : x ∉ ys) (holds : links.Holds ys) :
    (links.pushBack xs.getLast? x).Holds ys := by
  have reversed : xs.reverse.Disjoint ys.reverse := by
    simpa [List.Disjoint] using apart
  have flipped := holds_pushFront_other (x := x) reversed (by simpa using absent)
    (holds_flip.mpr holds)
  rw [List.head?_reverse] at flipped
  exact holds_flip.mp flipped

theorem Links.holds_unlink_other {links : Links A} {l r ys : List A} {x : A}
    (whole : links.Holds (l ++ x :: r)) (apart : (l ++ x :: r).Disjoint ys) (holds : links.Holds ys) :
    (links.unlink x).Holds ys := by
  obtain ⟨nextAt, prevAt⟩ := whole.at_middle
  have absent : x ∉ ys := fun member => apart (by simp) member
  refine ⟨chain_update_absent absent ?_, chain_update_absent (by simpa using absent) ?_⟩
  · apply chain_congr _ holds.1
    intro y member
    apply setAt_ne
    rw [prevAt]
    intro last
    exact apart (List.mem_append_left _ (List.mem_of_getLast? last)) member
  · apply chain_congr _ holds.2
    intro y member
    apply setAt_ne
    rw [nextAt]
    intro head
    exact apart (List.mem_append_right _ (List.mem_cons_of_mem _ (List.mem_of_head? head)))
      (List.mem_reverse.mp member)

end Intrusive
