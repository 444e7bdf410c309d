import OrangeKernel.Shared.LinkedList

set_option autoImplicit false

namespace Intrusive

open Function

variable {A : Type}

structure Stack (next : A → Option A) (head : Option A) (xs : List A) : Prop where
  chain : Chain next none xs
  first : head = xs.head?

structure Fifo (next : A → Option A) (head tail : Option A) (xs : List A) : Prop where
  chain : Chain next none xs
  first : head = xs.head?
  last : tail = xs.getLast?

variable {next : A → Option A} {xs : List A}

theorem Stack.nodup {head : Option A} (stack : Stack next head xs) : xs.Nodup :=
  chain_nodup stack.chain

theorem Stack.unique {head : Option A} {ys : List A} (left : Stack next head xs)
    (right : Stack next head ys) : xs = ys :=
  chain_suffix_unique left.chain right.chain (left.first.symm.trans right.first)

variable {l r : List A} {x : A}

theorem Stack.next_eq {head : Option A}
    (stack : Stack next head (l ++ x :: r)) : next x = r.head? := by
  simpa using (chain_append.mp stack.chain).2.1

theorem Stack.pop {head : Option A} (stack : Stack next head (x :: xs)) :
    Stack next (next x) xs :=
  ⟨stack.chain.2, by simpa using stack.chain.1⟩

variable {tail : Option A}

theorem Fifo.stack {head : Option A} (fifo : Fifo next head tail xs) :
    Stack next head xs :=
  ⟨fifo.chain, fifo.first⟩

variable [DecidableEq A]

theorem Stack.push {head : Option A} (stack : Stack next head xs)
    (absent : x ∉ xs) : Stack (update next x head) (some x) (x :: xs) := by
  refine ⟨?_, rfl⟩
  rw [stack.first]
  exact chain_cons absent stack.chain

theorem Stack.forget {head : Option A} (stack : Stack next head xs)
    (absent : x ∉ xs) (target : Option A) : Stack (update next x target) head xs :=
  ⟨chain_update_absent absent stack.chain, stack.first⟩

theorem Stack.remove {head : Option A}
    (stack : Stack next head (l ++ x :: r)) :
    Stack (update (setAt next l.getLast? (next x)) x none)
      (if l.getLast? = none then next x else head) (l ++ r) := by
  refine ⟨?_, ?_⟩
  · rw [stack.next_eq]
    exact chain_remove stack.chain
  · rw [stack.next_eq]
    cases l with
    | nil => simp
    | cons y l => simp [stack.first, List.getLast?_cons]

theorem Stack.insert {head : Option A} (stack : Stack next head (l ++ r))
    (absent : x ∉ l ++ r) :
    Stack (setAt (update next x r.head?) l.getLast? (some x)) (if l.getLast? = none then some x else head)
      (l ++ x :: r) := by
  have distinct := chain_nodup stack.chain
  have fresh : Chain (update next x r.head?) none (l ++ r) := chain_update_absent absent stack.chain
  obtain ⟨first, rest⟩ := chain_append.mp fresh
  have inLeft : ∀ y, l.getLast? = some y → y ∈ l := fun y last => List.mem_of_getLast? last
  refine ⟨chain_append.mpr ⟨?_, ?_, ?_⟩, ?_⟩
  · exact chain_retarget first (List.Nodup.of_append_left distinct)
  · rw [setAt_ne fun last => absent (List.mem_append_left _ (inLeft x last))]
    simp
  · refine chain_congr (fun y member => setAt_ne fun last => ?_) rest
    exact List.disjoint_of_nodup_append distinct (inLeft y last) member
  · cases l with
    | nil => simp
    | cons y l => simp [stack.first, List.getLast?_cons]

theorem Fifo.push {head : Option A} (fifo : Fifo next head tail xs)
    (absent : x ∉ xs) :
    Fifo (setAt (update next x none) tail (some x)) (if tail = none then some x else head) (some x)
      (xs ++ [x]) := by
  refine ⟨?_, ?_, by simp⟩
  · rw [fifo.last]
    exact chain_snoc absent fifo.chain
  · rw [fifo.last, fifo.first]
    cases xs with
    | nil => simp
    | cons y xs => simp [List.getLast?_cons]

theorem Fifo.pop {head : Option A}
    (fifo : Fifo next head tail (x :: xs)) :
    Fifo (update next x none) (next x) (if next x = none then none else tail) xs := by
  have link : next x = xs.head? := by simpa using fifo.chain.1
  have absent := (List.nodup_cons.mp (chain_nodup fifo.chain)).1
  refine ⟨chain_update_absent absent fifo.chain.2, link, ?_⟩
  rw [link, fifo.last]
  cases xs with
  | nil => simp
  | cons y ys => simp [List.getLast?_cons_cons]

theorem Fifo.remove {head : Option A}
    (fifo : Fifo next head tail (l ++ x :: r)) :
    Fifo (update (setAt next l.getLast? (next x)) x none) (if l.getLast? = none then next x else head)
      (if tail = some x then l.getLast? else tail) (l ++ r) := by
  have removed := fifo.stack.remove
  refine ⟨removed.chain, removed.first, ?_⟩
  rw [fifo.last]
  cases r with
  | nil => simp
  | cons y r =>
    have distinct := chain_nodup fifo.chain
    have inner : (y :: r).getLast? ≠ some x := by
      intro last
      have member := List.mem_of_getLast? last
      have moved := List.nodup_middle.mp distinct
      exact (List.nodup_cons.mp moved).1 (List.mem_append_right _ member)
    have same : (l ++ x :: y :: r).getLast? = (l ++ y :: r).getLast? := by
      simp [List.getLast?_append, List.getLast?_cons_cons]
    have last : (l ++ y :: r).getLast? = (y :: r).getLast? := by
      rw [List.getLast?_append]
      cases found : (y :: r).getLast? with
      | none => simp at found
      | some z => rfl
    rw [same, if_neg (by rw [last]; exact inner)]

structure Family {B : Type} (links : Links A) (head : B → Option A) (lists : B → List A) : Prop where
  holds : ∀ b, links.Holds (lists b)
  apart : ∀ b c, b ≠ c → (lists b).Disjoint (lists c)
  first : ∀ b, head b = (lists b).head?

section Family

variable {B : Type} [DecidableEq B] {links : Links A} {head : B → Option A} {lists : B → List A}

omit [DecidableEq A] in
theorem Family.replace {links' : Links A} {head' : B → Option A} (family : Family links head lists)
    (b : B) (xs : List A)
    (holds : links'.Holds xs) (first : head' b = xs.head?) (others : ∀ c, c ≠ b → links'.Holds (lists c))
    (heads : ∀ c, c ≠ b → head' c = head c) (disjoint : ∀ c, c ≠ b → xs.Disjoint (lists c)) :
    Family links' head' (update lists b xs) := by
  refine ⟨fun c => ?_, fun c d other => ?_, fun c => ?_⟩
  · by_cases here : c = b
    · subst here
      simpa using holds
    · simpa [here] using others c here
  · by_cases left : c = b
    · subst left
      simpa [other.symm] using disjoint d other.symm
    · by_cases right : d = b
      · subst right
        simpa [left] using List.disjoint_comm.mp (disjoint c left)
      · simpa [left, right] using family.apart c d other
  · by_cases here : c = b
    · subst here
      simpa using first
    · simpa [here, heads c here] using family.first c

theorem Family.pushFront (family : Family links head lists) (b : B) (absent : ∀ c, x ∉ lists c) :
    Family (links.pushFront (head b) x) (update head b (some x)) (update lists b (x :: lists b)) := by
  rw [family.first b]
  refine family.replace b _ (Links.holds_pushFront (family.holds b) (absent b)) (by simp) (fun c other => ?_)
    (fun c other => by simp [other]) (fun c other => ?_)
  · exact Links.holds_pushFront_other (family.apart b c other.symm) (absent c) (family.holds c)
  · exact List.disjoint_cons_left.mpr ⟨absent c, family.apart b c other.symm⟩

theorem Family.pushBack (family : Family links head lists) (b : B) (absent : ∀ c, x ∉ lists c) :
    Family (links.pushBack (lists b).getLast? x)
      (if (lists b).getLast? = none then update head b (some x) else head)
      (update lists b (lists b ++ [x])) := by
  refine family.replace b _ (Links.holds_pushBack (family.holds b) (absent b)) ?_ (fun c other => ?_)
    (fun c other => ?_) (fun c other => ?_)
  · cases empty : lists b with
    | nil => simp
    | cons y ys => simp [family.first b, empty]
  · exact Links.holds_pushBack_other (family.apart b c other.symm) (absent c) (family.holds c)
  · split <;> simp [other]
  · refine List.disjoint_append_left.mpr ⟨family.apart b c other.symm, ?_⟩
    simpa using absent c

omit [DecidableEq B] in
theorem Family.around (family : Family links head lists) {b : B} (member : x ∈ lists b) :
    ∃ l r, lists b = l ++ x :: r ∧ (lists b).erase x = l ++ r ∧ links.next x = r.head? ∧
      links.prev x = l.getLast? := by
  obtain ⟨l, r, whole⟩ := List.append_of_mem member
  have holds := family.holds b
  rw [whole] at holds ⊢
  have before : x ∉ l := fun inLeft =>
    (List.nodup_cons.mp (List.nodup_middle.mp holds.nodup)).1 (List.mem_append_left _ inLeft)
  refine ⟨l, r, rfl, ?_, holds.at_middle⟩
  rw [List.erase_append_right _ before, List.erase_cons_head]

theorem Family.unlink (family : Family links head lists) {b : B} (member : x ∈ lists b) :
    Family (links.unlink x) (if links.prev x = none then update head b (links.next x) else head)
      (update lists b ((lists b).erase x)) := by
  obtain ⟨l, r, whole, erased, nextAt, prevAt⟩ := family.around member
  have holds := family.holds b
  rw [whole] at holds
  refine family.replace b _ (erased ▸ Links.holds_unlink holds) ?_ (fun c other => ?_) (fun c other => ?_)
    (fun c other => ?_)
  · rw [erased, nextAt, prevAt]
    cases l with
    | nil => simp
    | cons y l => simp [family.first b, whole, List.getLast?_cons]
  · exact Links.holds_unlink_other holds (whole ▸ family.apart b c other.symm) (family.holds c)
  · split <;> simp [other]
  · exact fun y inErased => family.apart b c other.symm (List.mem_of_mem_erase inErased)

theorem Family.unlink_last (family : Family links head lists) {tail : B → Option A}
    (last : ∀ c, tail c = (lists c).getLast?) {b : B} (member : x ∈ lists b) (c : B) :
    (if links.next x = none then update tail b (links.prev x) else tail) c =
      (update lists b ((lists b).erase x) c).getLast? := by
  by_cases here : c = b
  · subst here
    obtain ⟨l, r, whole, erased, nextAt, prevAt⟩ := family.around member
    rw [nextAt, prevAt, update_self, erased]
    cases r with
    | nil => simp
    | cons y r => simp [last c, whole, List.getLast?_append, List.getLast?_cons_cons]
  · split <;> simp [here, last c]

end Family

end Intrusive
