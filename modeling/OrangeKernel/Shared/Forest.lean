set_option autoImplicit false

inductive Forest (N L : Type) where
  | nil
  | leaf (x : L) (rest : Forest N L)
  | node (x : N) (inner rest : Forest N L)

namespace Forest

variable {N L A R : Type}

def leaves : Forest N L → List L
  | .nil => []
  | .leaf x rest => x :: rest.leaves
  | .node _ _ rest => rest.leaves

def children : Forest N L → List (N × Forest N L)
  | .nil => []
  | .leaf _ rest => rest.children
  | .node x inner rest => (x, inner) :: rest.children

structure Place (N L : Type) where
  above : List N
  node : N
  inner : Forest N L

def places (above : List N) : Forest N L → List (Place N L)
  | .nil => []
  | .leaf _ rest => rest.places above
  | .node x inner rest => ⟨above, x, inner⟩ :: (inner.places (above ++ [x]) ++ rest.places above)

theorem places_inner {f : Forest N L} {above : List N} {place within : Place N L} (member : place ∈ f.places above)
    (inside : within ∈ place.inner.places (place.above ++ [place.node])) : within ∈ f.places above := by
  induction f generalizing above with
  | nil => cases member
  | leaf x rest ih => exact ih member
  | node x inner rest innerIh restIh =>
    rcases List.mem_cons.mp member with rfl | member
    · exact List.mem_cons_of_mem _ (List.mem_append_left _ inside)
    rcases List.mem_append.mp member with deeper | beside
    · exact List.mem_cons_of_mem _ (List.mem_append_left _ (innerIh deeper))
    · exact List.mem_cons_of_mem _ (List.mem_append_right _ (restIh beside))

def owned (owner : N) : Forest N L → List (N × L)
  | .nil => []
  | .leaf x rest => (owner, x) :: rest.owned owner
  | .node x inner rest => inner.owned x ++ rest.owned owner

theorem owned_place {f : Forest N L} {owner x : N} {leaf : L} (above : List N) (member : (x, leaf) ∈ f.owned owner) :
    (x = owner ∧ leaf ∈ f.leaves) ∨ ∃ place ∈ f.places above, place.node = x ∧
    leaf ∈ place.inner.leaves := by
  induction f generalizing owner above with
  | nil => cases member
  | leaf y rest ih =>
    rcases List.mem_cons.mp member with same | member
    · cases same
      exact Or.inl ⟨rfl, List.mem_cons_self⟩
    · exact (ih above member).imp_left fun own => ⟨own.1, List.mem_cons_of_mem _ own.2⟩
  | node y inner rest innerIh restIh =>
    rcases List.mem_append.mp member with deeper | beside
    · rcases innerIh (above ++ [y]) deeper with ⟨rfl, own⟩ | ⟨place, within, owns⟩
      · exact Or.inr ⟨⟨above, x, inner⟩, List.mem_cons_self, rfl, own⟩
      · exact Or.inr ⟨place, List.mem_cons_of_mem _ (List.mem_append_left _ within), owns⟩
    · refine (restIh above beside).imp_right ?_
      rintro ⟨place, within, owns⟩
      exact ⟨place, List.mem_cons_of_mem _ (List.mem_append_right _ within), owns⟩

-- The number says how many nodes are open outside.
structure Visitor (N L A R : Type) where
  enter : Nat → N → Forest N L → A → Except R A
  leave : Nat → A → Except R A
  leaf : Nat → L → A → Except R A

def visit (v : Visitor N L A R) : Forest N L → Nat → A → Except R A
  | .nil, _, a => .ok a
  | .leaf x rest, level, a => do
    let a ← v.leaf level x a
    rest.visit v level a
  | .node x inner rest, level, a => do
    let a ← v.enter level x inner a
    let a ← inner.visit v (level + 1) a
    let a ← v.leave level a
    rest.visit v level a

structure Idle (v : Visitor N L A R) (base : Nat) : Prop where
  enter : ∀ level, base ≤ level → ∀ x inner a, v.enter level x inner a = .ok a
  leave : ∀ level, base ≤ level → ∀ a, v.leave level a = .ok a
  leaf : ∀ level, base ≤ level → ∀ x a, v.leaf level x a = .ok a

section Rules

variable {v : Visitor N L A R} {base : Nat} {level : Nat} {inner rest : Forest N L}

theorem visit_node_entered {x : N} {a : A} {r : R}
    (enters : v.enter level x inner a = .error r) : (node x inner rest).visit v level a = .error r := by
  rw [visit, enters]
  rfl

theorem visit_node_inside {x : N} {a b : A} {r : R}
    (enters : v.enter level x inner a = .ok b) (inside : inner.visit v (level + 1) b = .error r) :
    (node x inner rest).visit v level a = .error r := by
  rw [visit, enters]
  change (inner.visit v (level + 1) b >>= fun c => _) = _
  rw [inside]
  rfl

theorem visit_node {x : N} {a b c d : A}
    (enters : v.enter level x inner a = .ok b) (inside : inner.visit v (level + 1) b = .ok c)
    (leaves : v.leave level c = .ok d) : (node x inner rest).visit v level a = rest.visit v level d := by
  rw [visit, enters]
  change (inner.visit v (level + 1) b >>= fun c => v.leave level c >>= fun d => rest.visit v level d) = _
  rw [inside]
  change (v.leave level c >>= fun d => rest.visit v level d) = _
  rw [leaves]
  rfl

theorem Idle.visit (idle : Idle v base) (f : Forest N L) (deep : base ≤ level) (a : A) :
    f.visit v level a = .ok a := by
  induction f generalizing level with
  | nil => rfl
  | leaf x rest ih =>
    rw [Forest.visit, idle.leaf level deep]
    exact ih deep
  | node x inner rest innerIh restIh =>
    rw [visit_node (idle.enter level deep x inner a) (innerIh (Nat.le_succ_of_le deep)) (idle.leave level deep a)]
    exact restIh deep

theorem visit_leaves (enter : ∀ x inner a, v.enter base x inner a = .ok a) (leave : ∀ a, v.leave base a = .ok a)
    (idle : Idle v (base + 1)) (f : Forest N L) (a : A) :
    f.visit v base a = f.leaves.foldlM (fun a x => v.leaf base x a) a := by
  induction f generalizing a with
  | nil => rfl
  | leaf x rest ih =>
    rw [visit, leaves, List.foldlM_cons]
    exact bind_congr fun a => ih a
  | node x inner rest _ restIh =>
    rw [visit_node (enter x inner a) (idle.visit inner (Nat.le_refl _) a) (leave a), leaves]
    exact restIh a

theorem visit_children (leaf : ∀ x a, v.leaf base x a = .ok a) (leave : ∀ a, v.leave base a = .ok a)
    (idle : Idle v (base + 1)) (f : Forest N L) (a : A) :
    f.visit v base a = f.children.foldlM (fun a c => v.enter base c.1 c.2 a) a := by
  induction f generalizing a with
  | nil => rfl
  | leaf x rest ih =>
    rw [visit, leaf, children]
    exact ih a
  | node x inner rest _ restIh =>
    rw [children, List.foldlM_cons]
    cases enters : v.enter base x inner a with
    | error r => exact visit_node_entered enters
    | ok b =>
      rw [visit_node enters (idle.visit inner (Nat.le_refl _) b) (leave b)]
      exact restIh b

end Rules

end Forest
