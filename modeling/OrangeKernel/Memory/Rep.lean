import OrangeKernel.Memory.Ownership

set_option autoImplicit false

namespace OrangeKernel.Memory

open Function Machine AlignedBlock Intrusive

structure Kept (m m' : PageAllocator) : Prop where
  layout : m'.layout = m.layout
  ready : m'.memoryReady = m.memoryReady
  kind : ∀ p, (m'.frames p).kind = (m.frames p).kind
  allocs : m'.pageAllocCount = m.pageAllocCount
  frees : m'.pageFreeCount = m.pageFreeCount

theorem Kept.refl (m : PageAllocator) : Kept m m := ⟨rfl, rfl, fun _ => rfl, rfl, rfl⟩

variable {m' : PageAllocator} {m : PageAllocator}

theorem Kept.trans {m'' : PageAllocator} (left : Kept m m') (right : Kept m' m'') : Kept m m'' :=
  ⟨right.layout.trans left.layout, right.ready.trans left.ready,
    fun p => (right.kind p).trans (left.kind p), right.allocs.trans left.allocs,
    right.frees.trans left.frees⟩

theorem blockMarkFree_kept (idx order : Nat) (m : PageAllocator) : Kept m (blockMarkFree idx order m) :=
  ⟨rfl, rfl, fun p => (mark_links _ _ idx order m.frames p).2.2, rfl, rfl⟩

theorem blockMarkAlloc_kept (idx order : Nat) (m : PageAllocator) : Kept m (blockMarkAlloc idx order m) :=
  ⟨rfl, rfl, fun p => (mark_links _ _ idx order m.frames p).2.2, rfl, rfl⟩

theorem freelistPush_kept (order idx : Nat) (m : PageAllocator) : Kept m (freelistPush order idx m) :=
  ⟨rfl, rfl, fun p => (freelistPush_tags order idx m p).2, rfl, rfl⟩

variable {order head : Nat}

theorem BlockOk.lt {layout : Layout} (ok : layout.Ok) {q : Nat} (block : BlockOk layout order head)
    (inside : Inside order head q) : q < layout.managedPageCount := by
  obtain ⟨-, r, member, low, high, -⟩ := block
  have bound := ok.region_end_le member
  unfold Inside at inside
  omega

theorem BlockOk.head_small {layout : Layout} (ok : layout.Ok) (block : BlockOk layout order head) : head < 2 ^ 31 :=
  (block.lt ok (inside_start order head)).trans ok.small

variable {owner : Nat → Owner}

theorem Rep.owner_of_head (rep : Rep m owner) {p : Nat} (bound : p < m.layout.managedPageCount)
    (block : (owner p).block = some (order, head)) :
    head < m.layout.managedPageCount ∧ owner head = owner p := by
  obtain ⟨ok, -, whole⟩ := rep.block p bound order head block
  exact ⟨ok.lt rep.layout_ok (inside_start order head), whole head (inside_start order head)⟩

variable {o : Owner} {order' : Nat}

theorem Rep.block_outside (rep : Rep m owner)
    (closed : ∀ q, Inside order head q → ∀ p < m.layout.managedPageCount, ¬ Inside order head p →
      (owner p).block ≠ none → owner q ≠ owner p)
    {p : Nat} (bound : p < m.layout.managedPageCount) (outside : ¬ Inside order head p) {head' : Nat}
    (block : (owner p).block = some (order', head')) :
    BlockOk m.layout order' head' ∧ Inside order' head' p ∧
      ∀ q, Inside order' head' q → assign owner order head o q = owner p := by
  obtain ⟨ok, inside, whole⟩ := rep.block p bound order' head' block
  refine ⟨ok, inside, fun q insideQ => ?_⟩
  by_cases inBlock : Inside order head q
  · have different := closed q inBlock p bound outside (by simp [block])
    exact absurd (whole q insideQ) different
  · rw [assign_outside inBlock, whole q insideQ]

theorem Rep.congr (rep : Rep m owner) (layout : m'.layout = m.layout) (heads : m'.freeLists = m.freeLists)
    (frames : ∀ p, (m'.frames p).state = (m.frames p).state ∧
      (m'.frames p).freePrev = (m.frames p).freePrev ∧ (m'.frames p).freeNext = (m.frames p).freeNext) :
    Rep m' owner where
  layout_ok := layout ▸ rep.layout_ok
  tag := fun p bound owned => (frames p).1.trans (rep.tag p (layout ▸ bound) owned)
  block := by
    rw [layout]
    exact rep.block
  lists := by
    intro order small
    obtain ⟨xs, list, members⟩ := rep.lists order small
    refine ⟨xs, ⟨heads ▸ list.head, ?_⟩, layout ▸ members⟩
    refine Links.holds_congr (fun p _ => ?_) (fun p _ => ?_) list.linked
    · simp only [freeLinks, (frames p).2.2]
    · simp only [freeLinks, (frames p).2.1]
  links_ge := by
    intro p
    rw [(frames p).2.1, (frames p).2.2]
    exact rep.links_ge p

variable {xs : List Nat}

section Steps

theorem Rep.block_taken (rep : Rep m owner) (ok : BlockOk m.layout order head)
    (held : ∀ q, Inside order head q → owner q = .held) (own : o.block = some (order, head)) :
    ∀ p < m.layout.managedPageCount, ∀ order' head', (assign owner order head o p).block = some (order', head') →
      BlockOk m.layout order' head' ∧ Inside order' head' p ∧
        ∀ q, Inside order' head' q → assign owner order head o q = assign owner order head o p := by
  intro p bound order' head' block
  by_cases inside : Inside order head p
  · rw [assign_inside inside] at block ⊢
    obtain ⟨rfl, rfl⟩ : order = order' ∧ head = head' := by simpa [own] using block
    exact ⟨ok, inside, fun q insideQ => assign_inside insideQ⟩
  · rw [assign_outside inside] at block ⊢
    refine rep.block_outside (fun q insideQ p' _ _ owned same => ?_) bound inside block
    rw [← same, held q insideQ] at owned
    exact owned rfl

theorem Rep.block_held (rep : Rep m owner) (bound : head < m.layout.managedPageCount)
    (own : (owner head).block = some (order, head)) :
    ∀ p < m.layout.managedPageCount, ∀ order' head',
      (assign owner order head .held p).block = some (order', head') →
      BlockOk m.layout order' head' ∧ Inside order' head' p ∧
        ∀ q, Inside order' head' q → assign owner order head .held q = assign owner order head .held p := by
  intro p inRange order' head' block
  by_cases inside : Inside order head p
  · simp [assign_inside inside, Owner.block] at block
  · rw [assign_outside inside] at block ⊢
    obtain ⟨-, -, whole⟩ := rep.block head bound order head own
    refine rep.block_outside (fun q insideQ p' boundP' outsideP' _ same => ?_) inRange inside block
    have blockP' : (owner p').block = some (order, head) := by rw [← same, whole q insideQ, own]
    exact outsideP' (rep.block p' boundP' order head blockP').2.1

abbrev FreeHeads (m : PageAllocator) (owner : Nat → Owner) (order : Nat) (xs : List Nat) : Prop :=
  ∀ idx, idx ∈ xs ↔ idx < m.layout.managedPageCount ∧ owner idx = .free order idx

theorem Rep.list (rep : Rep m owner) (small : order ≤ maxOrder) :
    ∃ xs, FreeList m order xs ∧ FreeHeads m owner order xs := rep.lists order small

theorem FreeHeads.disjoint {ys : List Nat} (left : FreeHeads m owner order xs) (right : FreeHeads m owner order' ys)
    (other : order' ≠ order) : xs.Disjoint ys := by
  intro idx inLeft inRight
  have first := (left idx).mp inLeft
  have second := (right idx).mp inRight
  rw [first.2] at second
  exact other (by simpa using second.2.symm)

theorem FreeHeads.other (heads : FreeHeads m owner order' xs)
    (before : ∀ q, Inside order head q → owner q ≠ .free order' q) (after : ∀ q, o ≠ .free order' q) :
    FreeHeads m (assign owner order head o) order' xs := by
  intro idx
  rw [heads idx]
  by_cases inside : Inside order head idx
  · simp [assign_inside inside, before idx inside, after idx]
  · rw [assign_outside inside]

theorem FreeHeads.put (heads : FreeHeads m owner order xs) (ok : BlockOk m.layout order head)
    (layoutOk : m.layout.Ok) (held : ∀ q, Inside order head q → owner q = .held) :
    FreeHeads m (assign owner order head (.free order head)) order (head :: xs) := by
  intro idx
  rw [List.mem_cons, heads idx]
  by_cases inside : Inside order head idx
  · simp [assign_inside inside, held idx inside, ok.lt layoutOk inside, eq_comm]
  · have other : idx ≠ head := fun same => inside (same ▸ inside_start order head)
    simp [assign_outside inside, other]

theorem FreeHeads.drop {l r : List Nat} (heads : FreeHeads m owner order (l ++ head :: r))
    (distinct : (l ++ head :: r).Nodup) (whole : ∀ q, Inside order head q → owner q = .free order head) :
    FreeHeads m (assign owner order head .held) order (l ++ r) := by
  intro idx
  have absent : head ∉ l ++ r := (List.nodup_cons.mp (List.nodup_middle.mp distinct)).1
  by_cases inside : Inside order head idx
  · -- The only free block that starts inside this one is this one.
    have outsider : idx ∉ l ++ r := by
      intro inList
      have listed := (heads idx).mp (by simp only [List.mem_append, List.mem_cons] at inList ⊢; tauto)
      rw [whole idx inside] at listed
      obtain rfl : head = idx := by simpa using listed.2
      exact absent inList
    simp [assign_inside inside, outsider]
  · have other : idx ≠ head := fun same => inside (same ▸ inside_start order head)
    rw [assign_outside inside, ← heads idx]
    simp [other]

theorem Rep.mark_held (rep : Rep m owner) (held : ∀ q, Inside order head q → owner q = .held) :
    Rep (blockMarkFree head order m) owner where
  layout_ok := rep.layout_ok
  tag := by
    intro p bound owned
    have outside : ¬ Inside order head p := fun inside => owned (held p inside)
    rw [blockMarkFree_state, if_neg outside]
    exact rep.tag p bound owned
  block := rep.block
  lists := by
    intro order' small
    obtain ⟨xs, list, members⟩ := rep.lists order' small
    refine ⟨xs, ⟨list.head, ?_⟩, members⟩
    refine Links.holds_congr (fun p _ => ?_) (fun p _ => ?_) list.linked
    · simp only [freeLinks, blockMarkFree, (mark_links _ _ head order m.frames p).2.1]
    · simp only [freeLinks, blockMarkFree, (mark_links _ _ head order m.frames p).1]
  links_ge := by
    intro p
    have links := mark_links (int16 order) frameBuddy head order m.frames p
    simp only [blockMarkFree, links.1, links.2.1]
    exact rep.links_ge p

theorem Rep.allocate (rep : Rep m owner) (ok : BlockOk m.layout order head)
    (held : ∀ q, Inside order head q → owner q = .held) :
    Rep (blockMarkAlloc head order m) (assign owner order head (.allocated order head)) where
  layout_ok := rep.layout_ok
  tag := by
    intro p bound owned
    rw [blockMarkAlloc_state, allocTagFromOrder_eq ok.1]
    by_cases inside : Inside order head p
    · rw [if_pos inside, assign_inside inside, Owner.tag]
    · rw [assign_outside inside] at owned ⊢
      rw [if_neg inside]
      exact rep.tag p bound owned
  block := rep.block_taken ok held rfl
  lists := by
    intro order' small
    obtain ⟨xs, list, members⟩ := rep.list small
    refine ⟨xs, ⟨list.head, ?_⟩, members.other (fun q inside => by simp [held q inside]) (by simp)⟩
    refine Links.holds_congr (fun p _ => ?_) (fun p _ => ?_) list.linked
    · simp only [freeLinks, blockMarkAlloc, (mark_links _ _ head order m.frames p).2.1]
    · simp only [freeLinks, blockMarkAlloc, (mark_links _ _ head order m.frames p).1]
  links_ge := by
    intro p
    have links := mark_links (allocTagFromOrder order) frameUsed head order m.frames p
    simp only [blockMarkAlloc, links.1, links.2.1]
    exact rep.links_ge p

theorem Rep.hold_allocated (rep : Rep m owner) (bound : head < m.layout.managedPageCount)
    (owned : owner head = .allocated order head) : Rep m (assign owner order head .held) where
  layout_ok := rep.layout_ok
  tag := by
    intro p inRange ownedP
    by_cases inside : Inside order head p
    · exact absurd (assign_inside inside) ownedP
    · rw [assign_outside inside] at ownedP ⊢
      exact rep.tag p inRange ownedP
  block := rep.block_held bound (by rw [owned]; rfl)
  lists := by
    intro order' small
    obtain ⟨xs, list, members⟩ := rep.list small
    obtain ⟨-, -, whole⟩ := rep.block head bound order head (by rw [owned]; rfl)
    exact ⟨xs, list, members.other (fun q inside => by simp [whole q inside, owned]) (by simp)⟩
  links_ge := rep.links_ge

theorem Rep.release (rep : Rep m owner) (ok : BlockOk m.layout order head)
    (held : ∀ q, Inside order head q → owner q = .held) :
    Rep (freelistPush order head (blockMarkFree head order m))
      (assign owner order head (.free order head)) where
  layout_ok := rep.layout_ok
  tag := by
    intro p bound owned
    rw [(freelistPush_tags order head (blockMarkFree head order m) p).1, blockMarkFree_state,
      int16_order ok.1]
    by_cases inside : Inside order head p
    · rw [if_pos inside, assign_inside inside, Owner.tag]
    · rw [assign_outside inside] at owned ⊢
      rw [if_neg inside]
      exact rep.tag p bound owned
  block := rep.block_taken ok held rfl
  lists := by
    have marked := rep.mark_held held
    have atHead := held head (inside_start order head)
    obtain ⟨own, ownList, ownMembers⟩ := marked.list ok.1
    have links := freelistPush_links (ok.head_small rep.layout_ok) ownList.head
    intro order' small
    by_cases same : order' = order
    · subst same
      have absent : head ∉ own := fun member => by simp [(ownMembers head).mp member] at atHead
      refine ⟨head :: own, ⟨?_, ?_⟩, ownMembers.put ok rep.layout_ok held⟩
      · have small := ok.head_small rep.layout_ok
        simp only [freelistPush, update_self, List.head?_cons, encodeLink]
        exact int32_of_small (by omega) (by omega)
      · rw [links]
        exact Links.holds_pushFront ownList.linked absent
    · obtain ⟨xs, list, members⟩ := marked.list small
      refine ⟨xs, ⟨?_, ?_⟩, members.other (fun q inside => by simp [held q inside]) (by simp [Ne.symm same])⟩
      · simp only [freelistPush, update_of_ne same]
        exact list.head
      · rw [links]
        refine Links.holds_pushFront_other (ownMembers.disjoint members same) (fun member => ?_) list.linked
        simp [(members head).mp member] at atHead
  links_ge := by
    have marked := rep.mark_held held
    intro p
    obtain ⟨own, ownList, -⟩ := marked.lists order ok.1
    have small := ok.head_small rep.layout_ok
    have index : int32 head = head := int32_of_small (by omega) (by omega)
    have kept := marked.links_ge p
    rw [freelistPush_prev, freelistPush_next, index, ownList.head]
    constructor
    · split_ifs
      · omega
      · decide
      · exact kept.1
    · split_ifs
      · exact encodeLink_ge _
      · exact kept.2

theorem Rep.node_of_free (rep : Rep m owner) (bound : head < m.layout.managedPageCount)
    (owned : owner head = .free order head) :
    ∃ l r, FreeList m order (l ++ head :: r) ∧ FreeHeads m owner order (l ++ head :: r) := by
  have small := (rep.block head bound order head (by rw [owned]; rfl)).1.1
  obtain ⟨xs, list, members⟩ := rep.lists order small
  obtain ⟨l, r, rfl⟩ := List.append_of_mem ((members head).mpr ⟨bound, owned⟩)
  exact ⟨l, r, list, members⟩

theorem Rep.unlinked_head (rep : Rep m owner) {l r : List Nat} (list : FreeList m order (l ++ head :: r)) :
    (if (m.frames head).freePrev < 0 then update m.freeLists order (m.frames head).freeNext
      else m.freeLists) order = encodeLink (l ++ r).head? := by
  obtain ⟨nextAt, prevAt⟩ := list.linked.at_middle
  cases l with
  | nil =>
    have first : (m.frames head).freePrev < 0 := by
      by_contra nonneg
      simp [freeLinks, linkOf_nonneg (Int.not_lt.mp nonneg)] at prevAt
    rw [if_pos first, update_self, List.nil_append, ← nextAt]
    exact (encodeLink_linkOf (rep.links_ge head).2).symm
  | cons x l =>
    have later : ¬ (m.frames head).freePrev < 0 := by
      intro negative
      rw [List.getLast?_cons] at prevAt
      simp [freeLinks, linkOf_neg negative] at prevAt
    rw [if_neg later]
    simpa using list.head

theorem Rep.unlinked (rep : Rep m owner) (bound : head < m.layout.managedPageCount)
    (owned : owner head = .free order head) (layout : m'.layout = m.layout)
    (tags : SameTags m m') (links : freeLinks m' = (freeLinks m).unlink head)
    (heads : m'.freeLists = if (m.frames head).freePrev < 0
      then update m.freeLists order (m.frames head).freeNext else m.freeLists)
    (ge : ∀ p, -1 ≤ (m'.frames p).freePrev ∧ -1 ≤ (m'.frames p).freeNext) :
    Rep m' (assign owner order head .held) where
  layout_ok := layout ▸ rep.layout_ok
  tag := by
    intro p inRange ownedP
    rw [layout] at inRange
    by_cases inside : Inside order head p
    · exact absurd (assign_inside inside) ownedP
    · rw [assign_outside inside] at ownedP ⊢
      rw [(tags p).1]
      exact rep.tag p inRange ownedP
  block := by
    rw [layout]
    exact rep.block_held bound (by rw [owned]; rfl)
  lists := by
    obtain ⟨-, -, whole⟩ := rep.block head bound order head (by rw [owned]; rfl)
    obtain ⟨l, r, own, ownMembers⟩ := rep.node_of_free bound owned
    rw [layout]
    intro order' small
    by_cases same : order' = order
    · subst same
      refine ⟨l ++ r, ⟨heads ▸ rep.unlinked_head own, ?_⟩,
        ownMembers.drop own.linked.nodup (fun q inside => (whole q inside).trans owned)⟩
      rw [links]
      exact Links.holds_unlink own.linked
    · obtain ⟨xs, list, members⟩ := rep.list small
      refine ⟨xs, ⟨?_, ?_⟩,
        members.other (fun q inside => by simp [whole q inside, owned, Ne.symm same]) (by simp)⟩
      · rw [heads]
        split
        · rw [update_of_ne same]
          exact list.head
        · exact list.head
      · rw [links]
        exact Links.holds_unlink_other own.linked (ownMembers.disjoint members same) list.linked
  links_ge := ge

theorem Rep.freelistRemove_free (rep : Rep m owner) (bound : head < m.layout.managedPageCount)
    (owned : owner head = .free order head) :
    ∃ m', freelistRemove order head m = some m' ∧ Kept m m' ∧
      Rep m' (assign owner order head .held) := by
  have ok := (rep.block head bound order head (by rw [owned]; rfl)).1
  have small := ok.head_small rep.layout_ok
  have state : (m.frames head).state = int16 order := by
    rw [rep.tag head bound (by simp [owned]), owned, Owner.tag, if_pos rfl, int16_order ok.1]
  -- A node without predecessor is the head of the list.
  have listed : ¬ ((m.frames head).freePrev < 0 ∧ m.freeLists order ≠ int32 head) := by
    rintro ⟨first, other⟩
    obtain ⟨l, r, own, -⟩ := rep.node_of_free bound owned
    have prevAt := own.linked.at_middle.2
    simp only [freeLinks, linkOf_neg first] at prevAt
    have empty : l = [] := List.getLast?_eq_none_iff.mp prevAt.symm
    apply other
    rw [own.head, empty, int32_of_small (by omega) (by omega)]
    rfl
  let removed : PageAllocator :=
    { m with
      freeLists := if (m.frames head).freePrev < 0
        then update m.freeLists order (m.frames head).freeNext else m.freeLists
      frames := unlinkFrames head (m.frames head).freePrev (m.frames head).freeNext m.frames }
  refine ⟨removed, ?_, ⟨rfl, rfl, fun p => (unlinkFrames_tags ..).2, rfl, rfl⟩, ?_⟩
  · unfold freelistRemove
    rw [if_neg (Nat.not_le.mpr bound), if_neg (not_not.mpr state)]
    simp only [listed, if_false]
    rfl
  · exact rep.unlinked bound owned rfl (fun p => unlinkFrames_tags ..)
      (unlinkFrames_links rfl rfl rfl) rfl
      (unlinkFrames_ge (rep.links_ge head).1 (rep.links_ge head).2 rep.links_ge)

theorem Rep.free_of_list (rep : Rep m owner) (small : order ≤ maxOrder) (nonempty : 0 ≤ m.freeLists order) :
    ∃ idx : Nat, m.freeLists order = idx ∧ idx < m.layout.managedPageCount ∧ owner idx = .free order idx := by
  obtain ⟨xs, list, members⟩ := rep.lists order small
  cases xs with
  | nil =>
    rw [list.head] at nonempty
    simp [encodeLink] at nonempty
  | cons idx xs => exact ⟨idx, list.head, (members idx).mp List.mem_cons_self⟩

theorem Rep.freelistPop_free (rep : Rep m owner) (bound : head < m.layout.managedPageCount)
    (owned : owner head = .free order head) (first : m.freeLists order = head) :
    ∃ m', freelistPop order m = ((head : Int), m') ∧ Kept m m' ∧
      Rep m' (assign owner order head .held) := by
  -- The head of a list has no predecessor, so popping is the same unlink.
  have prevAt : (m.frames head).freePrev = -1 := by
    obtain ⟨l, r, own, -⟩ := rep.node_of_free bound owned
    have start := own.head
    have link := own.linked.at_middle.2
    rw [first] at start
    cases l with
    | nil =>
      have low := (rep.links_ge head).1
      by_contra other
      simp [freeLinks, linkOf_nonneg (show 0 ≤ (m.frames head).freePrev by omega)] at link
    | cons x l =>
      have distinct := own.linked.nodup
      obtain rfl : head = x := by simpa [encodeLink] using start
      simp at distinct
  let popped : PageAllocator :=
    { m with
      freeLists := update m.freeLists order (m.frames head).freeNext
      frames := unlinkFrames head (-1) (m.frames head).freeNext m.frames }
  refine ⟨popped, ?_, ⟨rfl, rfl, fun p => (unlinkFrames_tags ..).2, rfl, rfl⟩, ?_⟩
  · unfold freelistPop
    simp only [first, Int.natCast_nonneg, if_true, Int.toNat_natCast]
    rfl
  · refine rep.unlinked bound owned rfl (fun p => unlinkFrames_tags ..)
      (unlinkFrames_links prevAt rfl rfl) ?_
      (unlinkFrames_ge (by decide) (rep.links_ge head).2 rep.links_ge)
    simp [popped, prevAt]

end Steps

end OrangeKernel.Memory
