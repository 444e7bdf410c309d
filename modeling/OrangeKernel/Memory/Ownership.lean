import OrangeKernel.Memory.Buddy
import OrangeKernel.Shared.AlignedBlock
import OrangeKernel.Shared.LinkedList

set_option autoImplicit false

-- Inside an operation a block can be `held`: it has left its list or its allocation and has no new
-- owner yet.

namespace OrangeKernel.Memory

open Machine AlignedBlock Intrusive

inductive Owner where
  | reserved
  | free (order head : Nat)
  | allocated (order head : Nat)
  | held
deriving DecidableEq

def Owner.block : Owner → Option (Nat × Nat)
  | .free order head | .allocated order head => some (order, head)
  | .reserved | .held => none

def Owner.tag (p : Nat) : Owner → Int
  | .free order head => if p = head then order else frameBuddy
  | .allocated order head => if p = head then frameAllocBase - order else frameUsed
  | .reserved | .held => frameUsed

def assign (owner : Nat → Owner) (order head : Nat) (o : Owner) : Nat → Owner :=
  fun p => if Inside order head p then o else owner p

def BlockOk (layout : Layout) (order head : Nat) : Prop :=
  order ≤ maxOrder ∧ ∃ r ∈ layout.regions, r.firstIdx ≤ head ∧
    head + 2 ^ order ≤ r.firstIdx + r.pageCount ∧ 2 ^ order ∣ head - r.firstIdx

def linkOf (x : Int) : Option Nat := if 0 ≤ x then some x.toNat else none

def encodeLink : Option Nat → Int
  | none => -1
  | some idx => idx

def freeLinks (m : PageAllocator) : Links Nat :=
  { next := fun idx => linkOf (m.frames idx).freeNext
    prev := fun idx => linkOf (m.frames idx).freePrev }

structure FreeList (m : PageAllocator) (order : Nat) (xs : List Nat) : Prop where
  head : m.freeLists order = encodeLink xs.head?
  linked : (freeLinks m).Holds xs

structure Rep (m : PageAllocator) (owner : Nat → Owner) : Prop where
  layout_ok : m.layout.Ok
  tag : ∀ p < m.layout.managedPageCount, owner p ≠ .held → (m.frames p).state = (owner p).tag p
  block : ∀ p < m.layout.managedPageCount, ∀ order head, (owner p).block = some (order, head) →
    BlockOk m.layout order head ∧ Inside order head p ∧ ∀ q, Inside order head q → owner q = owner p
  lists : ∀ order ≤ maxOrder, ∃ xs, FreeList m order xs ∧
    ∀ idx, idx ∈ xs ↔ idx < m.layout.managedPageCount ∧ owner idx = .free order idx
  links_ge : ∀ p, -1 ≤ (m.frames p).freePrev ∧ -1 ≤ (m.frames p).freeNext

theorem encodeLink_linkOf {x : Int} (low : -1 ≤ x) : encodeLink (linkOf x) = x := by
  unfold linkOf
  split
  next nonneg => simp [encodeLink, nonneg]
  next negative => simp [encodeLink]; omega

@[simp] theorem encodeLink_ge (link : Option Nat) : -1 ≤ encodeLink link := by
  cases link <;> simp [encodeLink]

variable {order : Nat}

theorem assign_inside {owner : Nat → Owner} {head p : Nat} {o : Owner}
    (inside : Inside order head p) : assign owner order head o p = o := by
  simp [assign, inside]

theorem assign_outside {owner : Nat → Owner} {head p : Nat} {o : Owner}
    (outside : ¬ Inside order head p) : assign owner order head o p = owner p := by
  simp [assign, outside]

section Writes

variable (idx p : Nat) (tag link : Int) (kind : PageKind) (frames : Nat → FrameMeta)

@[simp] theorem setState_state :
    (setState idx tag frames p).state = if p = idx then tag else (frames p).state := by
  unfold setState
  by_cases same : p = idx <;> simp [same]

@[simp] theorem setState_prev : (setState idx tag frames p).freePrev = (frames p).freePrev := by
  unfold setState
  by_cases same : p = idx <;> simp [same]

@[simp] theorem setState_next : (setState idx tag frames p).freeNext = (frames p).freeNext := by
  unfold setState
  by_cases same : p = idx <;> simp [same]

@[simp] theorem setState_kind : (setState idx tag frames p).kind = (frames p).kind := by
  unfold setState
  by_cases same : p = idx <;> simp [same]

@[simp] theorem setPrev_state : (setPrev idx link frames p).state = (frames p).state := by
  unfold setPrev
  by_cases same : p = idx <;> simp [same]

@[simp] theorem setPrev_prev :
    (setPrev idx link frames p).freePrev = if p = idx then link else (frames p).freePrev := by
  unfold setPrev
  by_cases same : p = idx <;> simp [same]

@[simp] theorem setPrev_next : (setPrev idx link frames p).freeNext = (frames p).freeNext := by
  unfold setPrev
  by_cases same : p = idx <;> simp [same]

@[simp] theorem setPrev_kind : (setPrev idx link frames p).kind = (frames p).kind := by
  unfold setPrev
  by_cases same : p = idx <;> simp [same]

@[simp] theorem setNext_state : (setNext idx link frames p).state = (frames p).state := by
  unfold setNext
  by_cases same : p = idx <;> simp [same]

@[simp] theorem setNext_prev : (setNext idx link frames p).freePrev = (frames p).freePrev := by
  unfold setNext
  by_cases same : p = idx <;> simp [same]

@[simp] theorem setNext_next :
    (setNext idx link frames p).freeNext = if p = idx then link else (frames p).freeNext := by
  unfold setNext
  by_cases same : p = idx <;> simp [same]

@[simp] theorem setNext_kind : (setNext idx link frames p).kind = (frames p).kind := by
  unfold setNext
  by_cases same : p = idx <;> simp [same]

@[simp] theorem setKind_state : (setKind idx kind frames p).state = (frames p).state := by
  unfold setKind
  by_cases same : p = idx <;> simp [same]

@[simp] theorem setKind_prev : (setKind idx kind frames p).freePrev = (frames p).freePrev := by
  unfold setKind
  by_cases same : p = idx <;> simp [same]

@[simp] theorem setKind_next : (setKind idx kind frames p).freeNext = (frames p).freeNext := by
  unfold setKind
  by_cases same : p = idx <;> simp [same]

@[simp] theorem setKind_kind :
    (setKind idx kind frames p).kind = if p = idx then kind else (frames p).kind := by
  unfold setKind
  by_cases same : p = idx <;> simp [same]

end Writes

def SameLinks (frames frames' : Nat → FrameMeta) : Prop :=
  ∀ p, (frames' p).freePrev = (frames p).freePrev ∧ (frames' p).freeNext = (frames p).freeNext ∧
    (frames' p).kind = (frames p).kind

theorem setStates_state (tag : Int) (count start p : Nat) (frames : Nat → FrameMeta) :
    (setStates tag count start frames p).state =
      if start ≤ p ∧ p < start + count then tag else (frames p).state := by
  induction count generalizing start frames with
  | zero =>
    have outside : ¬ (start ≤ p ∧ p < start + 0) := by omega
    rw [setStates, if_neg outside]
  | succ count ih =>
    rw [setStates, ih, setState_state]
    by_cases here : p = start
    · have inside : start ≤ p ∧ p < start + (count + 1) := by omega
      rw [if_pos here, if_pos inside, ite_self]
    · have same : (start + 1 ≤ p ∧ p < start + 1 + count) ↔ (start ≤ p ∧ p < start + (count + 1)) := by
        omega
      rw [if_neg here, if_congr same rfl rfl]

theorem setStates_links (tag : Int) (count start : Nat) (frames : Nat → FrameMeta) :
    SameLinks frames (setStates tag count start frames) := by
  induction count generalizing start frames with
  | zero => exact fun p => ⟨rfl, rfl, rfl⟩
  | succ count ih =>
    intro p
    have rest := ih (start + 1) (setState start tag frames) p
    simpa [setStates] using rest

theorem mark_state (headTag bodyTag : Int) (idx order p : Nat) (frames : Nat → FrameMeta) :
    (setStates bodyTag (2 ^ order - 1) (idx + 1) (setState idx headTag frames) p).state =
      if Inside order idx p then (if p = idx then headTag else bodyTag) else (frames p).state := by
  have pos := Nat.two_pow_pos order
  rw [setStates_state, setState_state]
  by_cases here : p = idx
  · have outside : ¬ (idx + 1 ≤ p ∧ p < idx + 1 + (2 ^ order - 1)) := by omega
    have inside : Inside order idx p := here ▸ inside_start order p
    rw [if_neg outside, if_pos inside, if_pos here, if_pos here]
  · have same : (idx + 1 ≤ p ∧ p < idx + 1 + (2 ^ order - 1)) ↔ Inside order idx p := by
      unfold Inside
      omega
    rw [if_neg here, if_congr same rfl rfl, if_neg here]

theorem mark_links (headTag bodyTag : Int) (idx order : Nat) (frames : Nat → FrameMeta) :
    SameLinks frames (setStates bodyTag (2 ^ order - 1) (idx + 1) (setState idx headTag frames)) := by
  intro p
  have body := setStates_links bodyTag (2 ^ order - 1) (idx + 1) (setState idx headTag frames) p
  simpa using body

theorem blockMarkFree_state (idx order p : Nat) (m : PageAllocator) :
    ((blockMarkFree idx order m).frames p).state =
      if Inside order idx p then (if p = idx then int16 order else frameBuddy) else (m.frames p).state :=
  mark_state ..

theorem blockMarkAlloc_state (idx order p : Nat) (m : PageAllocator) :
    ((blockMarkAlloc idx order m).frames p).state =
      if Inside order idx p then (if p = idx then allocTagFromOrder order else frameUsed)
      else (m.frames p).state :=
  mark_state ..

theorem int16_order (small : order ≤ maxOrder) : int16 order = order := by
  unfold maxOrder at small
  exact int16_of_small (by omega) (by omega)

theorem allocTagFromOrder_eq (small : order ≤ maxOrder) :
    allocTagFromOrder order = frameAllocBase - order := by
  have bound := small
  unfold maxOrder at bound
  unfold allocTagFromOrder
  rw [int16_order small]
  exact int16_of_small (by unfold frameAllocBase; omega) (by unfold frameAllocBase; omega)

def SameTags (m m' : PageAllocator) : Prop :=
  ∀ p, (m'.frames p).state = (m.frames p).state ∧ (m'.frames p).kind = (m.frames p).kind

theorem freelistPush_tags (order idx : Nat) (m : PageAllocator) : SameTags m (freelistPush order idx m) := by
  intro p
  unfold freelistPush
  by_cases nonempty : 0 ≤ m.freeLists order <;> simp [nonempty]

theorem freelistPush_next (order idx p : Nat) (m : PageAllocator) :
    ((freelistPush order idx m).frames p).freeNext =
      if p = idx then m.freeLists order else (m.frames p).freeNext := by
  unfold freelistPush
  by_cases nonempty : 0 ≤ m.freeLists order <;> simp [nonempty]

theorem freelistPush_prev (order idx p : Nat) (m : PageAllocator) :
    ((freelistPush order idx m).frames p).freePrev =
      if 0 ≤ m.freeLists order ∧ p = (m.freeLists order).toNat then int32 idx
      else if p = idx then -1 else (m.frames p).freePrev := by
  unfold freelistPush
  by_cases nonempty : 0 ≤ m.freeLists order <;> simp [nonempty]

theorem freelistPush_links {idx : Nat} {m : PageAllocator} {head : Option Nat}
    (small : idx < 2 ^ 31) (list : m.freeLists order = encodeLink head) :
    freeLinks (freelistPush order idx m) = (freeLinks m).pushFront head idx := by
  have index : int32 idx = idx := int32_of_small (by omega) (by omega)
  cases head with
  | none =>
    have empty : m.freeLists order = -1 := list
    apply Links.ext <;> funext p <;> by_cases same : p = idx <;>
      simp [freeLinks, Links.pushFront, freelistPush, setAt, empty, same, linkOf]
  | some old =>
    have first : m.freeLists order = old := list
    clear list
    apply Links.ext <;> funext p <;> by_cases same : p = idx <;> by_cases atOld : p = old <;>
      simp [freeLinks, Links.pushFront, freelistPush, setAt, Function.update_apply, linkOf, first, index,
        same, atOld]
    all_goals grind

theorem linkOf_neg {x : Int} (negative : x < 0) : linkOf x = none := by
  simp [linkOf, negative]

theorem linkOf_nonneg {x : Int} (nonneg : 0 ≤ x) : linkOf x = some x.toNat := by
  simp [linkOf, nonneg]

def unlinkFrames (idx : Nat) (prev next : Int) (frames : Nat → FrameMeta) : Nat → FrameMeta :=
  let before := if prev < 0 then frames else setNext prev.toNat next frames
  let after := if 0 ≤ next then setPrev next.toNat prev before else before
  setNext idx (-1) (setPrev idx (-1) after)

theorem unlinkFrames_tags (idx : Nat) (prev next : Int) (frames : Nat → FrameMeta) (p : Nat) :
    (unlinkFrames idx prev next frames p).state = (frames p).state ∧
      (unlinkFrames idx prev next frames p).kind = (frames p).kind := by
  unfold unlinkFrames
  by_cases first : prev < 0 <;> by_cases last : 0 ≤ next <;> simp [first, last]

theorem unlinkFrames_ge {idx : Nat} {prev next : Int} {frames : Nat → FrameMeta}
    (prevGe : -1 ≤ prev) (nextGe : -1 ≤ next)
    (ge : ∀ p, -1 ≤ (frames p).freePrev ∧ -1 ≤ (frames p).freeNext) (p : Nat) :
    -1 ≤ (unlinkFrames idx prev next frames p).freePrev ∧
      -1 ≤ (unlinkFrames idx prev next frames p).freeNext := by
  have kept := ge p
  unfold unlinkFrames
  by_cases first : prev < 0 <;> by_cases last : 0 ≤ next <;> simp [first, last] <;>
    constructor <;> split_ifs <;> omega

theorem unlinkFrames_links {m m' : PageAllocator} {idx : Nat} {prev next : Int}
    (prevAt : (m.frames idx).freePrev = prev) (nextAt : (m.frames idx).freeNext = next)
    (frames : m'.frames = unlinkFrames idx prev next m.frames) :
    freeLinks m' = (freeLinks m).unlink idx := by
  have ends : linkOf (-1) = none := rfl
  apply Links.ext <;> funext p
  · simp only [freeLinks, Links.unlink, frames, unlinkFrames, prevAt, nextAt, setNext_next, setPrev_next]
    by_cases same : p = idx
    · rw [if_pos same, same, Function.update_self, ends]
    · rw [if_neg same, Function.update_of_ne same]
      by_cases first : prev < 0
      · by_cases last : 0 ≤ next <;> simp [linkOf_neg first, first, last, setAt]
      · rw [linkOf_nonneg (Int.not_lt.mp first)]
        by_cases last : 0 ≤ next <;> by_cases atPrev : p = prev.toNat <;>
          simp [first, last, setAt, atPrev]
  · simp only [freeLinks, Links.unlink, frames, unlinkFrames, prevAt, nextAt, setNext_prev, setPrev_prev]
    by_cases same : p = idx
    · rw [if_pos same, same, Function.update_self, ends]
    · rw [if_neg same, Function.update_of_ne same]
      by_cases last : 0 ≤ next
      · rw [linkOf_nonneg last]
        by_cases first : prev < 0 <;> by_cases atNext : p = next.toNat <;>
          simp [first, last, setAt, atNext]
      · rw [linkOf_neg (Int.not_le.mp last)]
        by_cases first : prev < 0 <;> simp [first, last, setAt]

end OrangeKernel.Memory
