import OrangeKernel.Memory.Pages

set_option autoImplicit false

namespace OrangeKernel.Memory

open Machine AlignedBlock Intrusive

inductive PageOp where
  | alloc (pages : Nat)
  | free (ptr : Nat)

structure LiveBlock where
  ptr : Nat
  order : Nat

structure PageState where
  pages : PageAllocator
  live : List LiveBlock

def pageStep (s : PageState) : PageOp → PageState
  | .alloc pages =>
    let result := pAlloc pages s.pages
    { pages := result.2
      live := if result.1 = 0 then s.live else ⟨result.1, Nat.clog 2 pages⟩ :: s.live }
  | .free ptr =>
    { pages := pFree ptr s.pages
      live := s.live.filter fun block => block.ptr ≠ ptr }

def pageRun (ops : List PageOp) (m : PageAllocator) : PageState :=
  ops.foldl pageStep { pages := m, live := [] }

def FreeBlock (m : PageAllocator) (order head : Nat) : Prop :=
  head < m.layout.managedPageCount ∧ (m.frames head).state = order

def AllocatedBlock (m : PageAllocator) (order head : Nat) : Prop :=
  head < m.layout.managedPageCount ∧ (m.frames head).state = frameAllocBase - order

inductive Claimant where
  | reserved
  | allocated (order head : Nat)
  | free (order head : Nat)

def Claimant.owner : Claimant → Owner
  | .reserved => .reserved
  | .allocated order head => .allocated order head
  | .free order head => .free order head

theorem Claimant.owner_inj {left right : Claimant} (same : left.owner = right.owner) : left = right := by
  cases left <;> cases right <;> simp_all [Claimant.owner]

def Belongs (m : PageAllocator) (p : Nat) : Claimant → Prop
  | .reserved => pageReserved m.layout p = true
  | .allocated order head => AllocatedBlock m order head ∧ Inside order head p
  | .free order head => FreeBlock m order head ∧ Inside order head p

structure RawList (m : PageAllocator) (head : Int) (xs : List Nat) : Prop where
  nodup : xs.Nodup
  first : head = encodeLink xs.head?
  next : ∀ l x r, xs = l ++ x :: r → (m.frames x).freeNext = encodeLink r.head?
  prev : ∀ l x r, xs = l ++ x :: r → (m.frames x).freePrev = encodeLink l.getLast?

structure BuddyInvariant (m : PageAllocator) : Prop where
  page : ∀ p < m.layout.managedPageCount, ∃! claimant, Belongs m p claimant
  free_block : ∀ order head, FreeBlock m order head → BlockOk m.layout order head
  allocated_block : ∀ order head, AllocatedBlock m order head → BlockOk m.layout order head
  free_body : ∀ order head, FreeBlock m order head →
    ∀ q, Inside order head q → q ≠ head → (m.frames q).state = frameBuddy
  allocated_body : ∀ order head, AllocatedBlock m order head →
    ∀ q, Inside order head q → q ≠ head → (m.frames q).state = frameUsed
  lists : ∀ order ≤ maxOrder, ∃ xs, RawList m (m.freeLists order) xs ∧
    ∀ idx, idx ∈ xs ↔ FreeBlock m order idx

variable {order head : Nat} {p : Nat}

section Reading

variable {m : PageAllocator} {owner : Nat → Owner} (ok : PagesOk m owner)
include ok

theorem PagesOk.freeBlock_iff :
    FreeBlock m order head ↔ head < m.layout.managedPageCount ∧ owner head = .free order head := by
  constructor
  · rintro ⟨bound, state⟩
    exact ⟨bound, free_of_tag ok.rep bound (ok.settled head bound) state⟩
  · rintro ⟨bound, owned⟩
    exact ⟨bound, state_of_free ok.rep bound owned⟩

theorem PagesOk.allocatedBlock_iff :
    AllocatedBlock m order head ↔ head < m.layout.managedPageCount ∧ owner head = .allocated order head := by
  constructor
  · rintro ⟨bound, state⟩
    have isHead : isAllocHeadTag (m.frames head).state = true := by
      simp [isAllocHeadTag, state]
    have owned := allocated_of_tag ok.rep bound (ok.settled head bound) isHead
    refine ⟨bound, ?_⟩
    rw [owned, state]
    simp [orderFromAllocTag]
  · rintro ⟨bound, owned⟩
    exact ⟨bound, state_of_allocated ok.rep bound owned⟩

theorem PagesOk.block_of_head (bound : head < m.layout.managedPageCount)
    (block : (owner head).block = some (order, head)) :
    BlockOk m.layout order head ∧ ∀ q, Inside order head q →
      q < m.layout.managedPageCount ∧ owner q = owner head := by
  obtain ⟨blockOk, -, whole⟩ := ok.rep.block head bound order head block
  exact ⟨blockOk, fun q inside => ⟨blockOk.lt ok.rep.layout_ok inside, whole q inside⟩⟩

theorem PagesOk.in_block_iff (bound : p < m.layout.managedPageCount) {o : Owner}
    (block : o.block = some (order, head)) :
    (head < m.layout.managedPageCount ∧ owner head = o) ∧ Inside order head p ↔ owner p = o := by
  constructor
  · rintro ⟨⟨inRange, owned⟩, inside⟩
    rw [((ok.block_of_head inRange (owned ▸ block)).2 p inside).2, owned]
  · rintro rfl
    exact ⟨ok.rep.owner_of_head bound block, (ok.rep.block p bound order head block).2.1⟩

theorem PagesOk.belongs_iff (bound : p < m.layout.managedPageCount) (claimant : Claimant) :
    Belongs m p claimant ↔ owner p = claimant.owner := by
  cases claimant with
  | reserved => exact (ok.reserved p bound).symm
  | allocated order head =>
    simp only [Belongs, ok.allocatedBlock_iff]
    exact ok.in_block_iff bound rfl
  | free order head =>
    simp only [Belongs, ok.freeBlock_iff]
    exact ok.in_block_iff bound rfl

theorem PagesOk.page (bound : p < m.layout.managedPageCount) :
    ∃! claimant, Belongs m p claimant := by
  have named : ∃ claimant : Claimant, owner p = claimant.owner := by
    cases owned : owner p with
    | reserved => exact ⟨.reserved, rfl⟩
    | free order head => exact ⟨.free order head, rfl⟩
    | allocated order head => exact ⟨.allocated order head, rfl⟩
    | held => exact absurd owned (ok.settled p bound)
  obtain ⟨claimant, owned⟩ := named
  refine ⟨claimant, (ok.belongs_iff bound claimant).mpr owned, fun other belongs => ?_⟩
  exact Claimant.owner_inj (((ok.belongs_iff bound other).mp belongs).symm.trans owned)

theorem PagesOk.rawList {xs : List Nat} (list : FreeList m order xs) :
    RawList m (m.freeLists order) xs := by
  have links := ok.rep.links_ge
  refine ⟨list.linked.nodup, list.head, fun l x r split => ?_, fun l x r split => ?_⟩
  · have at' := (split ▸ list.linked).at_middle.1
    rw [← encodeLink_linkOf (links x).2]
    exact congrArg encodeLink at'
  · have at' := (split ▸ list.linked).at_middle.2
    rw [← encodeLink_linkOf (links x).1]
    exact congrArg encodeLink at'

theorem PagesOk.invariant : BuddyInvariant m where
  page := fun _ bound => ok.page bound
  free_block := by
    intro order head block
    obtain ⟨bound, owned⟩ := ok.freeBlock_iff.mp block
    exact (ok.block_of_head bound (by rw [owned]; rfl)).1
  allocated_block := by
    intro order head block
    obtain ⟨bound, owned⟩ := ok.allocatedBlock_iff.mp block
    exact (ok.block_of_head bound (by rw [owned]; rfl)).1
  free_body := by
    intro order head block q inside body
    obtain ⟨bound, owned⟩ := ok.freeBlock_iff.mp block
    obtain ⟨inRange, same⟩ := (ok.block_of_head bound (by rw [owned]; rfl)).2 q inside
    rw [ok.rep.tag q inRange (by simp [same, owned]), same, owned, Owner.tag, if_neg body]
  allocated_body := by
    intro order head block q inside body
    obtain ⟨bound, owned⟩ := ok.allocatedBlock_iff.mp block
    obtain ⟨inRange, same⟩ := (ok.block_of_head bound (by rw [owned]; rfl)).2 q inside
    rw [ok.rep.tag q inRange (by simp [same, owned]), same, owned, Owner.tag, if_neg body]
  lists := by
    intro order small
    obtain ⟨xs, list, members⟩ := ok.rep.lists order small
    exact ⟨xs, ok.rawList list, fun idx => (members idx).trans ok.freeBlock_iff.symm⟩

end Reading

structure LiveOk (layout : Layout) (owner : Nat → Owner) (live : List LiveBlock) : Prop where
  starts : live.Pairwise fun b b' => b.ptr ≠ b'.ptr
  allocated : ∀ b ∈ live, ∃ idx, idx < layout.managedPageCount ∧ indexToPa layout idx = some b.ptr ∧
    owner idx = .allocated b.order idx
  complete : ∀ idx < layout.managedPageCount, ∀ order, owner idx = .allocated order idx →
    ∃ ptr, indexToPa layout idx = some ptr ∧ ⟨ptr, order⟩ ∈ live

variable {layout : Layout}

theorem Layout.Ok.indexToPa_inj (ok : layout.Ok) {idx idx' pa : Nat}
    (left : indexToPa layout idx = some pa) (right : indexToPa layout idx' = some pa) : idx = idx' :=
  Option.some.inj ((ok.indexToPa_iff.mp left).symm.trans (ok.indexToPa_iff.mp right))

variable {live : List LiveBlock} {owner : Nat → Owner} {ptr : Nat}

theorem LiveOk.alloc (ok : layout.Ok) {owner' : Nat → Owner} (liveOk : LiveOk layout owner live)
    (allocates : Allocates layout owner owner' order head) (addr : indexToPa layout head = some ptr) :
    LiveOk layout owner' (⟨ptr, order⟩ :: live) := by
  have keeps : ∀ {idx k}, owner idx = .allocated k idx → ¬ Inside order head idx ∧ owner' idx = owner idx := by
    intro idx k owned
    have busy : ¬ (owner idx).IsFree := by simp [owned, Owner.IsFree]
    have outside : ¬ Inside order head idx := fun inside => busy (allocates.was_free idx inside)
    exact ⟨outside, allocates.other idx outside busy⟩
  refine ⟨List.pairwise_cons.mpr ⟨fun b member same => ?_, liveOk.starts⟩, fun b member => ?_,
    fun idx bound k owned => ?_⟩
  · obtain ⟨idx, -, addr', owned⟩ := liveOk.allocated b member
    have here : ptr = b.ptr := same
    rw [ok.indexToPa_inj addr' (here ▸ addr)] at owned
    exact (keeps owned).1 (inside_start order head)
  · rcases List.mem_cons.mp member with rfl | old
    · exact ⟨head, allocates.block.lt ok (inside_start order head), addr,
        allocates.now head (inside_start order head)⟩
    · obtain ⟨idx, bound, addr', owned⟩ := liveOk.allocated b old
      exact ⟨idx, bound, addr', (keeps owned).2.trans owned⟩
  · by_cases inside : Inside order head idx
    · rw [allocates.now idx inside] at owned
      obtain ⟨rfl, rfl⟩ : order = k ∧ head = idx := by simpa using owned
      exact ⟨ptr, addr, List.mem_cons_self⟩
    · have busy : ¬ (owner idx).IsFree := by
        rw [← allocates.free_iff idx inside, owned]
        exact id
      rw [allocates.other idx inside busy] at owned
      obtain ⟨ptr', addr', member⟩ := liveOk.complete idx bound k owned
      exact ⟨ptr', addr', List.mem_cons_of_mem _ member⟩

theorem LiveOk.free (ok : layout.Ok) {owner' : Nat → Owner} (liveOk : LiveOk layout owner live)
    (frees : Frees layout owner owner' order head) (addr : indexToPa layout head = some ptr) :
    LiveOk layout owner' (live.filter fun block => block.ptr ≠ ptr) := by
  refine ⟨liveOk.starts.filter _, fun b member => ?_, fun idx bound k owned => ?_⟩
  · obtain ⟨old, other⟩ := List.mem_filter.mp member
    obtain ⟨idx, bound, addr', owned⟩ := liveOk.allocated b old
    have outside : ¬ Inside order head idx := by
      intro inside
      have was := frees.was idx inside
      rw [owned] at was
      obtain ⟨-, rfl⟩ : b.order = order ∧ idx = head := by simpa using was
      rw [addr] at addr'
      simp [Option.some.inj addr'] at other
    exact ⟨idx, bound, addr', (frees.other idx outside (by simp [owned, Owner.IsFree])).trans owned⟩
  · have outside : ¬ Inside order head idx := by
      intro inside
      have free := frees.now_free idx inside
      rw [owned] at free
      exact free
    have busy : ¬ (owner idx).IsFree := by
      rw [← frees.free_iff idx outside, owned]
      exact id
    rw [frees.other idx outside busy] at owned
    obtain ⟨ptr', addr', member⟩ := liveOk.complete idx bound k owned
    refine ⟨ptr', addr', List.mem_filter.mpr ⟨member, ?_⟩⟩
    simp only [decide_not, Bool.not_eq_true', decide_eq_false_iff_not]
    rintro rfl
    exact outside (ok.indexToPa_inj addr' addr ▸ inside_start order head)

variable {m : PageAllocator}

theorem LiveOk.ignored (ok : PagesOk m owner) (liveOk : LiveOk m.layout owner live)
    (stale : NotAllocated ptr m owner) :
    (live.filter fun block => block.ptr ≠ ptr) = live := by
  apply List.filter_eq_self.mpr
  intro b member
  obtain ⟨idx, bound, addr, owned⟩ := liveOk.allocated b member
  simp only [decide_not, Bool.not_eq_true', decide_eq_false_iff_not]
  rintro rfl
  rcases stale with zero | unowned
  · exact ok.indexToPa_ne_zero bound (by simp [owned]) (zero ▸ addr)
  · exact unowned idx b.order addr owned

structure RunOk (layout : Layout) (s : PageState) (owner : Nat → Owner) : Prop where
  pages : PagesOk s.pages owner
  layout_eq : s.pages.layout = layout
  live : LiveOk layout owner s.live

theorem pageStep_ok {s : PageState} (ok : RunOk layout s owner) (op : PageOp) :
    ∃ owner', RunOk layout (pageStep s op) owner' := by
  have layoutOk : layout.Ok := ok.layout_eq ▸ ok.pages.rep.layout_ok
  cases op with
  | alloc pages =>
    rcases ok.pages.pAlloc pages with null | ⟨owner', idx, done, ok', nonnull⟩
    · refine ⟨owner, ?_⟩
      simpa [pageStep, null] using ok
    · refine ⟨owner', ok', done.kept.layout.trans ok.layout_eq, ?_⟩
      simp only [pageStep, if_neg nonnull]
      exact ok.live.alloc layoutOk (ok.layout_eq ▸ done.allocates) (ok.layout_eq ▸ done.addr)
  | free ptr =>
    rcases ok.pages.pFree ptr with ⟨same, stale⟩ | ⟨owner', order, idx, done, ok'⟩
    · have kept : (s.live.filter fun block => block.ptr ≠ ptr) = s.live :=
        LiveOk.ignored ok.pages (ok.layout_eq.symm ▸ ok.live) stale
      refine ⟨owner, ?_⟩
      simpa only [pageStep, same, kept] using ok
    · exact ⟨owner', ok', done.kept.layout.trans ok.layout_eq,
        ok.live.free layoutOk (ok.layout_eq ▸ done.frees) (ok.layout_eq ▸ done.addr)⟩

theorem memoryInit_runOk {boot : BootInputs} (started : memoryInit boot = some m) :
    ∃ owner, RunOk m.layout (pageRun [] m) owner ∧ ∀ p < m.layout.managedPageCount, Placed m.layout owner p := by
  obtain ⟨owner, ok, placed, -⟩ := memoryInit_pagesOk started
  refine ⟨owner, ⟨ok, rfl, List.Pairwise.nil, fun b member => ?_, fun idx bound order owned => ?_⟩, placed⟩
  · simp [pageRun] at member
  · have at' := placed idx bound
    unfold Placed at at'
    rw [owned] at at'
    split at at' <;> simp [Owner.IsFree] at at'

theorem pageRun_ok {boot : BootInputs} (started : memoryInit boot = some m) (ops : List PageOp) :
    ∃ owner, RunOk m.layout (pageRun ops m) owner := by
  obtain ⟨owner, ok, -⟩ := memoryInit_runOk started
  unfold pageRun at ok ⊢
  generalize ({ pages := m, live := [] } : PageState) = s at ok ⊢
  induction ops generalizing s owner with
  | nil => exact ⟨owner, ok⟩
  | cons op rest ih =>
    obtain ⟨owner', ok'⟩ := pageStep_ok ok op
    exact ih owner' _ ok'

theorem pageRun_invariant {boot : BootInputs} {m : PageAllocator} (started : memoryInit boot = some m)
    (ops : List PageOp) : BuddyInvariant (pageRun ops m).pages := by
  obtain ⟨owner, ok⟩ := pageRun_ok started ops
  exact ok.pages.invariant

def sampleBoot : BootInputs :=
  { board := .qemu
    memoryRegions := some ⟨[⟨0x80000000, 0x10000⟩, ⟨0x90000000, 0x6000⟩], by decide⟩
    memreserveRegions := some ⟨[], by decide⟩
    reservedMemoryRegions := some ⟨[⟨0x90002000, 0x800⟩], by decide⟩
    dtbAddr := 0xA0000000
    dtbSize := 0x1000
    physStart := 0x80002000
    physEnd := 0x80003000
    initrdStart := 0
    initrdEnd := 0 }

theorem sampleBoot_starts : ∃ m, memoryInit sampleBoot = some m := Option.isSome_iff_exists.mp (by decide +kernel)

theorem pageRun_invariant_sampleBoot : ∃ m, memoryInit sampleBoot = some m ∧
    BuddyInvariant (pageRun [.alloc 3, .alloc 1, .free 0x80004000, .free 7] m).pages := by
  obtain ⟨m, started⟩ := sampleBoot_starts
  exact ⟨m, started, pageRun_invariant started _⟩

end OrangeKernel.Memory
