import OrangeKernel.Memory.Address
import OrangeKernel.Memory.Run

set_option autoImplicit false

namespace OrangeKernel.Memory

open Machine AlignedBlock Intrusive

theorem freelistCountFrom_eq {m : PageAllocator} (links : ∀ p, -1 ≤ (m.frames p).freeNext) {xs : List Nat}
    (chain : Chain (freeLinks m).next none xs) {fuel : Nat} (enough : xs.length ≤ fuel) (n : Nat) :
    freelistCountFrom m fuel (encodeLink xs.head?) n = some (n + xs.length) := by
  induction xs generalizing fuel n with
  | nil => cases fuel <;> simp [freelistCountFrom, encodeLink]
  | cons x xs ih =>
    obtain ⟨fuel, rfl⟩ : ∃ rest, fuel = rest + 1 := ⟨fuel - 1, by simp at enough; omega⟩
    have link : linkOf (m.frames x).freeNext = xs.head? := by simpa [freeLinks] using chain.1
    have step : freelistCountFrom m (fuel + 1) (encodeLink (x :: xs).head?) n =
        freelistCountFrom m fuel (m.frames x).freeNext (n + 1) := by
      simp [freelistCountFrom, encodeLink]
    rw [step, ← encodeLink_linkOf (links x), link, ih chain.2 (by simpa using enough), List.length_cons]
    congr 1
    omega

def listedBlocks (lists : Nat → List Nat) (orders : List Nat) : List (Nat × Nat) :=
  orders.flatMap fun order => (lists order).map fun head => (order, head)

variable {lists : Nat → List Nat} {orders : List Nat}

theorem mem_listedBlocks {b : Nat × Nat} :
    b ∈ listedBlocks lists orders ↔ b.1 ∈ orders ∧ b.2 ∈ lists b.1 := by
  simp only [listedBlocks, List.mem_flatMap, List.mem_map]
  constructor
  · rintro ⟨order, listed, head, member, rfl⟩
    exact ⟨listed, member⟩
  · rintro ⟨listed, member⟩
    exact ⟨b.1, listed, b.2, member, rfl⟩

theorem listedBlocks_nodup (distinct : orders.Nodup)
    (nodup : ∀ order ∈ orders, (lists order).Nodup) : (listedBlocks lists orders).Nodup := by
  refine List.nodup_flatMap.mpr ⟨fun order listed => ?_, distinct.imp fun {order order'} different => ?_⟩
  · exact (nodup order listed).map fun _ _ same => (Prod.mk.inj same).2
  · intro b inLeft inRight
    obtain ⟨_, -, rfl⟩ := List.mem_map.mp inLeft
    obtain ⟨_, -, same⟩ := List.mem_map.mp inRight
    exact different (Prod.mk.inj same).1.symm

theorem foldlM_count {count : Nat → Option Nat}
    (counted : ∀ order ∈ orders, count order = some (lists order).length) (total : Nat) :
    orders.foldlM (fun total order => do
      let blocks ← count order
      return total + blocks <<< order) total =
        some (total + ((listedBlocks lists orders).map fun b => 2 ^ b.1).sum) := by
  induction orders generalizing total with
  | nil => simp [listedBlocks]
  | cons order rest ih =>
    have tail := ih (fun k listed => counted k (List.mem_cons_of_mem _ listed))
      (total + (lists order).length <<< order)
    simp only [List.foldlM_cons, counted order List.mem_cons_self, Option.bind_eq_bind,
      Option.bind_some, Option.pure_def] at tail ⊢
    rw [tail]
    congr 1
    simp [listedBlocks, Nat.shiftLeft_eq, Function.comp_def]
    omega

def freePages (layout : Layout) (owner : Nat → Owner) : Finset Nat :=
  (Finset.range layout.managedPageCount).filter fun p => (owner p).IsFree

def unreservedPages (layout : Layout) : Finset Nat :=
  (Finset.range layout.managedPageCount).filter fun p => pageReserved layout p = false

section Counting

variable {m : PageAllocator} {owner : Nat → Owner} (ok : PagesOk m owner)
include ok

theorem PagesOk.totalFreePagesCount_eq : totalFreePagesCount m = some (freePages m.layout owner).card := by
  choose! lists list members using ok.rep.lists
  have small : ∀ {order}, order ∈ List.range (maxOrder + 1) → order ≤ maxOrder := by
    intro order listed
    exact Nat.le_of_lt_succ (List.mem_range.mp listed)
  have counted : ∀ order ∈ List.range (maxOrder + 1),
      freelistCountOrder m order = some (lists order).length := by
    intro order listed
    have nodup := (list order (small listed)).linked.nodup
    have few : (lists order).length ≤ m.layout.managedPageCount := by
      have subset : (lists order).toFinset ⊆ Finset.range m.layout.managedPageCount := by
        intro idx member
        exact Finset.mem_range.mpr ((members order (small listed) idx).mp (List.mem_toFinset.mp member)).1
      have le := Finset.card_le_card subset
      rwa [List.toFinset_card_of_nodup nodup, Finset.card_range] at le
    rw [freelistCountOrder, (list order (small listed)).head]
    simpa using freelistCountFrom_eq (fun p => (ok.rep.links_ge p).2) (list order (small listed)).linked.1 few 0
  have block : ∀ b ∈ listedBlocks lists (List.range (maxOrder + 1)),
      b.2 < m.layout.managedPageCount ∧ owner b.2 = .free b.1 b.2 := by
    intro b listed
    obtain ⟨inRange, member⟩ := mem_listedBlocks.mp listed
    exact (members b.1 (small inRange) b.2).mp member
  have apart : (listedBlocks lists (List.range (maxOrder + 1))).Pairwise
      fun b b' => ∀ p, Inside b.1 b.2 p → ¬ Inside b'.1 b'.2 p := by
    have nodup := listedBlocks_nodup List.nodup_range
      fun order listed => (list order (small listed)).linked.nodup
    refine nodup.imp_of_mem fun {b b'} left right different p inside inside' => different ?_
    obtain ⟨bound, owned⟩ := block b left
    obtain ⟨bound', owned'⟩ := block b' right
    have here := ((ok.block_of_head bound (by rw [owned]; rfl)).2 p inside).2
    have there := ((ok.block_of_head bound' (by rw [owned']; rfl)).2 p inside').2
    rw [here, owned, owned'] at there
    obtain ⟨order, head⟩ : b.1 = b'.1 ∧ b.2 = b'.2 := by simpa using there
    exact Prod.ext order head
  rw [totalFreePagesCount, foldlM_count counted, Nat.zero_add, sum_sizes apart (freePages m.layout owner)]
  intro p
  rw [freePages, Finset.mem_filter, Finset.mem_range]
  constructor
  · rintro ⟨bound, free⟩
    obtain ⟨order, head, owned⟩ := Owner.isFree_iff.mp free
    obtain ⟨⟨headBound, headOwned⟩, inside⟩ := (ok.in_block_iff bound rfl).mpr owned
    have order_le := (ok.block_of_head headBound (by rw [headOwned]; rfl)).1.1
    refine ⟨(order, head), mem_listedBlocks.mpr ⟨List.mem_range.mpr (Nat.lt_succ_of_le order_le), ?_⟩, inside⟩
    exact (members order order_le head).mpr ⟨headBound, headOwned⟩
  · rintro ⟨b, listed, inside⟩
    obtain ⟨bound, owned⟩ := block b listed
    obtain ⟨inRange, same⟩ := (ok.block_of_head bound (by rw [owned]; rfl)).2 p inside
    exact ⟨inRange, by rw [same, owned]; trivial⟩

theorem PagesOk.freePages_subset : freePages m.layout owner ⊆ unreservedPages m.layout := by
  intro p member
  obtain ⟨inRange, free⟩ := Finset.mem_filter.mp member
  refine Finset.mem_filter.mpr ⟨inRange, ?_⟩
  rw [← Bool.not_eq_true, ← ok.reserved p (Finset.mem_range.mp inRange)]
  intro reserved
  rw [reserved] at free
  exact free

theorem PagesOk.sum_live {live : List LiveBlock} (liveOk : LiveOk m.layout owner live) :
    (live.map fun b => 2 ^ b.order).sum = (unreservedPages m.layout \ freePages m.layout owner).card := by
  have layoutOk := ok.rep.layout_ok
  let block : LiveBlock → Nat × Nat := fun b => (b.order, (paToIndex m.layout b.ptr).getD 0)
  have at' : ∀ b ∈ live, (block b).2 < m.layout.managedPageCount ∧
      indexToPa m.layout (block b).2 = some b.ptr ∧ owner (block b).2 = .allocated (block b).1 (block b).2 := by
    intro b member
    obtain ⟨idx, bound, addr, owned⟩ := liveOk.allocated b member
    have index : (block b).2 = idx := by simp [block, layoutOk.indexToPa_iff.mp addr]
    rw [index]
    exact ⟨bound, addr, owned⟩
  have apart : (live.map block).Pairwise fun b b' => ∀ p, Inside b.1 b.2 p → ¬ Inside b'.1 b'.2 p := by
    refine List.pairwise_map.mpr (liveOk.starts.imp_of_mem fun {b b'} left right different p inside inside' => ?_)
    obtain ⟨bound, addr, owned⟩ := at' b left
    obtain ⟨bound', addr', owned'⟩ := at' b' right
    have here := ((ok.block_of_head bound (by rw [owned]; rfl)).2 p inside).2
    have there := ((ok.block_of_head bound' (by rw [owned']; rfl)).2 p inside').2
    rw [here, owned, owned'] at there
    obtain ⟨-, head⟩ : (block b).1 = (block b').1 ∧ (block b).2 = (block b').2 := by simpa using there
    rw [head, addr'] at addr
    exact different (Option.some.inj addr).symm
  have sizes := sum_sizes apart (unreservedPages m.layout \ freePages m.layout owner)
  rw [List.map_map] at sizes
  refine sizes fun p => ?_
  rw [Finset.mem_sdiff, freePages, unreservedPages, Finset.mem_filter, Finset.mem_filter, Finset.mem_range]
  constructor
  · rintro ⟨⟨bound, unreserved⟩, busy⟩
    cases owned : owner p with
    | reserved => simp [(ok.reserved p bound).mp owned] at unreserved
    | free order head => exact absurd ⟨bound, by rw [owned]; trivial⟩ busy
    | held => exact absurd owned (ok.settled p bound)
    | allocated order head =>
      obtain ⟨⟨headBound, headOwned⟩, inside⟩ := (ok.in_block_iff bound rfl).mpr owned
      obtain ⟨ptr, addr, member⟩ := liveOk.complete head headBound order headOwned
      have same : block ⟨ptr, order⟩ = (order, head) := by simp [block, layoutOk.indexToPa_iff.mp addr]
      exact ⟨(order, head), List.mem_map.mpr ⟨_, member, same⟩, inside⟩
  · rintro ⟨_, listed, inside⟩
    obtain ⟨b, member, rfl⟩ := List.mem_map.mp listed
    obtain ⟨bound, -, owned⟩ := at' b member
    obtain ⟨inRange, same⟩ := (ok.block_of_head bound (by rw [owned]; rfl)).2 p inside
    rw [owned] at same
    refine ⟨⟨inRange, ?_⟩, fun free => ?_⟩
    · rw [← Bool.not_eq_true, ← ok.reserved p inRange, same]
      simp
    · rw [same] at free
      exact free.2

end Counting

def FreePage (m : PageAllocator) (p : Nat) : Prop :=
  ∃ order head, FreeBlock m order head ∧ Inside order head p

structure AllocSound (s : PageState) (pages ptr : Nat) : Prop where
  aligned : ptr % pageSize = 0
  enough : pages ≤ 2 ^ Nat.clog 2 pages
  block : ∃ r ∈ s.pages.layout.regions, ∃ head, r.firstIdx ≤ head ∧
    head + 2 ^ Nat.clog 2 pages ≤ r.firstIdx + r.pageCount ∧ ptr = r.base + (head - r.firstIdx) * pageSize ∧
    ∀ q, Inside (Nat.clog 2 pages) head q → FreePage s.pages q ∧ pageReserved s.pages.layout q = false
  apart : ∀ b ∈ s.live, RangesApart ptr (2 ^ Nat.clog 2 pages * pageSize) b.ptr (2 ^ b.order * pageSize)

theorem PagesOk.freePage_iff {m : PageAllocator} {owner : Nat → Owner} (ok : PagesOk m owner) {p : Nat}
    (bound : p < m.layout.managedPageCount) : FreePage m p ↔ (owner p).IsFree := by
  rw [Owner.isFree_iff]
  simp only [FreePage, ok.freeBlock_iff]
  constructor
  · rintro ⟨order, head, inBlock⟩
    exact ⟨order, head, (ok.in_block_iff bound rfl).mp inBlock⟩
  · rintro ⟨order, head, owned⟩
    exact ⟨order, head, (ok.in_block_iff bound rfl).mpr owned⟩

theorem RunOk.allocSound {layout : Layout} {s : PageState} {owner : Nat → Owner} (ok : RunOk layout s owner)
    {pages : Nat} (nonnull : (pAlloc pages s.pages).1 ≠ 0) : AllocSound s pages (pAlloc pages s.pages).1 := by
  obtain rfl := ok.layout_eq
  have layoutOk := ok.pages.rep.layout_ok
  rcases ok.pages.pAlloc pages with null | ⟨owner', idx, done, -, -⟩
  · exact absurd (congrArg Prod.fst null) nonnull
  have block := done.allocates.block
  have region := block
  obtain ⟨-, r, member, low, high, -⟩ := region
  have pos := Nat.two_pow_pos (Nat.clog 2 pages)
  have contains : r.Contains idx := by unfold MemRegionInfo.Contains; omega
  have addr : r.addr idx = (pAlloc pages s.pages).1 :=
    Option.some.inj ((layoutOk.indexToPa_eq member contains).symm.trans done.addr)
  have free : ∀ q, Inside (Nat.clog 2 pages) idx q →
      FreePage s.pages q ∧ pageReserved s.pages.layout q = false := by
    intro q inside
    have bound := block.lt layoutOk inside
    have was := done.allocates.was_free q inside
    refine ⟨(ok.pages.freePage_iff bound).mpr was, ?_⟩
    rw [← Bool.not_eq_true, ← ok.pages.reserved q bound]
    intro reserved
    rw [reserved] at was
    exact was
  refine ⟨?_, Nat.le_pow_clog (by decide) pages, ⟨r, member, idx, low, high, addr.symm, free⟩, fun b live => ?_⟩
  · rw [← addr]
    exact (layoutOk.region r member).addr_aligned idx
  · obtain ⟨idx', bound', addr', owned⟩ := ok.live.allocated b live
    obtain ⟨block', same⟩ := ok.pages.block_of_head bound' (by rw [owned]; rfl)
    refine blocks_apart layoutOk block done.addr block' addr' fun q inside inside' => ?_
    have was := done.allocates.was_free q inside
    rw [(same q inside').2, owned] at was
    exact was

theorem RunOk.accounting {layout : Layout} {s : PageState} {owner : Nat → Owner} (ok : RunOk layout s owner) :
    ∃ free, totalFreePagesCount s.pages = some free ∧
      free + (s.live.map fun b => 2 ^ b.order).sum = (unreservedPages layout).card := by
  obtain rfl := ok.layout_eq
  refine ⟨_, ok.pages.totalFreePagesCount_eq, ?_⟩
  rw [ok.pages.sum_live ok.live, Nat.add_comm]
  exact Finset.card_sdiff_add_card_eq_card ok.pages.freePages_subset

theorem pageRun_accounting {boot : BootInputs} {m : PageAllocator} (started : memoryInit boot = some m)
    (ops : List PageOp) :
    (∀ pages, (pAlloc pages (pageRun ops m).pages).1 ≠ 0 →
      AllocSound (pageRun ops m) pages (pAlloc pages (pageRun ops m).pages).1) ∧
    ∃ free total, totalFreePagesCount (pageRun ops m).pages = some free ∧
      totalFreePagesCount m = some total ∧ total = (unreservedPages m.layout).card ∧
      free + ((pageRun ops m).live.map fun b => 2 ^ b.order).sum = total := by
  obtain ⟨owner, ok⟩ := pageRun_ok started ops
  obtain ⟨owner₀, ok₀⟩ := pageRun_ok started []
  obtain ⟨free, counted, sum⟩ := ok.accounting
  obtain ⟨total, counted₀, sum₀⟩ := ok₀.accounting
  have initial : total = (unreservedPages m.layout).card := by simpa [pageRun] using sum₀
  exact ⟨fun pages nonnull => ok.allocSound nonnull, free, total, counted, counted₀, initial,
    sum.trans initial.symm⟩

theorem pageRun_accounting_sampleBoot : ∃ m, memoryInit sampleBoot = some m ∧
    (pAlloc 3 (pageRun [.alloc 1] m).pages).1 ≠ 0 ∧
    AllocSound (pageRun [.alloc 1] m) 3 (pAlloc 3 (pageRun [.alloc 1] m).pages).1 := by
  have result : (memoryInit sampleBoot).any fun m => (pAlloc 3 (pageRun [.alloc 1] m).pages).1 ≠ 0 := by
    decide +kernel
  obtain ⟨m, started⟩ := sampleBoot_starts
  have nonnull : (pAlloc 3 (pageRun [.alloc 1] m).pages).1 ≠ 0 := by simpa [started] using result
  exact ⟨m, started, nonnull, (pageRun_accounting started [.alloc 1]).1 3 nonnull⟩

end OrangeKernel.Memory
