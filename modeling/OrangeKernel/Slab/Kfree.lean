import OrangeKernel.Slab.Kmalloc

set_option autoImplicit false

namespace OrangeKernel.Slab

open Function Machine Memory ByteMemory Intrusive AlignedBlock

variable {mem : Mem}

theorem freelistContainsFrom_eq {obj fuel cur : Nat} {xs : List Nat}
    (chain : Chain (fun o => ptrOf (chunkNext o mem)) none xs) (head : cur = encodePtr xs.head?)
    (nonnull : ∀ o ∈ xs, o ≠ 0) (enough : xs.length ≤ fuel) :
    freelistContainsFrom obj mem fuel cur = some (decide (obj ∈ xs)) := by
  induction xs generalizing cur fuel with
  | nil =>
    subst head
    cases fuel <;> rfl
  | cons o xs ih =>
    obtain rfl : cur = o := head
    obtain ⟨fuel, rfl⟩ : ∃ k, fuel = k + 1 := Nat.exists_eq_succ_of_ne_zero (by simp at enough; omega)
    have next : chunkNext cur mem = encodePtr xs.head? := by
      have link : ptrOf (chunkNext cur mem) = xs.head? := by simpa using chain.1
      rw [← link, encodePtr_ptrOf]
    have rest := @ih fuel _ chain.2 next (fun x member => nonnull x (List.mem_cons_of_mem _ member))
      (by simpa using enough)
    rw [freelistContainsFrom, if_neg (nonnull cur List.mem_cons_self)]
    by_cases here : cur = obj
    · simp [here]
    · rw [if_neg here, rest]
      simp [Ne.symm here]

structure Removes (h : Heap) (owner : Nat → Owner) (slab : Nat → Option SlabView) (h' : Heap)
    (owner' : Nat → Owner)
    (slab' : Nat → Option SlabView) (x : Allocation) : Prop where
  ok : HeapOk h' owner' slab'
  held : Allocated h owner slab x
  shrunk : ∀ y, Allocated h' owner' slab' y ↔ Allocated h owner slab y ∧ y ≠ x

theorem count_pred {allocs frees : UInt64} {total : Nat} (count : allocs - frees = UInt64.ofNat (total + 1)) :
    allocs - (frees + 1) = UInt64.ofNat total := by
  rw [UInt64.ofNat_add] at count
  have step : allocs - (frees + 1) = allocs - frees - 1 := by grind
  rw [step, count]
  grind

variable {h' : Heap}

section Release

variable {h : Heap} {owner : Nat → Owner} {slab : Nat → Option SlabView} {a : Nat} {s : SlabView} {o : Nat}

theorem SlabAt.taken_le {array : CacheArray} (slabAt : SlabAt array mem a s) {taken : List Nat}
    (distinct : taken.Nodup) (objects : ∀ x ∈ taken, IsObject s.cls a x ∧ x ∉ s.free) :
    taken.length + s.free.length ≤ slabCapacity s.cls := by
  have apart : taken.Disjoint s.free := fun x member => (objects x member).2
  have nodup : (taken ++ s.free).Nodup := distinct.append (chain_nodup slabAt.freelist.chain) apart
  have inside : taken ++ s.free ⊆ carvedObjects s.cls a (slabCapacity s.cls) := by
    intro x member
    apply mem_carvedObjects.mpr
    rcases List.mem_append.mp member with used | free
    · exact (objects x used).1
    · exact slabAt.freelist.objects x free
  have length := (nodup.subperm inside).length_le
  rwa [List.length_append, length_carvedObjects] at length

theorem SlabAt.used {array : CacheArray} (slabAt : SlabAt array mem a s) (object : IsObject s.cls a o)
    (absent : o ∉ s.free) : s.free.length < slabCapacity s.cls := by
  have fits := slabAt.taken_le (List.nodup_singleton o) (by simpa using ⟨object, absent⟩)
  rw [List.length_singleton] at fits
  omega

theorem allocated_putBack (found : slab a = some s) (aligned : pageSize ∣ a) (object : IsObject s.cls a o)
    (rep : SlabRep h slab) (pages : h'.pages = h.pages) (list : Option SlabState) (y : Allocation) :
    Allocated h' owner (update slab a (some { s with
        free := o :: s.free
        listed := list })) y ↔ Allocated h owner slab y ∧ y ≠ .object s.cls o := by
  cases y with
  | object c o' =>
    rw [allocated_object_update, allocated_object_split found]
    constructor
    · rintro (⟨rfl, object', used⟩ | ⟨b, t, other, foundB, rfl, object', used⟩)
      · simp only [List.mem_cons, not_or] at used
        exact ⟨Or.inl ⟨rfl, object', used.2⟩, by simp [used.1]⟩
      · refine ⟨Or.inr ⟨b, t, other, foundB, rfl, object', used⟩, ?_⟩
        rintro same
        obtain ⟨-, rfl⟩ : t.cls = s.cls ∧ o' = o := by simpa using same
        exact other (object'.page_unique object (rep.slab_at b t foundB).aligned aligned)
    · rintro ⟨⟨rfl, object', used⟩ | other, different⟩
      · refine Or.inl ⟨rfl, object', ?_⟩
        simp only [List.mem_cons, not_or]
        exact ⟨fun same => different (by rw [same]), used⟩
      · exact Or.inr other
  | large order ptr =>
    simp only [ne_eq, reduceCtorEq, not_false_eq_true, and_true]
    exact blockAt_congr pages .large order ptr
  | direct order ptr =>
    simp only [ne_eq, reduceCtorEq, not_false_eq_true, and_true]
    exact blockAt_congr pages .none order ptr

variable (ok : HeapOk h owner slab) (found : slab a = some s) (object : IsObject s.cls a o) (absent : o ∉ s.free)
include ok found object absent

theorem HeapOk.putObject :
    ∃ h₁, Slab.putObject s.cls a o h = some h₁ ∧
      SameRest { h with objectFreeCount := h.objectFreeCount + 1 } h₁ ∧
      SlabRep h₁ (update slab a (some { s with
        free := o :: s.free
        listed := some .slabPartial })) := by
  have slabAt := ok.heap.rep.slab_at a s found
  have used := slabAt.used object absent
  have filled := ok.filled a s found
  have put := ok.heap.rep.putBack found object absent used
  have foundNow : update slab a (some { s with free := o :: s.free }) a =
      some { s with free := o :: s.free } := by simp
  have state := (put.slab_at a _ foundNow).state
  unfold Slab.putObject
  rw [ok.heap.rep.sizes]
  dsimp only at state ⊢
  generalize setField .inuse a _ _ = mem at *
  cases listed : s.listed with
  | none => simp [SlabFilled, listed] at filled
  | some st =>
    rw [state st listed]
    cases st with
    | slabEmpty =>
      -- Every object of an empty slab is free, but this one is not.
      simp only [SlabFilled, listed] at filled
      omega
    | slabPartial =>
      refine ⟨_, if_neg (by decide), ⟨rfl, rfl, rfl, rfl, rfl, rfl⟩, ?_⟩
      rw [← listed]
      exact put.frame rfl rfl (fun _ _ _ _ => rfl) fun _ _ _ _ _ => rfl
    | slabFull =>
      have counted : SlabRep { h with
          mem := mem
          objectFreeCount := h.objectFreeCount + 1 } (update slab a (some { s with free := o :: s.free })) :=
        put.frame rfl rfl (fun _ _ _ _ => rfl) fun _ _ _ _ _ => rfl
      obtain ⟨h₁, moves, rep₁, rest⟩ := counted.move foundNow listed .slabPartial
      rw [update_idem] at rep₁
      refine ⟨h₁, ?_, ⟨rest.pages, rest.array, rest.allocs, rest.frees, rest.reclaims, rest.ready⟩, rep₁⟩
      rw [if_pos rfl, cacheMoveFullToPartial, if_neg slabAt.pos.ne']
      exact moves

omit object absent in
theorem HeapOk.count_released {new : Option SlabView} (fewer : inuseOf new + 1 = inuseOf (some s)) :
    h.objectAllocCount - (h.objectFreeCount + 1) =
      UInt64.ofNat (inuseTotal h.pages.layout (update slab a new)) := by
  obtain ⟨idx, bound, addr, -, -⟩ := ok.heap.slab_page a s found
  have moved := inuseTotal_update ok.heap.pages.rep.layout_ok slab bound addr new
  have count := ok.count
  rw [found] at moved
  apply count_pred
  rw [count]
  congr 1
  omega

theorem HeapOk.removes_object {list : SlabState}
    (rest : SameRest { h with objectFreeCount := h.objectFreeCount + 1 } h')
    (rep : SlabRep h' (update slab a (some { s with
      free := o :: s.free
      listed := some list }))) (filled : SlabFilled { s with
      free := o :: s.free
      listed := some list }) (one : OneEmpty (update slab a (some { s with
      free := o :: s.free
      listed := some list }))) :
    Removes h owner slab h' owner (update slab a (some { s with
      free := o :: s.free
      listed := some list })) (.object s.cls o) := by
  have slabAt := ok.heap.rep.slab_at a s found
  have used := slabAt.used object absent
  have heap := ok.heap.counters h.objectAllocCount (h.objectFreeCount + 1) h.slabReclaimCount
  refine ⟨⟨heap.reslab found rep rest, fun b t foundB => ?_, one, ?_⟩, ⟨a, s, found, rfl, object, absent⟩,
    allocated_putBack found slabAt.aligned object ok.heap.rep rest.pages _⟩
  · by_cases here : b = a
    · subst here
      obtain rfl : _ = t := by simpa using foundB
      exact filled
    · exact ok.filled b t (by simpa [here] using foundB)
  · rw [rest.allocs, rest.frees, rest.pages]
    apply ok.count_released found
    simp only [inuseOf, List.length_cons]
    omega

theorem HeapOk.removes_slab {owner' : Nat → Owner} (last : s.free.length + 1 = slabCapacity s.cls)
    (heap : HeapRep h' owner' (update slab a none)) (layout : h'.pages.layout = h.pages.layout)
    (allocs : h'.objectAllocCount = h.objectAllocCount) (frees : h'.objectFreeCount = h.objectFreeCount + 1)
    (blocks : ∀ kind order ptr, kind ≠ .slab →
      (BlockAt h' owner' kind order ptr ↔ BlockAt h owner kind order ptr)) :
    Removes h owner slab h' owner' (update slab a none) (.object s.cls o) := by
  have slabAt := ok.heap.rep.slab_at a s found
  have kept : ∀ {b t}, update slab a none b = some t → b ≠ a ∧ slab b = some t := by
    intro b t foundB
    have here : b ≠ a := by
      rintro rfl
      simp at foundB
    exact ⟨here, by simpa [here] using foundB⟩
  refine ⟨⟨heap, fun b t foundB => ok.filled b t (kept foundB).2, ?_, ?_⟩, ⟨a, s, found, rfl, object, absent⟩,
    fun y => ?_⟩
  · intro b b' t t' foundB foundB'
    exact ok.one_empty b b' t t' (kept foundB).2 (kept foundB').2
  · rw [layout, allocs, frees]
    apply ok.count_released found
    simp only [inuseOf]
    omega
  cases y with
  | object c o' =>
    constructor
    · rintro ⟨b, t, foundB, rfl, object', used⟩
      obtain ⟨other, foundT⟩ := kept foundB
      refine ⟨⟨b, t, foundT, rfl, object', used⟩, fun same => ?_⟩
      obtain ⟨-, rfl⟩ : t.cls = s.cls ∧ o' = o := by simpa using same
      exact other (object'.page_unique object (ok.heap.rep.slab_at b t foundT).aligned slabAt.aligned)
    · rintro ⟨⟨b, t, foundB, rfl, object', used⟩, different⟩
      by_cases here : b = a
      · -- With both objects in use the slab would not be on its last one.
        subst here
        obtain rfl : s = t := Option.some.inj (found.symm.trans foundB)
        have distinct : [o', o].Nodup := by
          have other : o' ≠ o := fun same => different (by rw [same])
          simpa using other
        have fits := slabAt.taken_le distinct (by simp [object, object', absent, used])
        simp only [List.length_cons, List.length_nil] at fits
        omega
      · exact ⟨b, t, by simpa [here] using foundB, rfl, object', used⟩
  | large order ptr =>
    simp only [ne_eq, reduceCtorEq, not_false_eq_true, and_true]
    exact blocks .large order ptr (by decide)
  | direct order ptr =>
    simp only [ne_eq, reduceCtorEq, not_false_eq_true, and_true]
    exact blocks .none order ptr (by decide)

theorem HeapOk.retireSlab {h₁ : Heap} (rest₁ : SameRest { h with objectFreeCount := h.objectFreeCount + 1 } h₁)
    (rep₁ : SlabRep h₁ (update slab a (some { s with
      free := o :: s.free
      listed := some .slabPartial })))
    (last : s.free.length + 1 = slabCapacity s.cls) :
    ∃ h' owner' slab', Slab.retireSlab s.cls a h₁ = some h' ∧
      Removes h owner slab h' owner' slab' (.object s.cls o) := by
  have slabAt := ok.heap.rep.slab_at a s found
  have heap := ok.heap.counters h.objectAllocCount (h.objectFreeCount + 1) h.slabReclaimCount
  obtain ⟨h₂, removes, rep₂, rest₂⟩ := rep₁.cacheRemoveSlab (update_self _ _ _) rfl
  rw [update_idem] at rep₂
  have found₂ : update slab a (some { s with
      free := o :: s.free
      listed := none }) a = some { s with
        free := o :: s.free
        listed := none } := by simp
  unfold Slab.retireSlab
  simp only [removes, Option.bind_eq_bind, Option.bind_some]
  by_cases first : (h₂.caches s.cls).slabsEmpty = 0
  · rw [if_pos first]
    obtain ⟨rep₃, rest₃⟩ := rep₂.cacheAdd found₂ rfl .slabEmpty
    rw [update_idem] at rep₃
    have only : ∀ b t, b ≠ a → slab b = some t → t.cls = s.cls → t.listed ≠ some .slabEmpty := by
      intro b t other foundB cls
      have foundT : update slab a (some { s with
          free := o :: s.free
          listed := none }) b = some t := by simpa [other] using foundB
      exact rep₂.none_of_head s.cls .slabEmpty first foundT cls
    refine ⟨_, owner, _, rfl,
      ok.removes_object found object absent ((rest₁.trans rest₂).trans rest₃) rep₃ last
      (ok.one_empty.insert only)⟩
  · rw [if_neg first]
    obtain ⟨idx, bound, addr, owned, kind'⟩ := ok.heap.slab_page a s found
    have heap₂ := heap.reslab found rep₂ (rest₁.trans rest₂)
    have pages : h₂.pages = h.pages := (rest₁.trans rest₂).pages
    have cleared : ∀ x, x < a ∨ a + pageSize ≤ x →
        (fill a pageSize poisonReclaimPage (setField .freelist a 0 (setField .cache a 0
          (setField .magic a 0 h₂.mem)))).byte x = h₂.mem.byte x := by
      intro x outside
      have header : ∀ field : HeaderField, x < a + field.offset ∨ a + field.offset + field.width ≤ x := by
        intro field
        have inside := field_bounds field
        unfold slabHeaderSize at inside
        unfold pageSize at outside
        omega
      unfold setField
      rw [fill_outside outside, store_outside (header _), store_outside (header _), store_outside (header _)]
    have forgot := rep₂.forget found₂ rfl (rep₂.others_of_bytes slabAt.aligned cleared)
    rw [update_idem] at forgot
    generalize fill a pageSize poisonReclaimPage _ = wiped at *
    have counted : SlabRep { h₂ with
        mem := wiped
        slabReclaimCount := h₂.slabReclaimCount + 1 } (update slab a none) :=
      forgot.frame rfl rfl (fun _ _ _ _ => rfl) fun _ _ _ _ _ => rfl
    obtain ⟨owner', heap', layout, blocks⟩ :=
      heap₂.giveBack (pages ▸ bound) (pages ▸ addr) owned slabAt.pos.ne'
      counted heap₂.ready (fun b other => by simp [other]) (update_self _ _ _)
    refine ⟨_, owner', _, rfl, ok.removes_slab found object absent last heap' (layout.trans (by rw [pages]))
      (rest₁.trans rest₂).allocs (rest₁.trans rest₂).frees fun kind order ptr notSlab => ?_⟩
    refine (blocks kind order ptr).trans ((and_congr_left' (blockAt_congr pages kind order ptr)).trans ?_)
    -- The block at `a` is the slab itself.
    refine and_iff_left_of_imp ?_
    rintro ⟨p, -, addrP, -, kindP⟩ rfl
    obtain rfl := ok.heap.pages.rep.layout_ok.indexToPa_inj addrP addr
    exact notSlab (kindP.symm.trans kind')

theorem HeapOk.releaseObject :
    ∃ h' owner' slab', Slab.releaseObject s.cls a o h = some h' ∧
      Removes h owner slab h' owner' slab' (.object s.cls o) := by
  obtain ⟨h₁, puts, rest₁, rep₁⟩ := ok.putObject found object absent
  have slabAt := ok.heap.rep.slab_at a s found
  have used := slabAt.used object absent
  have found₁ : update slab a (some { s with
      free := o :: s.free
      listed := some .slabPartial }) a = some { s with
        free := o :: s.free
        listed := some .slabPartial } := by simp
  have slabAt₁ := rep₁.slab_at a _ found₁
  have count := slabAt₁.inuse
  simp only [List.length_cons] at count
  unfold Slab.releaseObject
  simp only [puts, Option.bind_eq_bind, Option.bind_some]
  by_cases drained : getField .inuse a h₁.mem = 0
  · rw [if_pos drained]
    exact ok.retireSlab found object absent rest₁ rep₁ (by omega)
  · -- The state is PARTIAL already.
    have same : setField .state a SlabState.slabPartial.code h₁.mem = h₁.mem := by
      rw [← slabAt₁.state .slabPartial rfl]
      exact store_load _ _ _
    rw [if_neg drained, same]
    refine ⟨h₁, owner, _, rfl, ok.removes_object found object absent rest₁ rep₁ ?_
      (ok.one_empty.update a (by simp))⟩
    simp only [SlabFilled, List.length_cons]
    omega

end Release

variable {ptr : Nat}

section Kfree

variable {h : Heap} {owner : Nat → Owner} {slab : Nat → Option SlabView} (ok : HeapOk h owner slab)
include ok

theorem HeapOk.kfreeSlab {a : Nat} {s : SlabView} (found : slab a = some s) (ptr : Nat) :
    (Slab.kfreeSlab a ptr h = some h ∧ ¬ (IsObject s.cls a ptr ∧ ptr ∉ s.free)) ∨
      (IsObject s.cls a ptr ∧ ptr ∉ s.free) ∧ ∃ h' owner' slab', Slab.kfreeSlab a ptr h = some h' ∧
        Removes h owner slab h' owner' slab' (.object s.cls ptr) := by
  have slabAt := ok.heap.rep.slab_at a s found
  have cachePos := (cachePtr_bounds h.cacheArray s.cls).1
  have size := (class_bounds s.cls).1
  obtain ⟨-, -, -, -, fits⟩ := object_bounds s.cls
  have bound := slabAt.bound
  have start := slabObjectStart_eq slabAt.aligned slabAt.pos (Nat.le_of_lt bound) s.cls
  have count := slabAt.inuse
  have noWrap : a + firstObject s.cls + kmallocClasses s.cls * slabCapacity s.cls < 2 ^ 64 := by
    rw [Nat.mul_comm]
    omega
  unfold Slab.kfreeSlab
  rw [slabAt.magic, slabAt.cache, slabAt.capacity, cacheOfPtr_eq]
  simp only [ne_eq, not_true_eq_false, if_false, cachePos.ne', Option.bind_eq_bind, Option.bind_some,
    ok.heap.rep.sizes, show kmallocClasses s.cls ≠ 0 by omega, start, wrap64_of_lt noWrap]
  have checks := @isObject_iff s.cls a ptr
  by_cases range : ptr < a + firstObject s.cls ∨
      a + firstObject s.cls + kmallocClasses s.cls * slabCapacity s.cls ≤ ptr
  · exact Or.inl ⟨if_pos range, fun both => by have inRange := checks.mp both.1; omega⟩
  rw [if_neg range]
  by_cases stride : (ptr - (a + firstObject s.cls)) % kmallocClasses s.cls = 0
  swap
  · exact Or.inl ⟨if_pos stride, fun both => stride (checks.mp both.1).2.2⟩
  rw [if_neg (not_not_intro stride)]
  have object : IsObject s.cls a ptr := checks.mpr ⟨by omega, by omega, stride⟩
  by_cases unused : getField .inuse a h.mem = 0
  · refine Or.inl ⟨if_pos unused, fun both => ?_⟩
    have used := slabAt.used both.1 both.2
    omega
  have nonnull : ∀ o ∈ s.free, o ≠ 0 := fun o member =>
    (slabAt.page.object_fits (slabAt.freelist.objects o member)).1
  have few : s.free.length ≤ pageSize := by
    have room := Nat.le_mul_of_pos_right (slabCapacity s.cls) (show 0 < kmallocClasses s.cls by omega)
    omega
  rw [if_neg unused, slabFreelistContains, if_neg (by simp [slabAt.pos.ne', (slabAt.page.object_fits object).1]),
    freelistContainsFrom_eq slabAt.freelist.chain slabAt.freelist.head nonnull few]
  by_cases free : ptr ∈ s.free
  · exact Or.inl ⟨by simp [free], fun both => both.2 free⟩
  · obtain ⟨h', owner', slab', releases, removes⟩ := ok.releaseObject found object free
    exact Or.inr ⟨⟨object, free⟩, h', owner', slab', by simp [free, releases], removes⟩

theorem HeapOk.removes_block {x : Allocation} (held : Allocated h owner slab x) (block : x.kind ≠ .slab)
    {pages : PageAllocator} {owner' : Nat → Owner} (heap' : HeapRep { h with pages := pages } owner' slab)
    (layout : pages.layout = h.pages.layout)
    (blocks : ∀ kind order ptr, BlockAt { h with pages := pages } owner' kind order ptr ↔
      BlockAt h owner kind order ptr ∧ ptr ≠ x.ptr) :
    Removes h owner slab { h with pages := pages } owner' slab x := by
  refine ⟨⟨heap', ok.filled, ok.one_empty, ?_⟩, held, fun y => ?_⟩
  · dsimp only
    rw [layout]
    exact ok.count
  have unique := fun {kind kind' order order' ptr} => @blockAt_unique h owner slab ok.heap kind kind' order order' ptr
  cases y with
  | object c o =>
    have other : Allocation.object c o ≠ x := by
      rintro rfl
      exact block rfl
    simp [Allocated, other]
  | large order ptr =>
    refine (blocks .large order ptr).trans (and_congr_right fun atPtr => not_congr ?_)
    cases x with
    | object c o => exact absurd rfl block
    | large order' ptr' =>
      constructor
      · rintro rfl
        rw [(unique atPtr held).2]
      · exact fun same => (Allocation.large.inj same).2
    | direct order' ptr' =>
      constructor
      · rintro rfl
        exact absurd (unique atPtr held).1 (by decide)
      · simp
  | direct order ptr =>
    refine (blocks .none order ptr).trans (and_congr_right fun atPtr => not_congr ?_)
    cases x with
    | object c o => exact absurd rfl block
    | large order' ptr' =>
      constructor
      · rintro rfl
        exact absurd (unique atPtr held).1 (by decide)
      · simp
    | direct order' ptr' =>
      constructor
      · rintro rfl
        rw [(unique atPtr held).2]
      · exact fun same => (Allocation.direct.inj same).2

theorem HeapOk.removes_large {order : Nat} (held : Allocated h owner slab (.large order ptr)) :
    ∃ owner', Removes h owner slab { h with pages := pFree ptr (pageSetKind ptr .none h.pages) } owner' slab
      (.large order ptr) := by
  have block : BlockAt h owner _ order ptr := held
  obtain ⟨idx, bound, addr, owned, kind⟩ := block
  have nonnull : ptr ≠ 0 := by
    rintro rfl
    exact ok.heap.pages.indexToPa_ne_zero bound (by simp [owned]) addr
  have noSlab := ok.heap.none_of_kind addr (by simp [kind])
  obtain ⟨owner', heap', layout, blocks⟩ := ok.heap.giveBack bound addr owned nonnull ok.heap.rep ok.heap.ready
    (fun _ _ => rfl) noSlab
  exact ⟨owner', ok.removes_block held (by simp [Allocation.kind]) heap' layout blocks⟩

theorem HeapOk.removes_direct {order : Nat} (held : Allocated h owner slab (.direct order ptr)) :
    ∃ owner', Removes h owner slab { h with pages := pFree ptr h.pages } owner' slab (.direct order ptr) := by
  have block : BlockAt h owner _ order ptr := held
  obtain ⟨idx, bound, addr, owned, kind⟩ := block
  rcases ok.heap.pages.pFree ptr with ⟨-, rfl | notAllocated⟩ | ⟨owner', order', idx', done, pagesOk⟩
  · exact absurd addr (ok.heap.pages.indexToPa_ne_zero bound (by simp [owned]))
  · exact absurd owned (notAllocated idx order addr)
  · obtain rfl := ok.heap.pages.rep.layout_ok.indexToPa_inj done.addr addr
    obtain ⟨heap', blocks⟩ := ok.heap.pFree done pagesOk kind
    exact ⟨owner', ok.removes_block held (by simp [Allocation.kind]) heap' done.kept.layout blocks⟩

theorem HeapOk.page_of_allocated {x : Allocation} (held : Allocated h owner slab x) :
    x.ptr ≠ 0 ∧ ∃ idx < h.pages.layout.managedPageCount,
      indexToPa h.pages.layout idx = some (alignDown x.ptr pageSize) ∧ (h.pages.frames idx).kind = x.kind := by
  have whole : ∀ {kind order ptr}, BlockAt h owner kind order ptr → ptr ≠ 0 ∧
      ∃ idx < h.pages.layout.managedPageCount, indexToPa h.pages.layout idx = some (alignDown ptr pageSize) ∧
        (h.pages.frames idx).kind = kind := by
    rintro kind order ptr ⟨idx, bound, addr, owned, kindAt⟩
    have nonnull : ptr ≠ 0 := by
      rintro rfl
      exact ok.heap.pages.indexToPa_ne_zero bound (by simp [owned]) addr
    have page := slabPage_of_addr ok.heap.pages addr nonnull
    have bound' := page.bound
    rw [alignDown_page (by omega), Nat.div_mul_cancel page.aligned]
    exact ⟨nonnull, idx, bound, addr, kindAt⟩
  cases x with
  | object c o =>
    obtain ⟨a, s, found, rfl, object, used⟩ := held
    have slabAt := ok.heap.rep.slab_at a s found
    obtain ⟨idx, bound, addr, -, kind⟩ := ok.heap.slab_page a s found
    obtain ⟨nonnull, fits⟩ := slabAt.page.object_fits object
    refine ⟨nonnull, idx, bound, ?_, kind⟩
    rw [addr, Allocation.ptr, object.alignDown slabAt.aligned fits]
  | large order ptr => exact whole held
  | direct order ptr => exact whole held

theorem HeapOk.kfree (fits : ptr < 2 ^ 64) :
    (Slab.kfree ptr h = some h ∧ ∀ x, Allocated h owner slab x → x.kind ≠ .none → x.ptr ≠ ptr) ∨
      ∃ x h' owner' slab', Slab.kfree ptr h = some h' ∧ x.ptr = ptr ∧ x.kind ≠ .none ∧
        Removes h owner slab h' owner' slab' x := by
  have layoutOk := ok.heap.pages.rep.layout_ok
  unfold Slab.kfree
  by_cases null : ptr = 0
  · refine Or.inl ⟨if_pos (Or.inr null), fun x held _ => ?_⟩
    rw [null]
    exact (ok.page_of_allocated held).1
  rw [if_neg (by simp [ok.heap.ready, null])]
  dsimp only
  cases query : pageQuery (alignDown ptr pageSize) h.pages with
  | none =>
    refine Or.inl ⟨rfl, fun x held _ here => ?_⟩
    obtain ⟨-, idx, bound, addr, -⟩ := ok.page_of_allocated held
    rw [here] at addr
    simp [pageQuery, ok.heap.pages.ready, layoutOk.indexToPa_iff.mp addr] at query
  | some info =>
    obtain ⟨idx, index, rfl⟩ : ∃ idx, paToIndex h.pages.layout (alignDown ptr pageSize) = some idx ∧
        { index := idx
          kind := (h.pages.frames idx).kind
          allocatedHead := isAllocHeadTag (h.pages.frames idx).state } = info := by
      simpa [pageQuery, ok.heap.pages.ready, Option.bind_eq_some_iff] using query
    have addr := layoutOk.indexToPa_iff.mpr index
    obtain ⟨r, member, contains, -⟩ := layoutOk.contains_of_indexToPa addr
    have bound := layoutOk.contains_lt member contains
    have kinds : ∀ x, Allocated h owner slab x → x.ptr = ptr → x.kind = (h.pages.frames idx).kind := by
      intro x held here
      obtain ⟨-, p, -, addrP, kind⟩ := ok.page_of_allocated held
      rw [here] at addrP
      obtain rfl := layoutOk.indexToPa_inj addrP addr
      exact kind.symm
    dsimp only
    cases kind : (h.pages.frames idx).kind with
    | none => exact Or.inl ⟨rfl, fun x held kmalloced here => kmalloced ((kinds x held here).trans kind)⟩
    | slab =>
      obtain ⟨a, s, addrA, found⟩ := ok.heap.kind_slab idx bound kind
      obtain rfl : a = alignDown ptr pageSize := Option.some.inj (addrA.symm.trans addr)
      rcases ok.kfreeSlab found ptr with ⟨ignored, free⟩ | ⟨-, h', owner', slab', done, removes⟩
      · refine Or.inl ⟨ignored, fun x held _ here => ?_⟩
        have isObject := (kinds x held here).trans kind
        cases x with
        | large order p => simp [Allocation.kind] at isObject
        | direct order p => simp [Allocation.kind] at isObject
        | object c o =>
          obtain rfl : o = ptr := here
          obtain ⟨b, t, foundB, rfl, object, used⟩ := held
          have slabAt := ok.heap.rep.slab_at b t foundB
          rw [object.alignDown slabAt.aligned fits, foundB] at found
          cases found
          rw [object.alignDown slabAt.aligned fits] at free
          exact free ⟨object, used⟩
      · exact Or.inr ⟨_, h', owner', slab', done, rfl, by simp [Allocation.kind], removes⟩
    | large =>
      obtain ⟨order, owned⟩ := ok.heap.kind_head idx bound (by simp [kind])
      have head : isAllocHeadTag (h.pages.frames idx).state = true := by
        simp [isAllocHeadTag, state_of_allocated ok.heap.pages.rep bound owned]
      have offset : ptr &&& (pageSize - 1) = ptr % pageSize := Nat.and_two_pow_sub_one_eq_mod ptr 12
      simp only [kfreeLarge, offset, head, if_true]
      by_cases inner : ptr % pageSize ≠ 0
      · refine Or.inl ⟨congrArg some (if_pos inner), fun x held _ here => ?_⟩
        have isLarge := (kinds x held here).trans kind
        cases x with
        | object c o => simp [Allocation.kind] at isLarge
        | direct order p => simp [Allocation.kind] at isLarge
        | large order p =>
          obtain rfl : p = ptr := here
          obtain ⟨idx', -, addr', -, -⟩ := held
          have page := slabPage_of_addr ok.heap.pages addr' null
          exact inner (Nat.mod_eq_zero_of_dvd page.aligned)
      · rw [if_neg inner]
        have aligned : alignDown ptr pageSize = ptr := by
          rw [alignDown_page fits, Nat.div_mul_cancel (Nat.dvd_of_mod_eq_zero (not_not.mp inner))]
        rw [aligned] at addr ⊢
        have held : Allocated h owner slab (.large order ptr) := ⟨idx, bound, addr, owned, kind⟩
        obtain ⟨owner', removes⟩ := ok.removes_large held
        exact Or.inr ⟨_, _, owner', slab, rfl, rfl, by simp [Allocation.kind], removes⟩

end Kfree

end OrangeKernel.Slab
