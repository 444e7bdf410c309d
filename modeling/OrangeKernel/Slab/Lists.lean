import OrangeKernel.Slab.Rep

set_option autoImplicit false

namespace OrangeKernel.Slab

open Function Machine Memory ByteMemory Intrusive

structure PagePtr (a : Nat) : Prop where
  aligned : pageSize ∣ a
  fits : a < 2 ^ 64

variable {c : ClassIdx}

section Header

variable {slab old cache prev next b : Nat} {st : SlabState} {mem : Mem}

theorem getField_linkHeader (field : HeaderField) (atSlab : PagePtr slab) (atOld : PagePtr old) (at' : PagePtr b)
    (cacheFits : cache < 2 ^ 64) :
    getField field b (linkHeader slab old cache st mem) =
      if old ≠ 0 ∧ b = old ∧ field = .prev then slab
      else if b = slab then
        match field with
        | .next => old
        | .prev => 0
        | .state => st.code
        | .cache => cache
        | other => getField other b mem
      else getField field b mem := by
  have code : st.code < 256 ^ HeaderField.width .state := by cases st <;> decide
  have inner : getField field b (setField .next slab old (setField .prev slab 0
      (setField .state slab st.code (setField .cache slab cache mem)))) =
      if b = slab ∧ field = .next then old
      else if b = slab ∧ field = .prev then 0
      else if b = slab ∧ field = .state then st.code
      else if b = slab ∧ field = .cache then cache
      else getField field b mem := by
    rw [getField_setField at'.aligned atSlab.aligned atOld.fits,
      getField_setField at'.aligned atSlab.aligned (by decide),
      getField_setField at'.aligned atSlab.aligned code,
      getField_setField at'.aligned atSlab.aligned cacheFits]
  unfold linkHeader
  dsimp only
  split
  next nonnull =>
    rw [getField_setField at'.aligned atOld.aligned atSlab.fits, inner]
    by_cases here : b = slab <;> cases field <;> simp [here, nonnull]
  next null =>
    rw [inner]
    by_cases here : b = slab <;> cases field <;> simp_all

theorem getField_unlinkHeader (field : HeaderField) (atSlab : PagePtr slab) (atPrev : PagePtr prev)
    (atNext : PagePtr next) (at' : PagePtr b) :
    getField field b (unlinkHeader slab prev next mem) =
      if b = slab ∧ (field = .next ∨ field = .prev) then 0
      else if next ≠ 0 ∧ b = next ∧ field = .prev then prev
      else if prev ≠ 0 ∧ b = prev ∧ field = .next then next
      else getField field b mem := by
  unfold unlinkHeader
  dsimp only
  rw [getField_setField at'.aligned atSlab.aligned (by decide),
    getField_setField at'.aligned atSlab.aligned (by decide)]
  have middle : getField field b (if prev ≠ 0 then setField .next prev next mem else mem) =
      if prev ≠ 0 ∧ b = prev ∧ field = .next then next else getField field b mem := by
    split
    next nonnull =>
      rw [getField_setField at'.aligned atPrev.aligned atNext.fits]
      simp [nonnull]
    next null => simp [not_not.mp null]
  by_cases last : next ≠ 0
  · rw [if_pos last, getField_setField at'.aligned atNext.aligned atPrev.fits, middle]
    by_cases here : b = slab <;> cases field <;> simp [here, last]
  · rw [if_neg last, middle]
    by_cases here : b = slab <;> cases field <;> simp [here, not_not.mp last]

theorem slabLinks_linkHeader (atSlab : PagePtr slab) (pos : slab ≠ 0) (atOld : PagePtr old) (at' : PagePtr b)
    (cacheFits : cache < 2 ^ 64) :
    (slabLinks (linkHeader slab old cache st mem)).next b = ((slabLinks mem).pushFront (ptrOf old) slab).next b ∧
      (slabLinks (linkHeader slab old cache st mem)).prev b =
        ((slabLinks mem).pushFront (ptrOf old) slab).prev b := by
  simp only [slabLinks, getField_linkHeader _ atSlab atOld at' cacheFits, Links.pushFront]
  constructor
  · by_cases here : b = slab <;> simp [here]
  · by_cases null : old = 0
    · by_cases here : b = slab <;> simp [here, null, setAt]
    · by_cases there : b = old
      · simp [there, null, setAt, pos]
      · by_cases here : b = slab
        · simp [here, null, setAt]
          simp_all
        · simp [here, there, null, setAt]

theorem slabLinks_unlinkHeader (atSlab : PagePtr slab) (atPrev : PagePtr prev) (atNext : PagePtr next)
    (at' : PagePtr b) (prevAt : getField .prev slab mem = prev) (nextAt : getField .next slab mem = next) :
    (slabLinks (unlinkHeader slab prev next mem)).next b = ((slabLinks mem).unlink slab).next b ∧
      (slabLinks (unlinkHeader slab prev next mem)).prev b = ((slabLinks mem).unlink slab).prev b := by
  simp only [slabLinks, getField_unlinkHeader _ atSlab atPrev atNext at', Links.unlink, prevAt, nextAt]
  constructor
  · by_cases here : b = slab
    · simp [here]
    · by_cases null : prev = 0
      · simp [here, null, setAt]
      · by_cases there : b = prev <;> simp [here, there, null, setAt]
        simp_all
  · by_cases here : b = slab
    · simp [here]
    · by_cases null : next = 0
      · simp [here, null, setAt]
      · by_cases there : b = next <;> simp [here, there, null, setAt]
        simp_all

theorem chunkNext_linkHeader {o : Nat} (atSlab : PagePtr slab) (atOld : PagePtr old) (aligned : pageSize ∣ b)
    (object : IsObject c b o) :
    chunkNext o (linkHeader slab old cache st mem) = chunkNext o mem := by
  unfold linkHeader
  dsimp only
  split <;>
    simp only [chunkNext_setField atSlab.aligned aligned object, chunkNext_setField atOld.aligned aligned object]

theorem chunkNext_unlinkHeader {o : Nat} (atSlab : PagePtr slab) (atPrev : PagePtr prev) (atNext : PagePtr next)
    (aligned : pageSize ∣ b) (object : IsObject c b o) :
    chunkNext o (unlinkHeader slab prev next mem) = chunkNext o mem := by
  unfold unlinkHeader
  dsimp only
  split <;> split <;> simp only [chunkNext_setField atSlab.aligned aligned object,
    chunkNext_setField atPrev.aligned aligned object, chunkNext_setField atNext.aligned aligned object]

end Header

@[simp] theorem head_setHead (cache : KmemCache) (slab : Nat) (st st' : SlabState) :
    (cache.setHead slab st).head st' = if st' = st then slab else cache.head st' := by
  cases st <;> cases st' <;> rfl

@[simp] theorem objSize_setHead (cache : KmemCache) (slab : Nat) (st : SlabState) :
    (cache.setHead slab st).objSize = cache.objSize := by
  cases st <;> rfl

theorem setHead_head (c c' : ClassIdx) (st st' : SlabState) (slab : Nat) (h : Heap) :
    ((setHead c st slab h).caches c').head st' =
      if c' = c ∧ st' = st then slab else (h.caches c').head st' := by
  by_cases same : c' = c <;> simp [setHead, same]

theorem setHead_objSize (c c' : ClassIdx) (st : SlabState) (slab : Nat) (h : Heap) :
    ((setHead c st slab h).caches c').objSize = (h.caches c').objSize := by
  by_cases same : c' = c <;> simp [setHead, same]

variable {a b : Nat} {s : SlabView}

theorem exists_update {slab : Nat → Option SlabView} {P : SlabView → Prop} :
    (∃ t, update slab a (some s) b = some t ∧ P t) ↔
      (b = a ∧ P s) ∨ (b ≠ a ∧ ∃ t, slab b = some t ∧ P t) := by
  by_cases here : b = a
  · subst here
    simp
  · simp [here]

abbrev Members (slab : Nat → Option SlabView) (c : ClassIdx) (st : SlabState) (xs : List Nat) : Prop :=
  ∀ a, a ∈ xs ↔ ∃ s, slab a = some s ∧ s.cls = c ∧ s.listed = some st

section Members

variable {slab : Nat → Option SlabView} {c' : ClassIdx} {st st' : SlabState} {xs ys l r : List Nat}

theorem Members.disjoint (members : Members slab c st xs) (others : Members slab c' st' ys)
    (different : ¬ (c' = c ∧ st' = st)) : xs.Disjoint ys := by
  intro b left right
  obtain ⟨t, found, cls, listed⟩ := (members b).mp left
  obtain ⟨t', found', cls', listed'⟩ := (others b).mp right
  obtain rfl := Option.some.inj (found.symm.trans found')
  exact different ⟨cls'.symm.trans cls, Option.some.inj (listed'.symm.trans listed)⟩

theorem Members.detached (members : Members slab c st xs) (found : slab a = some s) (off : s.listed = none) :
    a ∉ xs := by
  intro member
  obtain ⟨t, foundT, -, listed⟩ := (members a).mp member
  rw [found] at foundT
  rw [← Option.some.inj foundT, off] at listed
  cases listed

theorem Members.put (members : Members slab c st xs) (cls : s.cls = c) (listed : s.listed = some st) :
    Members (update slab a (some s)) c st (a :: xs) := by
  intro b
  rw [exists_update, List.mem_cons, members b]
  by_cases here : b = a
  · simp [here, cls, listed]
  · simp [here]

theorem Members.other (members : Members slab c st xs) (absent : a ∉ xs)
    (elsewhere : ¬ (s.cls = c ∧ s.listed = some st)) : Members (update slab a (some s)) c st xs := by
  intro b
  rw [exists_update]
  by_cases here : b = a
  · subst here
    simp [absent, elsewhere]
  · rw [members b]
    simp [here]

theorem Members.drop (members : Members slab c st (l ++ a :: r)) (absent : a ∉ l ++ r)
    (elsewhere : ¬ (s.cls = c ∧ s.listed = some st)) :
    Members (update slab a (some s)) c st (l ++ r) := by
  intro b
  rw [exists_update]
  by_cases here : b = a
  · subst here
    simp [absent, elsewhere]
  · rw [← members b]
    simp [here]

end Members

variable {st : SlabState}

section Moves

variable {h : Heap} {slab : Nat → Option SlabView} (rep : SlabRep h slab)
include rep

theorem SlabRep.pagePtr (found : slab a = some s) : PagePtr a ∧ a ≠ 0 := by
  have slabAt := rep.slab_at a s found
  have bound := slabAt.bound
  have pos := slabAt.pos
  exact ⟨⟨slabAt.aligned, by omega⟩, by omega⟩

theorem SlabRep.list (c : ClassIdx) (st : SlabState) :
    ∃ xs, (h.caches c).head st = encodePtr xs.head? ∧ (slabLinks h.mem).Holds xs ∧ Members slab c st xs :=
  rep.lists c st

theorem SlabRep.member_ptr {xs : List Nat} (members : Members slab c st xs) (member : b ∈ xs) :
    PagePtr b ∧ b ≠ 0 := by
  obtain ⟨t, found, -, -⟩ := (members b).mp member
  exact rep.pagePtr found

omit rep in
theorem link_ptr {link : Option Nat} (known : ∀ a, link = some a → PagePtr a ∧ a ≠ 0) :
    PagePtr (encodePtr link) ∧ ptrOf (encodePtr link) = link := by
  cases link with
  | none => exact ⟨⟨Nat.dvd_zero _, by decide⟩, rfl⟩
  | some a =>
    obtain ⟨ptr, pos⟩ := known a rfl
    exact ⟨ptr, ptrOf_pos pos⟩

theorem SlabRep.slab_linked (found : slab a = some s) {old : Nat} (atOld : PagePtr old) (st : SlabState)
    {t : SlabView} (foundB : update slab a (some { s with listed := some st }) b = some t) :
    SlabAt h.cacheArray (linkHeader a old (cachePtr h.cacheArray s.cls) st h.mem) b t := by
  obtain ⟨atSlab, -⟩ := rep.pagePtr found
  have cacheFits := (cachePtr_bounds h.cacheArray s.cls).2
  by_cases here : b = a
  · subst here
    obtain rfl : { s with listed := some st } = t := by simpa using foundB
    have slabAt := rep.slab_at b s found
    have fields : ∀ field, getField field b (linkHeader b old (cachePtr h.cacheArray s.cls) st h.mem) = _ :=
      fun field => getField_linkHeader field atSlab atOld atSlab cacheFits
    exact
      { aligned := slabAt.aligned
        pos := slabAt.pos
        bound := slabAt.bound
        magic := by simpa [fields] using slabAt.magic
        cache := by simp [fields]
        capacity := by simpa [fields] using slabAt.capacity
        inuse := by simpa [fields] using slabAt.inuse
        state := by
          rintro st' listed
          obtain rfl : st = st' := by simpa using listed
          simp [fields]
        freelist := slabAt.freelist.congr (by simp [fields]) fun o member =>
          chunkNext_linkHeader atSlab atOld slabAt.aligned (slabAt.freelist.objects o member) }
  · have foundT : slab b = some t := by simpa [here] using foundB
    have slabAt := rep.slab_at b t foundT
    refine slabAt.congr (fun field notPrev notNext => ?_) fun o member => ?_
    · rw [getField_linkHeader field atSlab atOld (rep.pagePtr foundT).1 cacheFits]
      simp [notPrev, here]
    · exact chunkNext_linkHeader atSlab atOld slabAt.aligned (slabAt.freelist.objects o member)

theorem SlabRep.cacheAdd (found : slab a = some s) (detached : s.listed = none) (st : SlabState) :
    SlabRep (cacheAdd st s.cls a h) (update slab a (some { s with listed := some st })) ∧
      SameRest h (Slab.cacheAdd st s.cls a h) := by
  obtain ⟨atSlab, pos⟩ := rep.pagePtr found
  obtain ⟨xs, head, holds, members⟩ := rep.list s.cls st
  obtain ⟨atOld, oldPtr⟩ := link_ptr fun b first => rep.member_ptr members (List.mem_of_mem_head? first)
  rw [← head] at atOld oldPtr
  have cacheFits := (cachePtr_bounds h.cacheArray s.cls).2
  have agree : ∀ {ys : List Nat}, (∀ b ∈ ys, PagePtr b) →
      ((slabLinks h.mem).pushFront xs.head? a).Holds ys → (slabLinks (linkHeader a
        ((h.caches s.cls).head st) (cachePtr h.cacheArray s.cls) st h.mem)).Holds ys := by
    intro ys ptrs pushed
    rw [← oldPtr] at pushed
    refine Links.holds_congr (fun b member => ?_) (fun b member => ?_) pushed
    · exact (slabLinks_linkHeader atSlab pos atOld (ptrs b member) cacheFits).1
    · exact (slabLinks_linkHeader atSlab pos atOld (ptrs b member) cacheFits).2
  unfold Slab.cacheAdd
  rw [if_neg pos]
  refine ⟨⟨fun b t foundB => rep.slab_linked found atOld st foundB, fun c => ?_, fun c st' => ?_⟩,
    rfl, rfl, rfl, rfl, rfl, rfl⟩
  · rw [setHead_objSize]
    exact rep.sizes c
  · -- the new head changes its own list; no other list contains it or its successor
    change ∃ ys, ((setHead s.cls st a _).caches c).head st' = encodePtr ys.head? ∧ (slabLinks (linkHeader a
      ((h.caches s.cls).head st) (cachePtr h.cacheArray s.cls) st h.mem)).Holds ys ∧ _
    rw [setHead_head]
    by_cases same : c = s.cls ∧ st' = st
    · obtain ⟨rfl, rfl⟩ := same
      have pushed := Links.holds_pushFront holds (members.detached found detached)
      refine ⟨a :: xs, by simp [encodePtr], agree (fun b member => ?_) pushed, members.put rfl rfl⟩
      rcases List.mem_cons.mp member with rfl | inRest
      · exact atSlab
      · exact (rep.member_ptr members inRest).1
    · obtain ⟨ys, headY, holdsY, membersY⟩ := rep.list c st'
      have absent := membersY.detached found detached
      have pushed := Links.holds_pushFront_other (members.disjoint membersY same) absent holdsY
      rw [if_neg same]
      refine ⟨ys, headY, agree (fun b member => (rep.member_ptr membersY member).1) pushed,
        membersY.other absent ?_⟩
      rintro ⟨cls, listed⟩
      exact same ⟨cls.symm, (Option.some.inj listed).symm⟩

theorem SlabRep.slab_unlinked (found : slab a = some s) {prev next : Nat} (atPrev : PagePtr prev)
    (atNext : PagePtr next) {t : SlabView} (foundB : update slab a (some { s with listed := none }) b = some t) :
    SlabAt h.cacheArray (unlinkHeader a prev next h.mem) b t := by
  obtain ⟨atSlab, -⟩ := rep.pagePtr found
  have moved : ∀ {c : Nat} {u : SlabView}, slab c = some u →
    SlabAt h.cacheArray (unlinkHeader a prev next h.mem) c u := by
    intro c u foundC
    have slabAt := rep.slab_at c u foundC
    refine slabAt.congr (fun field notPrev notNext => ?_) fun o member => ?_
    · rw [getField_unlinkHeader field atSlab atPrev atNext (rep.pagePtr foundC).1]
      simp [notPrev, notNext]
    · exact chunkNext_unlinkHeader atSlab atPrev atNext slabAt.aligned (slabAt.freelist.objects o member)
  by_cases here : b = a
  · subst here
    obtain rfl : { s with listed := none } = t := by simpa using foundB
    exact { moved found with state := fun _ unlisted => by simp at unlisted }
  · exact moved (by simpa [here] using foundB)

omit rep in
theorem relinked_heads {l r : List Nat} (head : (h.caches c).head st = encodePtr (l ++ a :: r).head?)
    (known : ∀ b ∈ l, b ≠ 0) :
    ((if encodePtr l.getLast? ≠ 0 then h else setHead c st (encodePtr r.head?) h).caches c).head st =
      encodePtr (l ++ r).head? ∧
    ∀ {c' st'}, ¬ (c' = c ∧ st' = st) →
      ((if encodePtr l.getLast? ≠ 0 then h else setHead c st (encodePtr r.head?) h).caches c').head st' =
        (h.caches c').head st' := by
  constructor
  · cases l with
    | nil => simp [encodePtr, setHead_head]
    | cons b l =>
      have nonnull : encodePtr (b :: l).getLast? ≠ 0 := by
        rw [List.getLast?_eq_getLast_of_ne_nil (List.cons_ne_nil b l)]
        exact known _ (List.getLast_mem (List.cons_ne_nil b l))
      rw [if_pos nonnull, head]
      rfl
  · intro c' st' other
    split
    · rfl
    · rw [setHead_head, if_neg other]

omit rep in
theorem relinked_rest (c : ClassIdx) (st : SlabState) (prev next : Nat) :
    SameRest h (if prev ≠ 0 then h else setHead c st next h) ∧ ∀ c',
      ((if prev ≠ 0 then h else setHead c st next h).caches c').objSize = (h.caches c').objSize := by
  split
  · exact ⟨SameRest.refl h, fun _ => rfl⟩
  · exact ⟨⟨rfl, rfl, rfl, rfl, rfl, rfl⟩, fun c' => setHead_objSize c c' st next h⟩

theorem SlabRep.cacheRemoveSlab (found : slab a = some s) (listed : s.listed = some st) :
    ∃ h', Slab.cacheRemoveSlab a h = some h' ∧
      SlabRep h' (update slab a (some { s with listed := none })) ∧ SameRest h h' := by
  obtain ⟨atSlab, pos⟩ := rep.pagePtr found
  have slabAt := rep.slab_at a s found
  obtain ⟨xs, head, holds, members⟩ := rep.list s.cls st
  obtain ⟨l, r, rfl⟩ := List.append_of_mem ((members a).mpr ⟨s, found, rfl, listed⟩)
  obtain ⟨nextAt, prevAt⟩ := holds.at_middle
  have onLeft : ∀ b ∈ l, PagePtr b ∧ b ≠ 0 :=
    fun b member => rep.member_ptr members (List.mem_append_left _ member)
  have onRight : ∀ b ∈ r, PagePtr b ∧ b ≠ 0 := fun b member =>
    rep.member_ptr members (List.mem_append_right _ (List.mem_cons_of_mem _ member))
  obtain ⟨atPrev, -⟩ := link_ptr fun b last => onLeft b (List.mem_of_getLast? last)
  obtain ⟨atNext, -⟩ := link_ptr fun b first => onRight b (List.mem_of_mem_head? first)
  have prevEq : getField .prev a h.mem = encodePtr l.getLast? := by
    rw [← prevAt, slabLinks, encodePtr_ptrOf]
  have nextEq : getField .next a h.mem = encodePtr r.head? := by
    rw [← nextAt, slabLinks, encodePtr_ptrOf]
  have cachePos := (cachePtr_bounds h.cacheArray s.cls).1
  have selected : listOfState (getField .state a h.mem) = st := by
    rw [slabAt.state st listed]
    cases st <;> rfl
  have started : ¬ (a = 0 ∨ getField .cache a h.mem = 0) := by
    rw [slabAt.cache]
    omega
  obtain ⟨ownHead, otherHead⟩ := relinked_heads head fun b member => (onLeft b member).2
  obtain ⟨rest, sizes⟩ := relinked_rest (h := h) s.cls st (encodePtr l.getLast?) (encodePtr r.head?)
  have agree : ∀ {ys : List Nat}, (∀ b ∈ ys, PagePtr b) → ((slabLinks h.mem).unlink a).Holds ys →
      (slabLinks (unlinkHeader a (encodePtr l.getLast?) (encodePtr r.head?) h.mem)).Holds ys := by
    intro ys ptrs unlinked
    refine Links.holds_congr (fun b member => ?_) (fun b member => ?_) unlinked
    · exact (slabLinks_unlinkHeader atSlab atPrev atNext (ptrs b member) prevEq nextEq).1
    · exact (slabLinks_unlinkHeader atSlab atPrev atNext (ptrs b member) prevEq nextEq).2
  refine ⟨{ (if encodePtr l.getLast? ≠ 0 then h else setHead s.cls st (encodePtr r.head?) h) with
      mem := unlinkHeader a (encodePtr l.getLast?) (encodePtr r.head?) h.mem }, ?_,
    ⟨fun b t foundB => ?_, fun c => (sizes c).trans (rep.sizes c), fun c st' => ?_⟩, rest.pages, rest.array,
    rest.allocs, rest.frees, rest.reclaims, rest.ready⟩
  · rw [Slab.cacheRemoveSlab, if_neg started, slabAt.cache, cacheOfPtr_eq, Option.bind_eq_bind, Option.bind_some,
      selected, prevEq, nextEq]
  · dsimp only
    rw [rest.array]
    exact rep.slab_unlinked found atPrev atNext foundB
  · by_cases same : c = s.cls ∧ st' = st
    · obtain ⟨rfl, rfl⟩ := same
      have absent : a ∉ l ++ r := (List.nodup_cons.mp (List.nodup_middle.mp holds.nodup)).1
      refine ⟨l ++ r, ownHead, agree (fun b member => ?_) (Links.holds_unlink holds), members.drop absent (by simp)⟩
      rcases List.mem_append.mp member with left | right
      · exact (onLeft b left).1
      · exact (onRight b right).1
    · obtain ⟨ys, headY, holdsY, membersY⟩ := rep.list c st'
      have apart := members.disjoint membersY same
      exact ⟨ys, (otherHead same).trans headY, agree (fun b member => (rep.member_ptr membersY member).1)
        (Links.holds_unlink_other holds apart holdsY), membersY.other (fun member => apart (by simp) member)
          (by simp)⟩

theorem SlabRep.move (found : slab a = some s) (listed : s.listed = some st) (st' : SlabState) :
    ∃ h', (Slab.cacheRemoveSlab a h).map (Slab.cacheAdd st' s.cls a) = some h' ∧
      SlabRep h' (update slab a (some { s with listed := some st' })) ∧ SameRest h h' := by
  obtain ⟨removed, removes, repRemoved, restRemoved⟩ := rep.cacheRemoveSlab found listed
  have foundRemoved : update slab a (some { s with listed := none }) a =
      some { s with listed := none } := by simp
  obtain ⟨repAdded, restAdded⟩ := repRemoved.cacheAdd foundRemoved rfl st'
  rw [update_idem] at repAdded
  exact ⟨_, by rw [removes, Option.map_some], repAdded, restRemoved.trans restAdded⟩

end Moves

end OrangeKernel.Slab
