import OrangeKernel.Slab.Objects

set_option autoImplicit false

namespace OrangeKernel.Slab

open Machine Memory ByteMemory Intrusive

section Poison

variable {c : ClassIdx} {a o : Nat} {mem : Mem} {value : UInt8} (aligned : pageSize ∣ a) (object : IsObject c a o)
include aligned object

theorem getField_fill {field : HeaderField} {b : Nat} (alignedB : pageSize ∣ b) :
    getField field b (fill o (kmallocClasses c) value mem) = getField field b mem := by
  have bounds := object.bounds
  have apart := header_behind alignedB aligned bounds.1 bounds.2
  have inHeader := field_bounds field
  exact load_fill_apart (by omega)

theorem chunkNext_fill {d : ClassIdx} {b o' : Nat} (alignedB : pageSize ∣ b) (object' : IsObject d b o')
    (sameClass : b = a → d = c) (different : o' ≠ o) :
    chunkNext o' (fill o (kmallocClasses c) value mem) = chunkNext o' mem := by
  have size := (class_bounds c).1
  have size' := (class_bounds d).1
  have bounds := object.bounds
  have bounds' := object'.bounds
  apply load_fill_apart
  by_cases here : b = a
  · subst here
    obtain rfl := sameClass rfl
    have apart := object'.apart object different
    omega
  · have apart := pages_apart alignedB aligned here
    omega

end Poison

section Steps

variable {h : Heap} {slab : Nat → Option SlabView} (rep : SlabRep h slab) {a : Nat} {s : SlabView}
  (found : slab a = some s)
include rep found

theorem SlabRep.take {o : Nat} {rest : List Nat} (free : s.free = o :: rest) :
    slabPopFree a h.mem = (o, setField .freelist a (chunkNext o h.mem) h.mem) ∧
      SlabRep { h with
        mem := setField .inuse a (wrap32 (getField .inuse a
          (setField .freelist a (chunkNext o h.mem) h.mem) + 1)) (setField .freelist a (chunkNext o h.mem) h.mem) }
        (Function.update slab a (some { s with free := rest })) := by
  have slabAt := rep.slab_at a s found
  have page := slabAt.page
  have head : getField .freelist a h.mem = o := by rw [slabAt.freelist.head, free]; rfl
  have object := slabAt.freelist.objects o (by simp [free])
  have chain := slabAt.freelist.chain
  rw [free] at chain
  have next : chunkNext o h.mem = encodePtr rest.head? := by
    rw [← encodePtr_ptrOf (chunkNext o h.mem)]
    exact congrArg encodePtr (by simpa using chain.1)
  have nextFits : chunkNext o h.mem < 2 ^ 64 := load_lt 8 _ h.mem
  have few := (object_bounds s.cls).2.2.2.1
  have count := slabAt.inuse
  rw [free, List.length_cons] at count
  have kept : getField .inuse a (setField .freelist a (chunkNext o h.mem) h.mem) = getField .inuse a h.mem := by
    rw [getField_setField page.aligned page.aligned nextFits]
    simp
  have small : getField .inuse a h.mem + 1 < 2 ^ 32 := by omega
  rw [kept, wrap32_of_lt small]
  have fields : ∀ field b, pageSize ∣ b → getField field b (setField .inuse a (getField .inuse a h.mem + 1)
      (setField .freelist a (chunkNext o h.mem) h.mem)) =
        if b = a ∧ field = .inuse then getField .inuse a h.mem + 1
        else if b = a ∧ field = .freelist then chunkNext o h.mem else getField field b h.mem := by
    intro field b aligned
    rw [getField_setField aligned page.aligned small, getField_setField aligned page.aligned nextFits]
  have chunks : ∀ (d : ClassIdx) b o', pageSize ∣ b → IsObject d b o' → chunkNext o' (setField .inuse a
      (getField .inuse a h.mem + 1) (setField .freelist a (chunkNext o h.mem) h.mem)) = chunkNext o' h.mem := by
    intro d b o' aligned object'
    rw [chunkNext_setField page.aligned aligned object', chunkNext_setField page.aligned aligned object']
  constructor
  · have positive := page.pos
    have nonnull := (page.object_fits object).1
    rw [slabPopFree, if_neg (by omega), head]
  · refine rep.rewrite ?_ (fun b t other foundT => ?_) (fun c st => ?_) fun t st foundT listed => ?_
    · refine ⟨page.aligned, page.pos, page.bound, ?_, ?_, ?_, ?_, fun st listed => ?_, ?_, ?_, ?_⟩
      · simpa [fields _ a page.aligned] using slabAt.magic
      · simpa [fields _ a page.aligned] using slabAt.cache
      · simpa [fields _ a page.aligned] using slabAt.capacity
      · rw [fields _ a page.aligned, if_pos ⟨rfl, rfl⟩]
        dsimp only
        omega
      · simpa [fields _ a page.aligned] using slabAt.state st listed
      · simpa [fields _ a page.aligned] using next
      · refine chain_congr (fun o' member => ?_) chain.2
        rw [chunks s.cls a o' page.aligned (slabAt.freelist.objects o' (by simp [free, member]))]
      · exact fun o' member => slabAt.freelist.objects o' (by rw [free]; exact List.mem_cons_of_mem _ member)
    · have slabAtB := rep.slab_at b t foundT
      refine ⟨fun field => ?_, fun o' member => ?_⟩
      · simp [fields field b slabAtB.aligned, other]
      · exact chunks t.cls b o' slabAtB.aligned (slabAtB.freelist.objects o' member)
    · simp [found]
    · simp [fields _ a page.aligned]

theorem SlabRep.putBack {o : Nat} (object : IsObject s.cls a o) (absent : o ∉ s.free)
    (used : s.free.length < slabCapacity s.cls) :
    SlabRep { h with
      mem := setField .inuse a (wrap32 (getField .inuse a (slabPushFree a o (fill o (kmallocClasses s.cls)
        poisonFreeObject h.mem)) + (2 ^ 32 - 1))) (slabPushFree a o (fill o (kmallocClasses s.cls)
          poisonFreeObject h.mem)) }
      (Function.update slab a (some { s with free := o :: s.free })) := by
  have slabAt := rep.slab_at a s found
  have page := slabAt.page
  have count := slabAt.inuse
  have few := (object_bounds s.cls).2.2.2.1
  -- Adding the largest 32-bit value is subtracting one.
  have less : wrap32 (getField .inuse a (slabPushFree a o (fill o (kmallocClasses s.cls) poisonFreeObject h.mem)) +
      (2 ^ 32 - 1)) = getField .inuse a h.mem - 1 := by
    rw [getField_slabPushFree page object page.aligned, if_neg (by simp),
      getField_fill page.aligned object page.aligned]
    unfold wrap32
    omega
  rw [less]
  have fields : ∀ field b, pageSize ∣ b → getField field b (setField .inuse a (getField .inuse a h.mem - 1)
      (slabPushFree a o (fill o (kmallocClasses s.cls) poisonFreeObject h.mem))) =
        if b = a ∧ field = .inuse then getField .inuse a h.mem - 1
        else if b = a ∧ field = .freelist then o else getField field b h.mem := by
    intro field b aligned
    have fits : getField .inuse a h.mem - 1 < 2 ^ 32 := by omega
    rw [getField_setField aligned page.aligned fits, getField_slabPushFree page object aligned,
      getField_fill page.aligned object aligned]
  have filled : FreeObjects s.cls (fill o (kmallocClasses s.cls) poisonFreeObject h.mem) a s.free := by
    refine slabAt.freelist.congr (getField_fill page.aligned object page.aligned) fun o' member => ?_
    have different : o' ≠ o := fun same => absent (same ▸ member)
    exact chunkNext_fill page.aligned object page.aligned (slabAt.freelist.objects o' member) (fun _ => rfl) different
  have pushed := filled.push page object absent
  refine rep.rewrite ?_ (fun b t other foundT => ?_) (fun c st => ?_) fun t st foundT listed => ?_
  · refine ⟨page.aligned, page.pos, page.bound, ?_, ?_, ?_, ?_, fun st listed => ?_, ?_⟩
    · simpa [fields _ a page.aligned] using slabAt.magic
    · simpa [fields _ a page.aligned] using slabAt.cache
    · simpa [fields _ a page.aligned] using slabAt.capacity
    · rw [fields _ a page.aligned, if_pos ⟨rfl, rfl⟩]
      dsimp only [List.length_cons]
      omega
    · simpa [fields _ a page.aligned] using slabAt.state st listed
    · refine pushed.congr ?_ fun o' member => ?_
      · rw [fields _ a page.aligned, getField_slabPushFree page object page.aligned]
        simp
      · exact chunkNext_setField page.aligned page.aligned (pushed.objects o' member)
  · have slabAtB := rep.slab_at b t foundT
    refine ⟨fun field => ?_, fun o' member => ?_⟩
    · simp [fields field b slabAtB.aligned, other]
    · have objectB := slabAtB.freelist.objects o' member
      have different : o' ≠ o := by
        have bounds := object.bounds
        have boundsB := objectB.bounds
        have apart := pages_apart slabAtB.aligned page.aligned other
        have size := (class_bounds s.cls).1
        have sizeB := (class_bounds t.cls).1
        omega
      rw [chunkNext_setField page.aligned slabAtB.aligned objectB,
        chunkNext_slabPushFree page object slabAtB.aligned objectB, if_neg different]
      exact chunkNext_fill page.aligned object slabAtB.aligned objectB (fun here => absurd here other) different
  · simp [found]
  · simp [fields _ a page.aligned]

end Steps

def freshField (c : ClassIdx) (cache : Nat) : HeaderField → Nat
  | .prev | .next | .freelist | .inuse => 0
  | .magic => slabMagic
  | .cache => cache
  | .capacity => slabCapacity c
  | .state => SlabState.slabPartial.code

theorem getField_initHeader {c : ClassIdx} {a b cache : Nat} {mem : Mem} (field : HeaderField) (page : SlabPage a)
    (aligned : pageSize ∣ b) (cacheFits : cache < 2 ^ 64) :
    getField field b (initHeader a cache (kmallocClasses c) mem) =
      if b = a then freshField c cache field else getField field b mem := by
  have capacityFits : slabCapacity c < 2 ^ 32 := by
    have few := (object_bounds c).2.2.2.1
    omega
  unfold initHeader
  rw [slabCalcCapacity_eq page.aligned page.pos page.bound]
  dsimp only
  rw [getField_setField aligned page.aligned (by decide), getField_setField aligned page.aligned capacityFits,
    getField_setField aligned page.aligned (by decide), getField_setField aligned page.aligned (by decide),
    getField_setField aligned page.aligned cacheFits, getField_setField aligned page.aligned (by decide),
    getField_setField aligned page.aligned (by decide), getField_setField aligned page.aligned (by decide)]
  by_cases here : b = a <;> cases field <;> simp [here, freshField]

theorem chunkNext_initHeader {c d : ClassIdx} {a b o cache : Nat} {mem : Mem} (page : SlabPage a)
    (aligned : pageSize ∣ b) (object : IsObject d b o) :
    chunkNext o (initHeader a cache (kmallocClasses c) mem) = chunkNext o mem := by
  simp only [initHeader, chunkNext_setField page.aligned aligned object]

theorem SlabRep.build {h : Heap} {slab : Nat → Option SlabView} (rep : SlabRep h slab) {a : Nat} (page : SlabPage a)
    (fresh : slab a = none) (c : ClassIdx) :
    SlabRep { h with
      mem := carveObjects a (slabObjectStart a (kmallocClasses c)) (kmallocClasses c) (slabCapacity c) 0
        (initHeader a (cachePtr h.cacheArray c) (kmallocClasses c) h.mem) }
      (Function.update slab a (some { cls := c, free := carvedObjects c a (slabCapacity c), listed := none })) := by
  have cacheFits := (cachePtr_bounds h.cacheArray c).2
  have started : FreeObjects c (initHeader a (cachePtr h.cacheArray c) (kmallocClasses c) h.mem) a
      (carvedObjects c a 0) := by
    refine ⟨?_, trivial, fun o member => ?_⟩
    · rw [getField_initHeader _ page page.aligned cacheFits]
      simp [carvedObjects, encodePtr, freshField]
    · simp [carvedObjects] at member
  obtain ⟨carved, fields, chunks⟩ := carveObjects_spec page (slabCapacity c) (Nat.zero_add _) started
  rw [slabObjectStart_eq page.aligned page.pos (Nat.le_of_lt page.bound)]
  have header : ∀ field, field ≠ .freelist →
    getField field a (carveObjects a (a + firstObject c) (kmallocClasses c)
      (slabCapacity c) 0 (initHeader a (cachePtr h.cacheArray c) (kmallocClasses c) h.mem)) =
        freshField c (cachePtr h.cacheArray c) field := by
    intro field other
    rw [fields field a page.aligned (Or.inr other), getField_initHeader field page page.aligned cacheFits, if_pos rfl]
  refine rep.rewrite ?_ (fun b t other foundT => ?_) (fun d st => ?_) fun t st foundT _ => ?_
  · refine ⟨page.aligned, page.pos, page.bound, ?_, ?_, ?_, ?_, fun st listed => ?_, carved⟩
    · exact header .magic (by decide)
    · exact header .cache (by decide)
    · exact header .capacity (by decide)
    · rw [header .inuse (by decide), length_carvedObjects]
      exact Nat.zero_add _
    · simp at listed
  · have slabAtB := rep.slab_at b t foundT
    refine ⟨fun field => ?_, fun o member => ?_⟩
    · rw [fields field b slabAtB.aligned (Or.inl other), getField_initHeader field page slabAtB.aligned cacheFits,
        if_neg other]
    · have objectB := slabAtB.freelist.objects o member
      rw [chunks t.cls b o slabAtB.aligned other objectB, chunkNext_initHeader page slabAtB.aligned objectB]
  · simp [fresh]
  · simp [fresh] at foundT

end OrangeKernel.Slab
