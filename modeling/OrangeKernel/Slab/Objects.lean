import OrangeKernel.Slab.Lists

set_option autoImplicit false

namespace OrangeKernel.Slab

open Machine Memory ByteMemory Intrusive

structure SlabPage (a : Nat) : Prop where
  aligned : pageSize ∣ a
  pos : 0 < a
  bound : a + pageSize < 2 ^ 64

variable {a : Nat}

theorem SlabAt.page {array : CacheArray} {mem : Mem} {s : SlabView} (slabAt : SlabAt array mem a s) :
    SlabPage a :=
  ⟨slabAt.aligned, slabAt.pos, slabAt.bound⟩

variable {c : ClassIdx}

theorem SlabPage.object_fits {o : Nat} (page : SlabPage a) (object : IsObject c a o) :
    o ≠ 0 ∧ o < 2 ^ 64 := by
  have bounds := object.bounds
  have size := (class_bounds c).1
  have inPage := page.bound
  unfold slabHeaderSize at bounds
  omega

section Push

variable {o : Nat} {mem : Mem} (page : SlabPage a) (object : IsObject c a o)
include page object

theorem slabPushFree_eq : slabPushFree a o mem =
    setField .freelist a o (setChunkNext o (getField .freelist a mem) mem) := by
  have positive := page.pos
  have nonnull := (page.object_fits object).1
  rw [slabPushFree, if_neg (by omega)]

theorem getField_slabPushFree {field : HeaderField} {b : Nat} (aligned : pageSize ∣ b) :
    getField field b (slabPushFree a o mem) =
      if b = a ∧ field = .freelist then o else getField field b mem := by
  rw [slabPushFree_eq page object, getField_setField aligned page.aligned (page.object_fits object).2,
    getField_setChunkNext aligned page.aligned object]

theorem chunkNext_slabPushFree {d : ClassIdx} {b o' : Nat} (aligned : pageSize ∣ b) (object' : IsObject d b o') :
    chunkNext o' (slabPushFree a o mem) = if o' = o then getField .freelist a mem else chunkNext o' mem := by
  have fits : getField .freelist a mem < 2 ^ 64 := load_lt 8 _ mem
  rw [slabPushFree_eq page object, chunkNext_setField page.aligned aligned object',
    chunkNext_setChunkNext aligned page.aligned object' object fits]

theorem FreeObjects.push {free : List Nat} (list : FreeObjects c mem a free) (absent : o ∉ free) :
    FreeObjects c (slabPushFree a o mem) a (o :: free) where
  head := by
    rw [getField_slabPushFree page object page.aligned]
    simp [encodePtr]
  chain := by
    have positive : ∀ x, free.head? = some x → x ≠ 0 := fun x first =>
      (page.object_fits (list.objects x (List.mem_of_mem_head? first))).1
    refine ⟨?_, chain_congr (fun o' member => ?_) list.chain⟩
    · beta_reduce
      rw [chunkNext_slabPushFree page object page.aligned object, if_pos rfl, list.head, ptrOf_encodePtr positive,
        Option.or_none]
    · have different : o' ≠ o := fun same => absent (same ▸ member)
      rw [chunkNext_slabPushFree page object page.aligned (list.objects o' member), if_neg different]
  objects := by
    intro o' member
    rcases List.mem_cons.mp member with rfl | inRest
    · exact object
    · exact list.objects o' inRest

end Push

def carvedObjects (c : ClassIdx) (a : Nat) : (count : Nat) → List Nat
  | 0 => []
  | count + 1 => (a + firstObject c + count * kmallocClasses c) :: carvedObjects c a count

theorem mem_carvedObjects {count o : Nat} :
    o ∈ carvedObjects c a count ↔ ∃ i < count, o = a + firstObject c + i * kmallocClasses c := by
  induction count with
  | zero => simp [carvedObjects]
  | succ count ih =>
    rw [carvedObjects, List.mem_cons, ih]
    constructor
    · rintro (rfl | ⟨i, below, rfl⟩)
      · exact ⟨count, Nat.lt_succ_self count, rfl⟩
      · exact ⟨i, Nat.lt_succ_of_lt below, rfl⟩
    · rintro ⟨i, below, rfl⟩
      rcases Nat.lt_succ_iff_lt_or_eq.mp below with less | rfl
      · exact Or.inr ⟨i, less, rfl⟩
      · exact Or.inl rfl

theorem length_carvedObjects (c : ClassIdx) (a count : Nat) : (carvedObjects c a count).length = count := by
  induction count with
  | zero => rfl
  | succ count ih => rw [carvedObjects, List.length_cons, ih]

theorem carveObjects_spec (page : SlabPage a) (left : Nat) {i : Nat} {mem : Mem} (total : i + left = slabCapacity c)
    (list : FreeObjects c mem a (carvedObjects c a i)) :
    FreeObjects c (carveObjects a (a + firstObject c) (kmallocClasses c) left i mem) a
        (carvedObjects c a (slabCapacity c)) ∧
      (∀ field b, pageSize ∣ b → b ≠ a ∨ field ≠ .freelist →
        getField field b (carveObjects a (a + firstObject c) (kmallocClasses c) left i mem) =
          getField field b mem) ∧
      ∀ (d : ClassIdx) b o, pageSize ∣ b → b ≠ a → IsObject d b o →
        chunkNext o (carveObjects a (a + firstObject c) (kmallocClasses c) left i mem) = chunkNext o mem := by
  induction left generalizing i mem with
  | zero =>
    rw [← total]
    exact ⟨list, fun _ _ _ _ => rfl, fun _ _ _ _ _ _ => rfl⟩
  | succ left ih =>
    have object : IsObject c a (a + firstObject c + i * kmallocClasses c) := ⟨i, by omega, rfl⟩
    have fits := (page.object_fits object).2
    have absent : a + firstObject c + i * kmallocClasses c ∉ carvedObjects c a i := by
      intro member
      obtain ⟨j, below, same⟩ := mem_carvedObjects.mp member
      have size := (class_bounds c).1
      have equal : i = j := Nat.eq_of_mul_eq_mul_right (show 0 < kmallocClasses c by omega) (by omega)
      omega
    have pushed : FreeObjects c (slabPushFree a (a + firstObject c + i * kmallocClasses c) mem) a
        (carvedObjects c a (i + 1)) := list.push page object absent
    obtain ⟨carved, fields, chunks⟩ := ih (by omega) pushed
    simp only [carveObjects, wrap64_of_lt fits]
    refine ⟨carved, fun field b aligned other => ?_, fun d b o aligned other objectB => ?_⟩
    · rw [fields field b aligned other, getField_slabPushFree page object aligned]
      exact if_neg fun both => other.elim (fun away => away both.1) fun different => different both.2
    · rw [chunks d b o aligned other objectB, chunkNext_slabPushFree page object aligned objectB]
      have different : o ≠ a + firstObject c + i * kmallocClasses c := by
        have boundsB := objectB.bounds
        have bounds := object.bounds
        have apart := pages_apart aligned page.aligned other
        have size := (class_bounds c).1
        have size' := (class_bounds d).1
        omega
      exact if_neg different

def OthersSame (slab : Nat → Option SlabView) (a : Nat) (mem mem' : Mem) : Prop :=
  ∀ b t, b ≠ a → slab b = some t →
    (∀ field, getField field b mem' = getField field b mem) ∧ ∀ o ∈ t.free, chunkNext o mem' = chunkNext o mem

variable {mem' : Mem}

section Change

variable {h : Heap} {slab : Nat → Option SlabView} (rep : SlabRep h slab)
include rep

theorem SlabRep.rewrite {s' : SlabView} (slabAt : SlabAt h.cacheArray mem' a s')
    (others : OthersSame slab a h.mem mem')
    (place : ∀ c st, (s'.cls = c ∧ s'.listed = some st) ↔ ∃ s, slab a = some s ∧
      s.cls = c ∧ s.listed = some st) (links : ∀ s st, slab a = some s → s.listed = some st →
      getField .prev a mem' = getField .prev a h.mem ∧ getField .next a mem' = getField .next a h.mem) :
    SlabRep { h with mem := mem' } (Function.update slab a (some s')) where
  slab_at := by
    intro b t foundB
    by_cases here : b = a
    · subst here
      obtain rfl : s' = t := by simpa using foundB
      exact slabAt
    · have foundT : slab b = some t := by simpa [here] using foundB
      obtain ⟨fields, chunks⟩ := others b t here foundT
      exact (rep.slab_at b t foundT).congr (fun field _ _ => fields field) chunks
  sizes := rep.sizes
  lists := by
    intro c st
    obtain ⟨xs, head, holds, members⟩ := rep.lists c st
    have same : ∀ b ∈ xs, getField .prev b mem' = getField .prev b h.mem ∧
        getField .next b mem' = getField .next b h.mem := by
      intro b member
      obtain ⟨t, foundT, -, listed⟩ := (members b).mp member
      by_cases here : b = a
      · subst here
        exact links t st foundT listed
      · exact ⟨(others b t here foundT).1 .prev, (others b t here foundT).1 .next⟩
    refine ⟨xs, head, Links.holds_congr (fun b member => ?_) (fun b member => ?_) holds, fun b => ?_⟩
    · simp only [slabLinks, (same b member).2]
    · simp only [slabLinks, (same b member).1]
    · rw [exists_update, members b, place c st]
      by_cases here : b = a
      · subst here
        simp
      · simp [here]

theorem SlabRep.others_of_bytes (aligned : pageSize ∣ a)
    (outside : ∀ x, x < a ∨ a + pageSize ≤ x → mem'.byte x = h.mem.byte x) : OthersSame slab a h.mem mem' := by
  intro b t other foundB
  have slabAt := rep.slab_at b t foundB
  have apart := pages_apart slabAt.aligned aligned other
  constructor
  · intro field
    apply getField_congr
    intro x low high
    apply outside
    unfold slabHeaderSize at high
    unfold pageSize at *
    omega
  · intro o free
    have bounds := (slabAt.freelist.objects o free).bounds
    have size := (class_bounds t.cls).1
    exact load_congr fun x low high => outside x (by omega)

theorem SlabRep.forget {s : SlabView} (found : slab a = some s) (detached : s.listed = none)
    (others : OthersSame slab a h.mem mem') : SlabRep { h with mem := mem' } (Function.update slab a none) where
  slab_at := by
    intro b t foundB
    have here : b ≠ a := by
      rintro rfl
      simp at foundB
    have foundT : slab b = some t := by simpa [here] using foundB
    obtain ⟨fields, chunks⟩ := others b t here foundT
    exact (rep.slab_at b t foundT).congr (fun field _ _ => fields field) chunks
  sizes := rep.sizes
  lists := by
    intro c st
    obtain ⟨xs, head, holds, members⟩ := rep.lists c st
    have absent : a ∉ xs := by
      intro member
      obtain ⟨t, foundT, -, listed⟩ := (members a).mp member
      rw [found] at foundT
      rw [← Option.some.inj foundT, detached] at listed
      simp at listed
    have same : ∀ b ∈ xs, ∀ field, getField field b mem' = getField field b h.mem := by
      intro b member
      obtain ⟨t, foundT, -, -⟩ := (members b).mp member
      exact (others b t (fun here => absent (here ▸ member)) foundT).1
    refine ⟨xs, head, Links.holds_congr (fun b member => ?_) (fun b member => ?_) holds, fun b => ?_⟩
    · simp only [slabLinks, same b member]
    · simp only [slabLinks, same b member]
    · by_cases here : b = a
      · subst here
        simpa using absent
      · rw [members b]
        simp [here]

end Change

end OrangeKernel.Slab
