import OrangeKernel.Slab.Cache

set_option autoImplicit false

-- A slab without a list is on its way from one list to another.

namespace OrangeKernel.Slab

open Machine Memory ByteMemory Intrusive

structure SlabView where
  cls : ClassIdx
  free : List Nat
  listed : Option SlabState

def ptrOf (x : Nat) : Option Nat := if x = 0 then none else some x

def encodePtr : Option Nat → Nat
  | none => 0
  | some x => x

@[simp] theorem ptrOf_zero : ptrOf 0 = none := if_pos rfl

@[simp] theorem ptrOf_pos {x : Nat} (pos : x ≠ 0) : ptrOf x = some x := by
  simp [ptrOf, pos]

@[simp] theorem encodePtr_ptrOf (x : Nat) : encodePtr (ptrOf x) = x := by
  by_cases zero : x = 0 <;> simp [ptrOf, encodePtr, zero]

theorem ptrOf_encodePtr {link : Option Nat} (pos : ∀ x, link = some x → x ≠ 0) :
    ptrOf (encodePtr link) = link := by
  cases link with
  | none => rfl
  | some x => exact ptrOf_pos (pos x rfl)

def slabLinks (mem : Mem) : Links Nat :=
  { next := fun a => ptrOf (getField .next a mem)
    prev := fun a => ptrOf (getField .prev a mem) }

structure FreeObjects (c : ClassIdx) (mem : Mem) (a : Nat) (free : List Nat) : Prop where
  head : getField .freelist a mem = encodePtr free.head?
  chain : Chain (fun o => ptrOf (chunkNext o mem)) none free
  objects : ∀ o ∈ free, IsObject c a o

structure SlabAt (array : CacheArray) (mem : Mem) (a : Nat) (s : SlabView) : Prop where
  aligned : pageSize ∣ a
  pos : 0 < a
  bound : a + pageSize < 2 ^ 64
  magic : getField .magic a mem = slabMagic
  cache : getField .cache a mem = cachePtr array s.cls
  capacity : getField .capacity a mem = slabCapacity s.cls
  inuse : getField .inuse a mem + s.free.length = slabCapacity s.cls
  state : ∀ st, s.listed = some st → getField .state a mem = st.code
  freelist : FreeObjects s.cls mem a s.free

structure SlabRep (h : Heap) (slab : Nat → Option SlabView) : Prop where
  slab_at : ∀ a s, slab a = some s → SlabAt h.cacheArray h.mem a s
  sizes : ∀ c, (h.caches c).objSize = kmallocClasses c
  lists : ∀ c st, ∃ xs, (h.caches c).head st = encodePtr xs.head? ∧ (slabLinks h.mem).Holds xs ∧
    ∀ a, a ∈ xs ↔ ∃ s, slab a = some s ∧ s.cls = c ∧ s.listed = some st

structure SameRest (h h' : Heap) : Prop where
  pages : h'.pages = h.pages
  array : h'.cacheArray = h.cacheArray
  allocs : h'.objectAllocCount = h.objectAllocCount
  frees : h'.objectFreeCount = h.objectFreeCount
  reclaims : h'.slabReclaimCount = h.slabReclaimCount
  ready : h'.slabReady = h.slabReady

theorem SameRest.refl (h : Heap) : SameRest h h := ⟨rfl, rfl, rfl, rfl, rfl, rfl⟩

theorem SameRest.trans {h h' h'' : Heap} (left : SameRest h h') (right : SameRest h' h'') : SameRest h h'' :=
  ⟨right.pages.trans left.pages, right.array.trans left.array, right.allocs.trans left.allocs,
    right.frees.trans left.frees, right.reclaims.trans left.reclaims, right.ready.trans left.ready⟩

variable {c : ClassIdx}

theorem cachePtr_inj {array : CacheArray} {d : ClassIdx} (same : cachePtr array c = cachePtr array d) : c = d := by
  unfold cachePtr kmemCacheSize at same
  apply Fin.ext
  omega

theorem cachePtr_bounds (array : CacheArray) (c : ClassIdx) : 0 < cachePtr array c ∧ cachePtr array c < 2 ^ 64 := by
  have pos := array.nonnull
  have fits := array.fits
  have small := c.isLt
  unfold cachePtr
  unfold kmemCacheSize at *
  omega

theorem cacheOfPtr_eq (array : CacheArray) (c : ClassIdx) : cacheOfPtr array (cachePtr array c) = some c := by
  unfold cacheOfPtr
  rw [List.find?_eq_some_iff_getElem]
  refine ⟨by simp, c.val, by simp, by simp, fun j less => ?_⟩
  simp only [List.getElem_finRange, Fin.cast_mk, Bool.not_eq_true', decide_eq_false_iff_not]
  intro same
  have := congrArg Fin.val (cachePtr_inj same)
  simp at this
  omega

variable {a : Nat}

theorem header_behind {b low high : Nat} (left : pageSize ∣ a) (right : pageSize ∣ b)
    (behind : b + slabHeaderSize ≤ low) (inside : high ≤ b + pageSize) :
    a + slabHeaderSize ≤ low ∨ high ≤ a := by
  by_cases same : a = b
  · omega
  · have apart := pages_apart left right same
    unfold slabHeaderSize at *
    unfold pageSize at *
    omega

variable {mem : Mem}

theorem chunkNext_setField {field : HeaderField} {b o value : Nat}
    (left : pageSize ∣ a) (right : pageSize ∣ b) (object : IsObject c b o) :
    chunkNext o (setField field a value mem) = chunkNext o mem := by
  have bounds := object.bounds
  have size := (class_bounds c).1
  have apart := header_behind left right bounds.1 (show o + 8 ≤ b + pageSize by omega)
  have inHeader := field_bounds field
  exact load_store_apart (by omega)

theorem getField_setChunkNext {field : HeaderField} {b o value : Nat}
    (left : pageSize ∣ a) (right : pageSize ∣ b) (object : IsObject c b o) :
    getField field a (setChunkNext o value mem) = getField field a mem := by
  have bounds := object.bounds
  have size := (class_bounds c).1
  have apart := header_behind left right bounds.1 (show o + 8 ≤ b + pageSize by omega)
  have inHeader := field_bounds field
  exact load_store_apart (by omega)

theorem chunkNext_setChunkNext {d : ClassIdx} {b o o' value : Nat} (left : pageSize ∣ a)
    (right : pageSize ∣ b) (object : IsObject c a o) (object' : IsObject d b o') (fits : value < 2 ^ 64) :
    chunkNext o (setChunkNext o' value mem) = if o = o' then value else chunkNext o mem := by
  by_cases same : o = o'
  · rw [if_pos same, same, chunkNext, setChunkNext, load_store, Nat.mod_eq_of_lt (by simpa using fits)]
  · rw [if_neg same]
    have grain := (class_bounds c).2.2.1.trans (object.aligned left)
    have grain' := (class_bounds d).2.2.1.trans (object'.aligned right)
    exact load_store_apart (by omega)

theorem FreeObjects.congr {mem' : Mem} {free : List Nat}
    (list : FreeObjects c mem a free) (head : getField .freelist a mem' = getField .freelist a mem)
    (chunks : ∀ o ∈ free, chunkNext o mem' = chunkNext o mem) : FreeObjects c mem' a free where
  head := head.trans list.head
  chain := chain_congr (fun o member => by rw [chunks o member]) list.chain
  objects := list.objects

theorem SlabAt.congr {array : CacheArray} {mem' : Mem} {s : SlabView} (slabAt : SlabAt array mem a s)
    (fields : ∀ field, field ≠ .prev → field ≠ .next → getField field a mem' = getField field a mem)
    (chunks : ∀ o ∈ s.free, chunkNext o mem' = chunkNext o mem) : SlabAt array mem' a s where
  aligned := slabAt.aligned
  pos := slabAt.pos
  bound := slabAt.bound
  magic := (fields .magic (by decide) (by decide)).trans slabAt.magic
  cache := (fields .cache (by decide) (by decide)).trans slabAt.cache
  capacity := (fields .capacity (by decide) (by decide)).trans slabAt.capacity
  inuse := by
    rw [fields .inuse (by decide) (by decide)]
    exact slabAt.inuse
  state := fun st listed => (fields .state (by decide) (by decide)).trans (slabAt.state st listed)
  freelist := slabAt.freelist.congr (fields .freelist (by decide) (by decide)) chunks

theorem SlabRep.frame {h h' : Heap} {slab : Nat → Option SlabView} (rep : SlabRep h slab)
    (array : h'.cacheArray = h.cacheArray) (caches : h'.caches = h.caches)
    (fields : ∀ a s field, slab a = some s → getField field a h'.mem = getField field a h.mem)
    (chunks : ∀ a s o, slab a = some s → o ∈ s.free → chunkNext o h'.mem = chunkNext o h.mem) :
    SlabRep h' slab where
  slab_at := by
    intro a s found
    rw [array]
    exact (rep.slab_at a s found).congr (fun field _ _ => fields a s field found) (fun o => chunks a s o found)
  sizes := by
    rw [caches]
    exact rep.sizes
  lists := by
    intro c st
    obtain ⟨xs, head, holds, members⟩ := rep.lists c st
    refine ⟨xs, by rw [caches, head], Links.holds_congr ?_ ?_ holds, members⟩
    all_goals
      intro a member
      obtain ⟨s, found, -, -⟩ := (members a).mp member
      simp only [slabLinks, fields a s _ found]

end OrangeKernel.Slab
