import OrangeKernel.Memory.Boot
import OrangeKernel.Shared.Bytes
import Mathlib.Data.Fin.VecNotation
import Mathlib.Tactic.FinCases

set_option autoImplicit false

namespace OrangeKernel.Slab

open Machine Memory ByteMemory

def slabMagic : Nat := 0x534C4142

def kmallocMaxSlabSize : Nat := pageSize / 2

def poisonFreeObject : UInt8 := 0xAA
def poisonReclaimPage : UInt8 := 0xCC

inductive SlabState where
  | slabEmpty
  | slabPartial
  | slabFull
deriving DecidableEq, Repr

def SlabState.code : SlabState → Nat
  | .slabEmpty => 0
  | .slabPartial => 1
  | .slabFull => 2

-- `KMALLOC_CLASS_COUNT` is 8.
abbrev ClassIdx := Fin 8

def kmallocClasses : ClassIdx → Nat :=
  ![16, 32, 64, 128, 256, 512, 1024, 2048]

-- `none` for the whole-page path.
def sizeToClass (size : Nat) : Option ClassIdx :=
  if size = 0 ∨ kmallocMaxSlabSize < size then none
  else (List.finRange 8).find? fun i => size ≤ kmallocClasses i

inductive HeaderField where
  | prev
  | next
  | cache
  | freelist
  | inuse
  | capacity
  | state
  | magic
deriving DecidableEq

def HeaderField.offset : HeaderField → Nat
  | .prev => 0
  | .next => 8
  | .cache => 16
  | .freelist => 24
  | .inuse => 32
  | .capacity => 36
  | .state => 40
  | .magic => 44

-- Pointers take eight bytes, the counters and the enumeration four.
def HeaderField.width : HeaderField → Nat
  | .prev | .next | .cache | .freelist => 8
  | .inuse | .capacity | .state | .magic => 4

def slabHeaderSize : Nat := 48

def getField (field : HeaderField) (slab : Nat) (mem : Mem) : Nat :=
  load field.width (slab + field.offset) mem

def setField (field : HeaderField) (slab value : Nat) (mem : Mem) : Mem :=
  store field.width (slab + field.offset) value mem

def chunkNext (obj : Nat) (mem : Mem) : Nat := load 8 obj mem

def setChunkNext (obj value : Nat) (mem : Mem) : Mem := store 8 obj value mem

def slabObjectStart (pageBase objSize : Nat) : Nat :=
  if pageBase = 0 then 0 else alignUp (wrap64 (pageBase + slabHeaderSize)) objSize

def slabCalcCapacity (pageBase objSize : Nat) : Nat :=
  if pageBase = 0 ∨ objSize = 0 then 0
  else
    let start := slabObjectStart pageBase objSize
    let pageEnd := wrap64 (pageBase + pageSize)
    if start < pageBase ∨ pageEnd ≤ start then 0 else wrap32 ((pageEnd - start) / objSize)

def firstObject (c : ClassIdx) : Nat :=
  ![48, 64, 64, 128, 256, 512, 1024, 2048] c

def slabCapacity (c : ClassIdx) : Nat :=
  ![253, 126, 63, 31, 15, 7, 3, 1] c

theorem kmallocClasses_eq (c : ClassIdx) : kmallocClasses c = 2 ^ (4 + c.val) := by
  revert c
  decide

theorem class_bounds (c : ClassIdx) :
    16 ≤ kmallocClasses c ∧ kmallocClasses c ≤ 2048 ∧ 16 ∣ kmallocClasses c ∧
    kmallocClasses c ∣ pageSize := by
  revert c
  decide

theorem object_bounds (c : ClassIdx) : slabHeaderSize ≤ firstObject c ∧ kmallocClasses c ∣ firstObject c ∧
    0 < slabCapacity c ∧ slabCapacity c ≤ 253 ∧
    firstObject c + slabCapacity c * kmallocClasses c ≤ pageSize := by
  revert c
  decide

variable {a : Nat}

theorem slabObjectStart_eq (aligned : pageSize ∣ a) (pos : 0 < a) (bound : a + pageSize ≤ 2 ^ 64)
    (c : ClassIdx) : slabObjectStart a (kmallocClasses c) = a + firstObject c := by
  obtain ⟨n, rfl⟩ := aligned
  have page : pageSize = 4096 := rfl
  have inRange : pageSize * n + slabHeaderSize < 2 ^ 64 := by unfold slabHeaderSize; omega
  rw [slabObjectStart, if_neg (by omega), wrap64_of_lt inRange, kmallocClasses_eq,
    alignUp_two_pow (by omega) (by fin_cases c <;> simp [slabHeaderSize, page] at * <;> omega)]
  unfold slabHeaderSize
  rw [page]
  -- The header takes 48 bytes, so only the 16-byte class starts right behind it.
  fin_cases c <;> simp [firstObject] <;> omega

theorem slabCalcCapacity_eq (aligned : pageSize ∣ a) (pos : 0 < a) (bound : a + pageSize < 2 ^ 64)
    (c : ClassIdx) : slabCalcCapacity a (kmallocClasses c) = slabCapacity c := by
  have start := slabObjectStart_eq aligned pos (Nat.le_of_lt bound) c
  have size := class_bounds c
  have page : pageSize = 4096 := rfl
  have inPage : firstObject c < pageSize := by
    have := object_bounds c
    have := Nat.mul_pos this.2.2.1 (show 0 < kmallocClasses c by omega)
    omega
  rw [slabCalcCapacity, if_neg (by omega), start, wrap64_of_lt bound]
  simp only []
  rw [if_neg (by omega), Nat.add_sub_add_left]
  have rounded : ∀ c : ClassIdx, wrap32 ((pageSize - firstObject c) / kmallocClasses c) = slabCapacity c := by
    decide
  exact rounded c

def IsObject (c : ClassIdx) (a o : Nat) : Prop :=
  ∃ i < slabCapacity c, o = a + firstObject c + i * kmallocClasses c

variable {c : ClassIdx} {o : Nat}

theorem IsObject.bounds (object : IsObject c a o) :
    a + slabHeaderSize ≤ o ∧ o + kmallocClasses c ≤ a + pageSize := by
  obtain ⟨i, below, rfl⟩ := object
  obtain ⟨behind, -, -, -, fits⟩ := object_bounds c
  have step : (i + 1) * kmallocClasses c ≤ slabCapacity c * kmallocClasses c := Nat.mul_le_mul_right _ below
  rw [Nat.add_mul] at step
  omega

theorem IsObject.aligned (object : IsObject c a o) (page : pageSize ∣ a) :
    kmallocClasses c ∣ o := by
  obtain ⟨i, -, rfl⟩ := object
  have base := (class_bounds c).2.2.2.trans page
  exact Nat.dvd_add (Nat.dvd_add base (object_bounds c).2.1) (Nat.dvd_mul_left _ _)

theorem pages_apart {b : Nat} (left : pageSize ∣ a) (right : pageSize ∣ b) (different : a ≠ b) :
    a + pageSize ≤ b ∨ b + pageSize ≤ a := by
  obtain ⟨n, rfl⟩ := left
  obtain ⟨k, rfl⟩ := right
  unfold pageSize at *
  omega

theorem IsObject.page_unique {d : ClassIdx} {b : Nat} (left : IsObject c a o) (right : IsObject d b o)
    (pageA : pageSize ∣ a) (pageB : pageSize ∣ b) : a = b := by
  by_contra different
  have apart := pages_apart pageA pageB different
  have boundsA := left.bounds
  have boundsB := right.bounds
  have sizeA := (class_bounds c).1
  have sizeB := (class_bounds d).1
  omega

theorem IsObject.alignDown (object : IsObject c a o) (page : pageSize ∣ a)
    (fits : o < 2 ^ 64) : alignDown o pageSize = a := by
  have bounds := object.bounds
  have size := (class_bounds c).1
  obtain ⟨n, rfl⟩ := page
  rw [alignDown_page fits]
  unfold slabHeaderSize at bounds
  unfold pageSize at *
  omega

theorem isObject_iff {c : ClassIdx} {a o : Nat} :
    IsObject c a o ↔ a + firstObject c ≤ o ∧
      o < a + firstObject c + kmallocClasses c * slabCapacity c ∧
      (o - (a + firstObject c)) % kmallocClasses c = 0 := by
  have size := (class_bounds c).1
  constructor
  · rintro ⟨i, below, rfl⟩
    have step : (i + 1) * kmallocClasses c ≤ slabCapacity c * kmallocClasses c := Nat.mul_le_mul_right _ below
    rw [Nat.add_mul, Nat.mul_comm (slabCapacity c)] at step
    refine ⟨by omega, by omega, ?_⟩
    rw [Nat.add_sub_cancel_left, Nat.mul_mod_left]
  · rintro ⟨low, high, stride⟩
    have exact_stride := Nat.div_mul_cancel (Nat.dvd_of_mod_eq_zero stride)
    refine ⟨(o - (a + firstObject c)) / kmallocClasses c, ?_, by omega⟩
    rw [Nat.div_lt_iff_lt_mul (by omega), Nat.mul_comm]
    omega

theorem IsObject.apart {o' : Nat} (left : IsObject c a o) (right : IsObject c a o')
    (different : o ≠ o') : o + kmallocClasses c ≤ o' ∨ o' + kmallocClasses c ≤ o := by
  obtain ⟨i, -, rfl⟩ := left
  obtain ⟨j, -, rfl⟩ := right
  rcases Nat.lt_trichotomy i j with less | rfl | more
  · have step := Nat.mul_le_mul_right (kmallocClasses c) less
    rw [Nat.succ_mul] at step
    omega
  · exact absurd rfl different
  · have step := Nat.mul_le_mul_right (kmallocClasses c) more
    rw [Nat.succ_mul] at step
    omega

theorem field_bounds (field : HeaderField) : field.offset + field.width ≤ slabHeaderSize := by
  cases field <;> decide

variable {field : HeaderField}

theorem fields_apart {field' : HeaderField} (different : field ≠ field') :
    field.offset + field.width ≤ field'.offset ∨ field'.offset + field'.width ≤ field.offset := by
  revert different
  cases field <;> cases field' <;> decide

theorem getField_congr {mem mem' : Mem}
    (same : ∀ x, a ≤ x → x < a + slabHeaderSize → mem'.byte x = mem.byte x) :
    getField field a mem' = getField field a mem := by
  have bounds := field_bounds field
  exact load_congr fun x low high => same x (by omega) (by omega)

theorem getField_setField {field' : HeaderField} {b value : Nat} {mem : Mem} (left : pageSize ∣ a)
    (right : pageSize ∣ b) (fits : value < 256 ^ field'.width) :
    getField field a (setField field' b value mem) =
      if a = b ∧ field = field' then value else getField field a mem := by
  by_cases same : a = b ∧ field = field'
  · obtain ⟨rfl, rfl⟩ := same
    simp only [getField, setField, load_store, Nat.mod_eq_of_lt fits, and_self, if_true]
  · rw [if_neg same]
    apply load_store_apart
    have bounds := field_bounds field
    have bounds' := field_bounds field'
    by_cases here : a = b
    · have apart := fields_apart fun sameField => same ⟨here, sameField⟩
      omega
    · have apart := pages_apart left right here
      unfold slabHeaderSize at *
      unfold pageSize at apart
      omega

end OrangeKernel.Slab
