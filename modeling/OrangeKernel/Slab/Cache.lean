import OrangeKernel.Slab.Geometry

set_option autoImplicit false

-- An access through a cache pointer outside `kmem_caches` and an endless freelist walk are `none`.

namespace OrangeKernel.Slab

open Machine Memory ByteMemory

-- `sizeof(struct kmem_cache)`.
def kmemCacheSize : Nat := 32

structure CacheArray where
  base : Nat
  nonnull : 0 < base
  fits : base + 8 * kmemCacheSize ≤ 2 ^ 64

structure KmemCache where
  objSize : Nat
  slabsPartial : Nat
  slabsFull : Nat
  slabsEmpty : Nat

def KmemCache.head (cache : KmemCache) : SlabState → Nat
  | .slabPartial => cache.slabsPartial
  | .slabFull => cache.slabsFull
  | .slabEmpty => cache.slabsEmpty

def KmemCache.setHead (cache : KmemCache) (slab : Nat) : SlabState → KmemCache
  | .slabPartial => { cache with slabsPartial := slab }
  | .slabFull => { cache with slabsFull := slab }
  | .slabEmpty => { cache with slabsEmpty := slab }

structure Heap where
  pages : PageAllocator
  mem : Mem
  cacheArray : CacheArray
  caches : ClassIdx → KmemCache
  objectAllocCount : UInt64
  objectFreeCount : UInt64
  slabReclaimCount : UInt64
  slabReady : Bool

def cachePtr (array : CacheArray) (c : ClassIdx) : Nat := array.base + c.val * kmemCacheSize

def cacheOfPtr (array : CacheArray) (ptr : Nat) : Option ClassIdx :=
  (List.finRange 8).find? fun c => cachePtr array c = ptr

def setHead (c : ClassIdx) (st : SlabState) (slab : Nat) (h : Heap) : Heap :=
  { h with
    caches := fun i => if i = c then (h.caches i).setHead slab st else h.caches i }

def linkHeader (slab old cache : Nat) (st : SlabState) (mem : Mem) : Mem :=
  let tagged := setField .state slab st.code (setField .cache slab cache mem)
  let linked := setField .next slab old (setField .prev slab 0 tagged)
  if old ≠ 0 then setField .prev old slab linked else linked

-- The body shared by `cache_add_partial`, `cache_add_full` and `cache_add_empty`.
def cacheAdd (st : SlabState) (c : ClassIdx) (slab : Nat) (h : Heap) : Heap :=
  if slab = 0 then h
  else setHead c st slab { h with
    mem := linkHeader slab ((h.caches c).head st) (cachePtr h.cacheArray c) st h.mem }

def cacheAddPartial (c : ClassIdx) (slab : Nat) (h : Heap) : Heap := cacheAdd .slabPartial c slab h

def cacheAddFull (c : ClassIdx) (slab : Nat) (h : Heap) : Heap := cacheAdd .slabFull c slab h

def cacheAddEmpty (c : ClassIdx) (slab : Nat) (h : Heap) : Heap := cacheAdd .slabEmpty c slab h

def listOfState (state : Nat) : SlabState :=
  if state = SlabState.slabPartial.code then .slabPartial
  else if state = SlabState.slabFull.code then .slabFull
  else .slabEmpty

def unlinkHeader (slab prev next : Nat) (mem : Mem) : Mem :=
  let before := if prev ≠ 0 then setField .next prev next mem else mem
  let after := if next ≠ 0 then setField .prev next prev before else before
  setField .next slab 0 (setField .prev slab 0 after)

def cacheRemoveSlab (slab : Nat) (h : Heap) : Option Heap :=
  if slab = 0 ∨ getField .cache slab h.mem = 0 then some h
  else do
    let c ← cacheOfPtr h.cacheArray (getField .cache slab h.mem)
    let prev := getField .prev slab h.mem
    let next := getField .next slab h.mem
    -- Only the first slab of a list is known to the cache.
    let relinked := if prev ≠ 0 then h
      else setHead c (listOfState (getField .state slab h.mem)) next h
    some { relinked with mem := unlinkHeader slab prev next h.mem }

def cacheMovePartialToFull (c : ClassIdx) (slab : Nat) (h : Heap) : Option Heap :=
  if slab = 0 then some h else (cacheRemoveSlab slab h).map (cacheAddFull c slab)

def cacheMoveFullToPartial (c : ClassIdx) (slab : Nat) (h : Heap) : Option Heap :=
  if slab = 0 then some h else (cacheRemoveSlab slab h).map (cacheAddPartial c slab)

def cacheMoveEmptyToPartial (c : ClassIdx) (slab : Nat) (h : Heap) : Option Heap :=
  if slab = 0 then some h else (cacheRemoveSlab slab h).map (cacheAddPartial c slab)

def slabPushFree (slab obj : Nat) (mem : Mem) : Mem :=
  if slab = 0 ∨ obj = 0 then mem
  else setField .freelist slab obj (setChunkNext obj (getField .freelist slab mem) mem)

def slabPopFree (slab : Nat) (mem : Mem) : Nat × Mem :=
  if slab = 0 ∨ getField .freelist slab mem = 0 then (0, mem)
  else
    let chunk := getField .freelist slab mem
    (chunk, setField .freelist slab (chunkNext chunk mem) mem)

-- `none` when `fuel` steps do not reach the end.
def freelistContainsFrom (obj : Nat) (mem : Mem) : (fuel cur : Nat) → Option Bool
  | 0, cur => if cur = 0 then some false else none
  | fuel + 1, cur =>
    if cur = 0 then some false
    else if cur = obj then some true
    else freelistContainsFrom obj mem fuel (chunkNext cur mem)

-- A page has no room for more objects than bytes.
def slabFreelistContains (slab obj : Nat) (mem : Mem) : Option Bool :=
  if slab = 0 ∨ obj = 0 then some false
  else freelistContainsFrom obj mem pageSize (getField .freelist slab mem)

def carveObjects (slab objStart objSize : Nat) : (left i : Nat) → Mem → Mem
  | 0, _, mem => mem
  | left + 1, i, mem =>
    carveObjects slab objStart objSize left (i + 1) (slabPushFree slab (wrap64 (objStart + i * objSize)) mem)

def initHeader (slab cache objSize : Nat) (mem : Mem) : Mem :=
  let unlinked := setField .next slab 0 (setField .prev slab 0 mem)
  let owned := setField .cache slab cache (setField .magic slab slabMagic unlinked)
  let unused := setField .inuse slab 0 (setField .freelist slab 0 owned)
  setField .state slab SlabState.slabPartial.code
    (setField .capacity slab (slabCalcCapacity slab objSize) unused)

def kmallocRefillClass (c : ClassIdx) (h : Heap) : Bool × Heap :=
  let (page, pages) := pAlloc 1 h.pages
  if page = 0 then (false, { h with pages := pages })
  else
    let objSize := (h.caches c).objSize
    let mem := initHeader page (cachePtr h.cacheArray c) objSize h.mem
    let tagged := pageSetKind page .slab pages
    let chunks := getField .capacity page mem
    if chunks = 0 then
      (false, { h with
        mem := mem
        pages := pFree page (pageSetKind page .none tagged) })
    else
      (true, cacheAddPartial c page { h with
        mem := carveObjects page (slabObjectStart page objSize) objSize chunks 0 mem
        pages := tagged })

def ensurePartial (c : ClassIdx) (h : Heap) : Option (Bool × Heap) :=
  if (h.caches c).slabsPartial = 0 then
    if (h.caches c).slabsEmpty ≠ 0 then
      (cacheMoveEmptyToPartial c (h.caches c).slabsEmpty h).map fun moved => (true, moved)
    else some (kmallocRefillClass c h)
  else some (true, h)

def kmallocObject (c : ClassIdx) (h : Heap) : Option (Nat × Heap) :=
  let slab := (h.caches c).slabsPartial
  if slab = 0 then some (0, h)
  else if getField .state slab h.mem ≠ SlabState.slabPartial.code ∨ getField .freelist slab h.mem = 0 ∨
      getField .capacity slab h.mem ≤ getField .inuse slab h.mem then some (0, h)
  else
    let (obj, popped) := slabPopFree slab h.mem
    if obj = 0 then some (0, { h with mem := popped })
    else do
      let mem := setField .inuse slab (wrap32 (getField .inuse slab popped + 1)) popped
      let taken := { h with mem := mem }
      let moved ← if getField .inuse slab mem = getField .capacity slab mem
        then cacheMovePartialToFull c slab taken else some taken
      some (obj, { moved with objectAllocCount := moved.objectAllocCount + 1 })

def kmallocSmall (size : Nat) (h : Heap) : Option (Nat × Heap) :=
  match sizeToClass size with
  | none => some (0, h)
  | some c => do
    let (ok, ready) ← ensurePartial c h
    if ok then kmallocObject c ready else some (0, ready)

def kmallocLarge (size : Nat) (h : Heap) : Nat × Heap :=
  if pageSize * 2 ^ maxOrder < size then (0, h)
  else
    let (base, pages) := pAlloc (wrap32 ((size + pageSize - 1) / pageSize)) h.pages
    if base = 0 then (0, { h with pages := pages })
    else (base, { h with pages := pageSetKind base .large pages })

-- 0 for null.
def kmalloc (size : Nat) (h : Heap) : Option (Nat × Heap) :=
  if h.slabReady = false ∨ size = 0 then some (0, h)
  else if size ≤ kmallocMaxSlabSize then kmallocSmall size h
  else some (kmallocLarge size h)

def retireSlab (c : ClassIdx) (slab : Nat) (h : Heap) : Option Heap := do
  let removed ← cacheRemoveSlab slab h
  if (removed.caches c).slabsEmpty = 0 then some (cacheAddEmpty c slab removed)
  else
    let cleared := setField .freelist slab 0 (setField .cache slab 0 (setField .magic slab 0 removed.mem))
    some { removed with
      mem := fill slab pageSize poisonReclaimPage cleared
      slabReclaimCount := removed.slabReclaimCount + 1
      pages := pFree slab (pageSetKind slab .none removed.pages) }

def putObject (c : ClassIdx) (slab ptr : Nat) (h : Heap) : Option Heap :=
  let pushed := slabPushFree slab ptr (fill ptr (h.caches c).objSize poisonFreeObject h.mem)
  let mem := setField .inuse slab (wrap32 (getField .inuse slab pushed + (2 ^ 32 - 1))) pushed
  let freed := { h with
    mem := mem
    objectFreeCount := h.objectFreeCount + 1 }
  if getField .state slab mem = SlabState.slabFull.code then cacheMoveFullToPartial c slab freed else some freed

def releaseObject (c : ClassIdx) (slab ptr : Nat) (h : Heap) : Option Heap := do
  let freed ← putObject c slab ptr h
  if getField .inuse slab freed.mem = 0 then retireSlab c slab freed
  else some { freed with mem := setField .state slab SlabState.slabPartial.code freed.mem }

def kfreeSlab (slab ptr : Nat) (h : Heap) : Option Heap :=
  if getField .magic slab h.mem ≠ slabMagic then some h
  else if getField .cache slab h.mem = 0 then some h
  else do
    let c ← cacheOfPtr h.cacheArray (getField .cache slab h.mem)
    let objSize := (h.caches c).objSize
    if objSize = 0 then some h
    else
      let objStart := slabObjectStart slab objSize
      let objEnd := wrap64 (objStart + objSize * getField .capacity slab h.mem)
      if ptr < objStart ∨ objEnd ≤ ptr then some h
      else if (ptr - objStart) % objSize ≠ 0 then some h
      else if getField .inuse slab h.mem = 0 then some h
      else do
        let double ← slabFreelistContains slab ptr h.mem
        if double then some h else releaseObject c slab ptr h

def kfreeLarge (pageBase ptr : Nat) (info : PageInfo) (h : Heap) : Heap :=
  if ptr &&& (pageSize - 1) ≠ 0 then h
  else if info.allocatedHead then { h with pages := pFree pageBase (pageSetKind pageBase .none h.pages) }
  else h

def kfree (ptr : Nat) (h : Heap) : Option Heap :=
  if h.slabReady = false ∨ ptr = 0 then some h
  else
    let pageBase := alignDown ptr pageSize
    match pageQuery pageBase h.pages with
    | none => some h
    | some info =>
      match info.kind with
      | .none => some h
      | .slab => kfreeSlab pageBase ptr h
      | .large => some (kfreeLarge pageBase ptr info h)

def heapStart (pages : PageAllocator) (array : CacheArray) (mem : Mem) : Heap :=
  { pages := pages
    mem := mem
    cacheArray := array
    caches := fun c => { objSize := kmallocClasses c, slabsPartial := 0, slabsFull := 0, slabsEmpty := 0 }
    objectAllocCount := 0
    objectFreeCount := 0
    slabReclaimCount := 0
    slabReady := true }

end OrangeKernel.Slab
