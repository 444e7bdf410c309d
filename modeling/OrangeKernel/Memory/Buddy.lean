import OrangeKernel.Memory.Layout
import Mathlib.Logic.Function.Basic

set_option autoImplicit false

namespace OrangeKernel.Memory

open Machine

def maxOrder : Nat := 20

def frameBuddy : Int := -1
def frameUsed : Int := -2
def frameAllocBase : Int := -100

inductive PageKind where
  | none
  | slab
  | large
deriving DecidableEq, Repr

structure FrameMeta where
  state : Int
  freePrev : Int
  freeNext : Int
  kind : PageKind
deriving DecidableEq, Repr

structure PageAllocator where
  layout : Layout
  frames : Nat → FrameMeta
  freeLists : Nat → Int
  memoryReady : Bool
  pageAllocCount : UInt64
  pageFreeCount : UInt64

def allocTagFromOrder (order : Nat) : Int := int16 (frameAllocBase - int16 order)

def isAllocHeadTag (tag : Int) : Bool := tag ≤ frameAllocBase

def orderFromAllocTag (tag : Int) : Nat := (frameAllocBase - tag).toNat

def setState (idx : Nat) (tag : Int) (frames : Nat → FrameMeta) : Nat → FrameMeta :=
  fun p => if p = idx then { frames p with state := tag } else frames p

def setPrev (idx : Nat) (link : Int) (frames : Nat → FrameMeta) : Nat → FrameMeta :=
  fun p => if p = idx then { frames p with freePrev := link } else frames p

def setNext (idx : Nat) (link : Int) (frames : Nat → FrameMeta) : Nat → FrameMeta :=
  fun p => if p = idx then { frames p with freeNext := link } else frames p

def setKind (idx : Nat) (kind : PageKind) (frames : Nat → FrameMeta) : Nat → FrameMeta :=
  fun p => if p = idx then { frames p with kind := kind } else frames p

def setStates (tag : Int) : (count start : Nat) → (Nat → FrameMeta) → Nat → FrameMeta
  | 0, _, frames => frames
  | count + 1, start, frames => setStates tag count (start + 1) (setState start tag frames)

def blockMarkFree (idx order : Nat) (m : PageAllocator) : PageAllocator :=
  { m with
    frames := setStates frameBuddy (2 ^ order - 1) (idx + 1) (setState idx (int16 order) m.frames) }

def blockMarkAlloc (idx order : Nat) (m : PageAllocator) : PageAllocator :=
  { m with
    frames := setStates frameUsed (2 ^ order - 1) (idx + 1)
      (setState idx (allocTagFromOrder order) m.frames) }

def freelistPush (order idx : Nat) (m : PageAllocator) : PageAllocator :=
  let oldHead := m.freeLists order
  let linked := setNext idx oldHead (setPrev idx (-1) m.frames)
  { m with
    frames := if 0 ≤ oldHead then setPrev oldHead.toNat (int32 idx) linked else linked
    freeLists := Function.update m.freeLists order (int32 idx) }

def freelistPop (order : Nat) (m : PageAllocator) : Int × PageAllocator :=
  let head := m.freeLists order
  if 0 ≤ head then
    let next := (m.frames head.toNat).freeNext
    let linked := if 0 ≤ next then setPrev next.toNat (-1) m.frames else m.frames
    (head, { m with
      freeLists := Function.update m.freeLists order next
      frames := setNext head.toNat (-1) (setPrev head.toNat (-1) linked) })
  else (head, m)

-- The `-1` returns of the source are `none`.
def freelistRemove (order idx : Nat) (m : PageAllocator) : Option PageAllocator :=
  if m.layout.managedPageCount ≤ idx then none
  else if (m.frames idx).state ≠ int16 order then none
  else
    let prev := (m.frames idx).freePrev
    let next := (m.frames idx).freeNext
    if prev < 0 ∧ m.freeLists order ≠ int32 idx then none
    else
      let before := if prev < 0 then m.frames else setNext prev.toNat next m.frames
      let after := if 0 ≤ next then setPrev next.toNat prev before else before
      some { m with
        freeLists := if prev < 0 then Function.update m.freeLists order next else m.freeLists
        frames := setNext idx (-1) (setPrev idx (-1) after) }

-- `none` when the fuel runs out before the list ends.
def freelistCountFrom (m : PageAllocator) : (fuel : Nat) → (cur : Int) → (n : Nat) → Option Nat
  | 0, cur, n => if 0 ≤ cur then none else some n
  | fuel + 1, cur, n =>
    if 0 ≤ cur then freelistCountFrom m fuel (m.frames cur.toNat).freeNext (n + 1) else some n

def freelistCountOrder (m : PageAllocator) (order : Nat) : Option Nat :=
  freelistCountFrom m m.layout.managedPageCount (m.freeLists order) 0

def totalFreePagesCount (m : PageAllocator) : Option Nat :=
  (List.range (maxOrder + 1)).foldlM (fun total order => do
    let blocks ← freelistCountOrder m order
    return total + blocks <<< order) 0

def buddyIndex (layout : Layout) (idx order : Nat) : Option Nat := do
  let rid ← findRegionByIndex layout idx
  let r ← layout.regions[rid]?
  let buddyLocal := (idx - r.firstIdx) ^^^ 2 ^ order
  if r.pageCount ≤ buddyLocal then none else some (r.firstIdx + buddyLocal)

def needOrderFrom (pages : Nat) : (left order : Nat) → Option Nat
  | 0, order => if 2 ^ order < pages then none else some order
  | left + 1, order => if 2 ^ order < pages then needOrderFrom pages left (order + 1) else some order

def needOrder (pages : Nat) : Option Nat := needOrderFrom pages maxOrder 0

def findOrderFrom (m : PageAllocator) : (left order : Nat) → Option Nat
  | 0, _ => none
  | left + 1, order => if m.freeLists order < 0 then findOrderFrom m left (order + 1) else some order

def splitDown (need idx : Nat) : (steps : Nat) → PageAllocator → PageAllocator
  | 0, m => m
  | steps + 1, m =>
    let curOrder := need + steps
    let buddyIdx := idx + 2 ^ curOrder
    let released := freelistPush curOrder buddyIdx (blockMarkFree buddyIdx curOrder m)
    splitDown need idx steps (blockMarkFree idx curOrder released)

-- A null result is address 0.
def pAlloc (pages : Nat) (m : PageAllocator) : Nat × PageAllocator :=
  if m.memoryReady = false ∨ pages = 0 then (0, m)
  else
    match needOrder pages with
    | none => (0, m)
    | some need =>
      match findOrderFrom m (maxOrder + 1 - need) need with
      | none => (0, m)
      | some curOrder =>
        let popped := freelistPop curOrder m
        if popped.1 < 0 then (0, popped.2)
        else
          let idx := popped.1.toNat
          let marked := blockMarkAlloc idx need (splitDown need idx (curOrder - need) popped.2)
          match indexToPa marked.layout idx with
          | none => (0, marked)
          | some pa => (pa, { marked with pageAllocCount := marked.pageAllocCount + 1 })

def mergeUp : (left mergedIdx mergedOrder : Nat) → PageAllocator → Nat × Nat × PageAllocator
  | 0, mergedIdx, mergedOrder, m => (mergedIdx, mergedOrder, m)
  | left + 1, mergedIdx, mergedOrder, m =>
    match buddyIndex m.layout mergedIdx mergedOrder with
    | none => (mergedIdx, mergedOrder, m)
    | some buddy =>
      if (m.frames buddy).state ≠ int16 mergedOrder then (mergedIdx, mergedOrder, m)
      else
        match freelistRemove mergedOrder buddy m with
        | none => (mergedIdx, mergedOrder, m)
        | some removed =>
          mergeUp left (if buddy < mergedIdx then buddy else mergedIdx) (mergedOrder + 1) removed

def pFree (ptr : Nat) (m : PageAllocator) : PageAllocator :=
  if m.memoryReady = false ∨ ptr = 0 then m
  else if ptr &&& (pageSize - 1) ≠ 0 then m
  else
    match paToIndex m.layout ptr with
    | none => m
    | some idx =>
      let tag := (m.frames idx).state
      if isAllocHeadTag tag then
        let order := orderFromAllocTag tag
        let (mergedIdx, mergedOrder, merged) := mergeUp (maxOrder - order) idx order m
        let released := freelistPush mergedOrder mergedIdx (blockMarkFree mergedIdx mergedOrder merged)
        { released with pageFreeCount := released.pageFreeCount + 1 }
      else m

def floorLog2From (v : Nat) : (fuel n : Nat) → Nat
  | 0, n => n
  | fuel + 1, n => if 2 ^ (n + 1) ≤ v then floorLog2From v fuel (n + 1) else n

def floorLog2 (v : Nat) : Nat := floorLog2From v v 0

def alignOrder (runStart : Nat) : (order : Nat) → Nat
  | 0 => 0
  | order + 1 =>
    if runStart &&& (2 ^ (order + 1) - 1) ≠ 0 then alignOrder runStart order else order + 1

def runOrder (runStart runPages : Nat) : Nat :=
  alignOrder runStart (min (floorLog2 runPages) maxOrder)

-- Every round takes at least one page, so `runPages` rounds are enough.
def addFreeRunFrom (firstIdx : Nat) : (fuel runStart runPages : Nat) → PageAllocator → PageAllocator
  | 0, _, _, m => m
  | fuel + 1, runStart, runPages, m =>
    if runPages = 0 then m
    else
      let order := runOrder runStart runPages
      let idx := firstIdx + runStart
      addFreeRunFrom firstIdx fuel (runStart + 2 ^ order) (runPages - 2 ^ order)
        (freelistPush order idx (blockMarkFree idx order m))

def addFreeRun (firstIdx runStart runPages : Nat) (m : PageAllocator) : PageAllocator :=
  addFreeRunFrom firstIdx runPages runStart runPages m

def scanRegion (r : MemRegionInfo) : (left p runStart runLen : Nat) → PageAllocator → PageAllocator
  | 0, _, runStart, runLen, m => if 0 < runLen then addFreeRun r.firstIdx runStart runLen m else m
  | left + 1, p, runStart, runLen, m =>
    let idx := r.firstIdx + p
    if isReservedPa m.layout (wrap64 (r.base + p * pageSize)) then
      let flushed := if 0 < runLen then addFreeRun r.firstIdx runStart runLen m else m
      scanRegion r left (p + 1) runStart 0
        { flushed with frames := setState idx frameUsed flushed.frames }
    else scanRegion r left (p + 1) (if runLen = 0 then p else runStart) (runLen + 1) m

def buddyBuildInitialState (m : PageAllocator) : PageAllocator :=
  m.layout.regions.foldl (fun state r => scanRegion r r.pageCount 0 0 0 state) m

def buddySetupMetadata (layout : Layout) : PageAllocator :=
  { layout := layout
    frames := fun _ => { state := frameUsed, freePrev := -1, freeNext := -1, kind := .none }
    freeLists := fun _ => -1
    memoryReady := false
    pageAllocCount := 0
    pageFreeCount := 0 }

structure PageInfo where
  index : Nat
  kind : PageKind
  allocatedHead : Bool

def pageQuery (base : Nat) (m : PageAllocator) : Option PageInfo :=
  if m.memoryReady then do
    let idx ← paToIndex m.layout base
    some { index := idx
           kind := (m.frames idx).kind
           allocatedHead := isAllocHeadTag (m.frames idx).state }
  else none

def pageSetKind (base : Nat) (kind : PageKind) (m : PageAllocator) : PageAllocator :=
  if m.memoryReady then
    match paToIndex m.layout base with
    | none => m
    | some idx =>
      if isAllocHeadTag (m.frames idx).state then { m with frames := setKind idx kind m.frames } else m
  else m

end OrangeKernel.Memory
