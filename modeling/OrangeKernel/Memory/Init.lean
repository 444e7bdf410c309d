import OrangeKernel.Memory.Build

set_option autoImplicit false

namespace OrangeKernel.Memory

open Machine

structure FdtMemRegion where
  base : UInt64
  size : UInt64

-- What a devicetree query stores in an array of `FDT_MAX_MEM_REGIONS` entries.
abbrev RegionList := { found : List FdtMemRegion // found.length ≤ fdtMaxMemRegions }

inductive Board where
  | orangePi
  | qemu

def userCodeBase : Board → Nat
  | .orangePi => 0x32000000
  | .qemu => 0x83000000

def userCodeSize : Nat := 0x00100000

-- `sizeof(struct frame_meta)`.
def frameMetaSize : Nat := 16

def int32Max : Nat := 2 ^ 31 - 1

-- A failed devicetree query is `none`.
structure BootInputs where
  board : Board
  memoryRegions : Option RegionList
  memreserveRegions : Option RegionList
  reservedMemoryRegions : Option RegionList
  dtbAddr : UInt64
  dtbSize : UInt32
  physStart : UInt64
  physEnd : UInt64
  initrdStart : UInt64
  initrdEnd : UInt64

structure RegionTable where
  regions : List MemRegionInfo
  totalPages : Nat

def pageRange (dt : FdtMemRegion) : Nat × Nat :=
  let base := dt.base.toNat
  let sum := wrap64 (base + dt.size.toNat)
  let rawEnd := if sum < base then maxU64 else sum
  (alignUp base pageSize, alignDown rawEnd pageSize)

def appendRegion (table : RegionTable) (start stop : Nat) : RegionTable :=
  let pages := (stop - start) / pageSize
  let region : MemRegionInfo :=
    { base := start, size := stop - start, firstIdx := table.totalPages, pageCount := pages }
  { regions := table.regions ++ [region], totalPages := table.totalPages + pages }

def addRegion (table : RegionTable) (dt : FdtMemRegion) : Option RegionTable :=
  if dt.base.toNat > maxU64 - (pageSize - 1) then none
  else
    let (start, stop) := pageRange dt
    if stop ≤ start then some table
    else if (stop - start) / pageSize = 0 then some table
    else if (stop - start) / pageSize > int32Max - table.totalPages then none
    else if table.regions.any fun r => rangesOverlap start stop r.base (wrap64 (r.base + r.size)) then none
    else some (appendRegion table start stop)

def addRegions : List FdtMemRegion → RegionTable → Option RegionTable
  | [], table => some table
  | dt :: rest, table =>
    if table.regions.length < fdtMaxMemRegions then (addRegion table dt).bind (addRegions rest)
    else some table

structure StartupRange where
  cur : Nat
  stop : Nat
  ready : Bool

def startupAllocatorInit (base size : Nat) : StartupRange :=
  let sum := wrap64 (base + size)
  let stop := if sum < base then maxU64 else sum
  let cur := if base < pageSize then pageSize else base
  { cur := cur
    stop := stop
    ready := cur < stop }

-- A loop that does not end is `none`, a null result `some none`.
def skipReserved (size align : Nat) (reserves : List ReserveRange) : (fuel p : Nat) → Option (Option Nat)
  | 0, _ => none
  | fuel + 1, p =>
    let stop := wrap64 (p + size)
    if stop < p then some none
    else
      match reserves.find? fun r => rangesOverlap p stop r.start r.stop with
      | none => some (some p)
      | some r =>
        if r.stop > maxU64 - (align - 1) then some none
        else skipReserved size align reserves fuel (alignUp r.stop align)

-- With a null result, `none`, nothing was stored.
def startupAlloc (size align : Nat) (range : StartupRange) (reserves : List ReserveRange) :
    Option (Nat × StartupRange × List ReserveRange) :=
  if range.ready = false ∨ size = 0 then none
  else
    let align := if align = 0 then 16 else align
    if align &&& (align - 1) ≠ 0 then none
    else if range.cur > maxU64 - (align - 1) then none
    else
      match (skipReserved size align reserves (reserves.length + 1) (alignUp range.cur align)).join with
      | none => none
      | some p =>
        let stop := wrap64 (p + size)
        if stop < p ∨ range.stop < stop then none
        else some (p, { range with cur := stop }, memoryReserve p size reserves)

def reserveAll (found : List FdtMemRegion) (reserves : List ReserveRange) : List ReserveRange :=
  found.foldl (fun table dt => memoryReserve dt.base.toNat dt.size.toNat table) reserves

def bootReserves (boot : BootInputs) (memreserve reservedMemory : List FdtMemRegion) : List ReserveRange :=
  let zeroPage := memoryReserve 0 pageSize []
  let dtb := if boot.dtbSize.toNat ≠ 0 then memoryReserve boot.dtbAddr.toNat boot.dtbSize.toNat zeroPage
    else zeroPage
  let kernel := memoryReserve boot.physStart.toNat (boot.physEnd - boot.physStart).toNat dtb
  let user := memoryReserve (userCodeBase boot.board) userCodeSize kernel
  let initrd := if boot.initrdStart < boot.initrdEnd
    then memoryReserve boot.initrdStart.toNat (boot.initrdEnd - boot.initrdStart).toNat user
    else user
  reserveAll reservedMemory (reserveAll memreserve initrd)

def layoutOf (table : RegionTable) (first : MemRegionInfo) (frameArray : Nat)
    (reserves : List ReserveRange) : Layout :=
  let direct := table.regions.length = 1
  { regions := table.regions
    managedPageCount := table.totalPages
    reserves := reserves
    regionsDirectMap := direct
    directMapBase := if direct then first.base else 0
    directMapFirstIdx := if direct then first.firstIdx else 0
    directMapLastIdx := if direct then first.firstIdx + first.pageCount else 0
    frameArray := frameArray }

-- An early return is `none`.
def memoryInit (boot : BootInputs) : Option PageAllocator := do
  let dtRegions ← boot.memoryRegions
  let table ← addRegions dtRegions.1 { regions := [], totalPages := 0 }
  let first ← table.regions.head?
  let memreserve ← boot.memreserveRegions
  let reservedMemory ← boot.reservedMemoryRegions
  let (frameArray, _, reserves) ← startupAlloc (wrap64 (table.totalPages * frameMetaSize)) pageSize
    (startupAllocatorInit first.base first.size) (bootReserves boot memreserve.1 reservedMemory.1)
  let built := buddyBuildInitialState (buddySetupMetadata (layoutOf table first frameArray reserves))
  some { built with memoryReady := true }

end OrangeKernel.Memory
