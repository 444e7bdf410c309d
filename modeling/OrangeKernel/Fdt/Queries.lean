import OrangeKernel.Fdt.Walkers

set_option autoImplicit false

-- A region query answers the entries it stores, and `none` where the code returns `-1`.

namespace OrangeKernel.Fdt

open ByteScan Memory

-- The default is an `unsigned int` and the answer an `int`.
def fdtGetU32 (fdt : Blob) (node : Int) (name : Text) (defval : Nat) : Scan Int := do
  match ← fdtGetprop fdt node (some name) with
  | none => pure (toInt defval)
  | some prop =>
    if prop.len < 4 then pure (toInt defval)
    else
      let v ← cell fdt.bytes prop.data
      pure (toInt v)

def fdtGetU64Prop (fdt : Blob) (node : Int) (name : Text) : Scan (Option UInt64) := do
  match ← fdtGetprop fdt node (some name) with
  | none => pure none
  | some prop =>
    if prop.len ≥ 8 then
      let hi ← cell fdt.bytes prop.data
      let lo ← cell fdt.bytes (prop.data + 4)
      pure (some ((UInt64.ofNat hi <<< 32) ||| UInt64.ofNat lo))
    else if prop.len ≥ 4 then
      let v ← cell fdt.bytes prop.data
      pure (some (UInt64.ofNat v))
    else pure none

def readCells (bytes : List UInt8) (start count : Nat) : Scan UInt64 :=
  loop (fun ((i, value) : Nat × UInt64) => do
    if i < count then
      let c ← cell bytes (start + 4 * i)
      pure (.next (i + 1, (value <<< 32) ||| UInt64.ofNat c))
    else pure (.done value)) (0, 0)

-- `none` when the array is full.
def readTuples (bytes : List UInt8) (reg addrCells sizeCells tuples : Nat) (maxRegions : Int)
    (out : List FdtMemRegion) : Scan (Option (List FdtMemRegion)) :=
  loop (fun (t, out) => do
    if t < tuples then
      let entry := reg + 4 * (t * (addrCells + sizeCells))
      let addr ← readCells bytes entry addrCells
      let size ← readCells bytes (entry + 4 * addrCells) sizeCells
      if size ≠ 0 then
        if (out.length : Int) ≥ maxRegions then pure (.done none)
        else pure (.next (t + 1, out ++ [{ base := addr, size := size }]))
      else pure (.next (t + 1, out))
    else pure (.done (some out))) (0, out)

def badCells (addrCells sizeCells : Int) : Bool :=
  (addrCells ≠ 1 && addrCells ≠ 2) || (sizeCells ≠ 1 && sizeCells ≠ 2)

def readReg (fdt : Blob) (wanted : Bool) (node addrCells sizeCells maxRegions : Int) (out : List FdtMemRegion) :
    Scan (Option (List FdtMemRegion)) := do
  if !wanted then pure (some out)
  else
    match ← fdtGetprop fdt node (some (Text.ofAscii "reg")) with
    | none => pure (some out)
    | some reg =>
      let regCells := addrCells + sizeCells
      if regCells > 0 ∧ reg.len ≥ regCells * 4 then
        let tuples := reg.len.toNat / (regCells * 4).toNat
        readTuples fdt.bytes reg.data addrCells.toNat sizeCells.toNat tuples maxRegions out
      else pure (some out)

structure RegionState where
  cur : Nat
  depth : Int
  out : List FdtMemRegion

def isMemoryNode (fdt : Blob) (name : Nat) (node : Int) : Scan Bool := do
  let named ← nameEq fdt.bytes name (Text.ofAscii "memory").bytes 0 6
  let byName ← orElse named (nameStartsWith fdt.bytes name (Text.ofAscii "memory@").bytes)
  match ← fdtGetprop fdt node (some (Text.ofAscii "device_type")) with
  | none => pure byName
  | some dtype =>
    let byType ← andAlso (dtype.len ≥ 7) (nameEq fdt.bytes dtype.data (Text.ofAscii "memory").bytes 0 6)
    pure (byName || byType)

def memoryToken (fdt : Blob) (structBase stop : Nat) (addrCells sizeCells maxRegions : Int) (s : RegionState) :
    Scan (Round RegionState (Option (List FdtMemRegion))) := do
  if s.cur < stop then
    let token ← cell fdt.bytes s.cur
    let s := { s with cur := s.cur + 4 }
    if token = fdtBeginNode then
      let nameLen ← strLen fdt.bytes s.cur
      let node : Int := (s.cur : Int) - 4 - structBase
      let depth : Int := s.depth + 1
      let isMemory ← andAlso (depth = 1) (isMemoryNode fdt s.cur node)
      let stored ← readReg fdt isMemory node addrCells sizeCells maxRegions s.out
      match stored with
      | none => pure (.done none)
      | some out => pure (.next { cur := s.cur + align4 (nameLen + 1), depth := depth, out := out })
    else if token = fdtEndNode then pure (.next { s with depth := s.depth - 1 })
    else if token = fdtProp then
      let len ← cell fdt.bytes s.cur
      pure (.next { s with cur := s.cur + 4 + 4 + align4 len })
    else if token = fdtNop then pure (.next s)
    else if token = fdtEnd then pure (.done (some s.out))
    else pure (.done none)
  else pure (.done (some s.out))

def fdtGetMemoryRegions (fdt : Blob) (maxRegions : Int) : Scan (Option (List FdtMemRegion)) := do
  if fdt.addr = 0 ∨ maxRegions ≤ 0 then pure none
  else
    let checked ← fdtCheckHeader fdt
    if checked ≠ 0 then pure none
    else
      let root ← fdtPathOffset fdt (some (Text.ofAscii "/"))
      if root < 0 then pure none
      else
        let addrCells ← fdtGetU32 fdt root (Text.ofAscii "#address-cells") 2
        let sizeCells ← fdtGetU32 fdt root (Text.ofAscii "#size-cells") 2
        if badCells addrCells sizeCells then pure none
        else
          let structBase ← fdt.offDtStruct
          let size ← fdt.sizeDtStruct
          loop (memoryToken fdt structBase (structBase + size) addrCells sizeCells maxRegions)
            { cur := structBase, depth := -1, out := [] }

def reservedToken (fdt : Blob) (structBase stop : Nat) (addrCells sizeCells maxRegions : Int) (s : RegionState) :
    Scan (Round RegionState (Option (List FdtMemRegion))) := do
  if s.cur < stop then
    let token ← cell fdt.bytes s.cur
    let s := { s with cur := s.cur + 4 }
    if token = fdtBeginNode then
      let nameLen ← strLen fdt.bytes s.cur
      let node : Int := (s.cur : Int) - 4 - structBase
      let depth : Int := s.depth + 1
      let stored ← readReg fdt (depth = 1) node addrCells sizeCells maxRegions s.out
      match stored with
      | none => pure (.done none)
      | some out => pure (.next { cur := s.cur + align4 (nameLen + 1), depth := depth, out := out })
    else if token = fdtEndNode then
      if s.depth = 0 then pure (.done (some s.out)) else pure (.next { s with depth := s.depth - 1 })
    else if token = fdtProp then
      let len ← cell fdt.bytes s.cur
      pure (.next { s with cur := s.cur + 4 + 4 + align4 len })
    else if token = fdtNop then pure (.next s)
    else if token = fdtEnd then pure (.done (some s.out))
    else pure (.done none)
  else pure (.done (some s.out))

def toUnsigned (n : Int) : Nat := (n % 2 ^ 32).toNat

def fdtGetReservedMemoryRegions (fdt : Blob) (maxRegions : Int) : Scan (Option (List FdtMemRegion)) := do
  if fdt.addr = 0 ∨ maxRegions ≤ 0 then pure none
  else
    let checked ← fdtCheckHeader fdt
    if checked ≠ 0 then pure none
    else
      let node ← fdtPathOffset fdt (some (Text.ofAscii "/reserved-memory"))
      if node < 0 then pure (some [])
      else
        let root ← fdtPathOffset fdt (some (Text.ofAscii "/"))
        if root < 0 then pure none
        else
          let rootAddr ← fdtGetU32 fdt root (Text.ofAscii "#address-cells") 2
          let addrCells ← fdtGetU32 fdt node (Text.ofAscii "#address-cells") (toUnsigned rootAddr)
          let rootSize ← fdtGetU32 fdt root (Text.ofAscii "#size-cells") 2
          let sizeCells ← fdtGetU32 fdt node (Text.ofAscii "#size-cells") (toUnsigned rootSize)
          if badCells addrCells sizeCells then pure none
          else
            let structBase ← fdt.offDtStruct
            let size ← fdt.sizeDtStruct
            let stop := structBase + size
            let cur := structBase + node.toNat
            if cur + 4 > stop then pure none
            else
              let token ← cell fdt.bytes cur
              if token ≠ fdtBeginNode then pure none
              else
                let len ← strLen fdt.bytes (cur + 4)
                loop (reservedToken fdt structBase stop addrCells sizeCells maxRegions)
                  { cur := cur + 4 + align4 (len + 1), depth := 0, out := [] }

def fdtGetMemreserveRegions (fdt : Blob) (maxRegions : Int) : Scan (Option (List FdtMemRegion)) := do
  if maxRegions ≤ 0 then pure none
  else
    let checked ← fdtCheckHeader fdt
    if checked ≠ 0 then pure none
    else
      let start ← fdt.offMemRsvmap
      let stop ← fdt.totalsize
      loop (fun (cur, out) => do
        if cur + 16 ≤ stop then
          let baseHi ← cell fdt.bytes cur
          let baseLo ← cell fdt.bytes (cur + 4)
          let sizeHi ← cell fdt.bytes (cur + 8)
          let sizeLo ← cell fdt.bytes (cur + 12)
          let base := (UInt64.ofNat baseHi <<< 32) ||| UInt64.ofNat baseLo
          let size := (UInt64.ofNat sizeHi <<< 32) ||| UInt64.ofNat sizeLo
          if base = 0 ∧ size = 0 then pure (.done (some out))
          else if size ≠ 0 then
            if (out.length : Int) ≥ maxRegions then pure (.done none)
            else pure (.next (cur + 16, out ++ [{ base := base, size := size }]))
          else pure (.next (cur + 16, out))
        else pure (.done none)) (start, ([] : List FdtMemRegion))

def fdtGetInitrdRange (fdt : Blob) : Scan (Option (UInt64 × UInt64)) := do
  let checked ← fdtCheckHeader fdt
  if checked ≠ 0 then pure none
  else
    let node ← fdtPathOffset fdt (some (Text.ofAscii "/chosen"))
    if node < 0 then pure none
    else
      match ← fdtGetU64Prop fdt node (Text.ofAscii "linux,initrd-start") with
      | none => pure none
      | some start =>
        match ← fdtGetU64Prop fdt node (Text.ofAscii "linux,initrd-end") with
        | none => pure none
        | some stop => pure (if stop ≤ start then none else some (start, stop))

def fdtGetTimebaseFrequency (fdt : Blob) : Scan (Option Nat) := do
  if fdt.addr = 0 then pure none
  else
    let checked ← fdtCheckHeader fdt
    if checked ≠ 0 then pure none
    else
      let node ← fdtPathOffset fdt (some (Text.ofAscii "/cpus"))
      if node < 0 then pure none
      else
        match ← fdtGetprop fdt node (some (Text.ofAscii "timebase-frequency")) with
        | none => pure none
        | some prop =>
          if prop.len < 4 then pure none
          else
            let freq ← cell fdt.bytes prop.data
            pure (some freq)

end OrangeKernel.Fdt
