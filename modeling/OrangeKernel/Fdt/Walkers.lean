import OrangeKernel.Fdt.Blob

set_option autoImplicit false

namespace OrangeKernel.Fdt

open ByteScan

def slash : UInt8 := 47

structure PathComp where
  start : Nat
  len : Nat

def scanComp (path : List UInt8) (p : Nat) : Scan (Nat × Nat) :=
  loop (fun (p, len) => do
    let c ← byteAt path p
    if c ≠ 0 ∧ c ≠ slash then pure (.next (p + 1, (len + 1) % 2 ^ 32)) else pure (.done (p, len))) (p, 0)

def pathComps (path : List UInt8) : Scan (Option (List PathComp)) :=
  loop (fun (p, comps) => do
    let c ← byteAt path p
    if c ≠ 0 then
      let (next, len) ← scanComp path p
      if comps.length ≥ fdtMaxDepth then pure (.done none)
      else
        let c ← byteAt path next
        pure (.next (if c = slash then next + 1 else next, comps ++ [{ start := p, len := len }]))
    else pure (.done (some comps))) (1, [])

structure PathState where
  cur : Nat
  depth : Int
  matchDepth : Int

def pathBegin (bytes : List UInt8) (structBase : Nat) (path : List UInt8) (comps : List PathComp) (s : PathState) :
    Scan (Round PathState Int) := do
  let nameLen ← strLen bytes s.cur
  let nodeOffset : Int := (s.cur : Int) - 4 - structBase
  let depth := s.depth + 1
  let cur := s.cur + align4 (nameLen + 1)
  if depth = 0 then
    if comps.length = 0 then pure (.done nodeOffset) else pure (.next { cur, depth, matchDepth := 0 })
  else if s.matchDepth = depth - 1 ∧ depth ≤ comps.length then
    let comp ← entryAt comps (depth - 1)
    let same ← nameEq bytes s.cur path comp.start comp.len
    if same then
      if depth = comps.length then pure (.done nodeOffset) else pure (.next { cur, depth, matchDepth := depth })
    else pure (.next { cur, depth, matchDepth := s.matchDepth })
  else pure (.next { cur, depth, matchDepth := s.matchDepth })

def pathToken (bytes : List UInt8) (structBase stop : Nat) (path : List UInt8) (comps : List PathComp) (s : PathState) :
    Scan (Round PathState Int) := do
  if s.cur < stop then
    let token ← cell bytes s.cur
    let s := { s with cur := s.cur + 4 }
    if token = fdtBeginNode then pathBegin bytes structBase path comps s
    else if token = fdtEndNode then
      pure (.next { s with
        depth := s.depth - 1
        matchDepth := if s.matchDepth = s.depth then s.depth - 1 else s.matchDepth })
    else if token = fdtProp then
      let len ← cell bytes s.cur
      pure (.next { s with cur := s.cur + 4 + 4 + align4 len })
    else if token = fdtNop then pure (.next s)
    else pure (.done (-1))
  else pure (.done (-1))

-- A null path is `none`.
def fdtPathOffset (fdt : Blob) (path : Option Text) : Scan Int := do
  match path with
  | none => pure (-1)
  | some path =>
    if fdt.addr = 0 then pure (-1)
    else
      let c ← byteAt path.bytes 0
      if c ≠ slash then pure (-1)
      else
        match ← pathComps path.bytes with
        | none => pure (-1)
        | some comps =>
          let checked ← fdtCheckHeader fdt
          if checked ≠ 0 then pure (-1)
          else
            let structBase ← fdt.offDtStruct
            let size ← fdt.sizeDtStruct
            loop (pathToken fdt.bytes structBase (structBase + size) path.bytes comps)
              { cur := structBase, depth := -1, matchDepth := -1 }

def isNodeRound (bytes : List UInt8) (base size target cur : Nat) : Scan (Round Nat Bool) := do
  if cur < base + size then
    let pos := cur - base
    let token ← cell bytes cur
    if pos = target then pure (.done (token = fdtBeginNode))
    else if pos > target then pure (.done false)
    else
      let cur := cur + 4
      if token = fdtBeginNode then
        let len ← strLen bytes cur
        pure (.next (cur + align4 (len + 1)))
      else if token = fdtProp then
        let len ← cell bytes cur
        pure (.next (cur + (8 + align4 len)))
      else if token = fdtEnd then pure (.done false)
      else pure (.next cur)
  else pure (.done false)

-- `offset` is compared as an `unsigned int`.
def fdtIsNodeOffset (bytes : List UInt8) (base size : Nat) (offset : Int) : Scan Bool :=
  loop (isNodeRound bytes base size (offset % 2 ^ 32).toNat) base

structure PropRef where
  data : Nat
  len : Int

structure PropState where
  cur : Nat
  depth : Int

def getpropToken (bytes : List UInt8) (stringsBase stop : Nat) (name : Text) (s : PropState) :
    Scan (Round PropState (Option PropRef)) := do
  if s.cur < stop then
    let token ← cell bytes s.cur
    let s := { s with cur := s.cur + 4 }
    if token = fdtBeginNode then
      let len ← strLen bytes s.cur
      pure (.next { cur := s.cur + align4 (len + 1), depth := s.depth + 1 })
    else if token = fdtEndNode then
      if s.depth = 0 then pure (.done none) else pure (.next { s with depth := s.depth - 1 })
    else if token = fdtProp then
      let len ← cell bytes s.cur
      let nameoff ← cell bytes (s.cur + 4)
      let data := s.cur + 4 + 4
      let same ← andAlso (s.depth = 0) do
        let wantLen ← strLen name.bytes 0
        nameEq bytes (stringsBase + nameoff) name.bytes 0 wantLen
      if same then pure (.done (some { data := data, len := toInt len }))
      else pure (.next { s with cur := data + align4 len })
    else if token = fdtNop then pure (.next s)
    else pure (.done none)
  else pure (.done none)

-- `nodeoffset` ranges over `int`; a null name is `none`.
def fdtGetprop (fdt : Blob) (nodeoffset : Int) (name : Option Text) : Scan (Option PropRef) := do
  match name with
  | none => pure none
  | some name =>
    let checked ← fdtCheckHeader fdt
    if checked ≠ 0 then pure none
    else
      let structBase ← fdt.offDtStruct
      let stringsBase ← fdt.offDtStrings
      let size ← fdt.sizeDtStruct
      if nodeoffset < 0 ∨ nodeoffset % 4 ≠ 0 ∨ nodeoffset ≥ size then pure none
      else
        let isNode ← fdtIsNodeOffset fdt.bytes structBase size nodeoffset
        if !isNode then pure none
        else
          let cur := structBase + nodeoffset.toNat
          let stop := structBase + size
          if cur + 4 > stop then pure none
          else
            let token ← cell fdt.bytes cur
            if token ≠ fdtBeginNode then pure none
            else
              let len ← strLen fdt.bytes (cur + 4)
              loop (getpropToken fdt.bytes stringsBase stop name)
                { cur := cur + 4 + align4 (len + 1), depth := 0 }

structure FindState where
  cur : Nat
  depth : Int
  currentNode : List Int

def findToken (fdt : Blob) (structBase stop : Nat) (compatible : Text) (s : FindState) :
    Scan (Round FindState Int) := do
  let bytes := fdt.bytes
  if s.cur < stop then
    let token ← cell bytes s.cur
    let s := { s with cur := s.cur + 4 }
    if token = fdtBeginNode then
      let nodeOffset : Int := (s.cur : Int) - 4 - structBase
      let depth : Int := s.depth + 1
      if (fdtMaxDepth : Int) ≤ depth then pure (.done (-1))
      else
        let currentNode ← storeEntry s.currentNode depth nodeOffset
        let len ← strLen bytes s.cur
        pure (.next { cur := s.cur + align4 (len + 1), depth, currentNode })
    else if token = fdtEndNode then pure (.next { s with depth := s.depth - 1 })
    else if token = fdtProp then
      let len ← cell bytes s.cur
      let nameoff ← cell bytes (s.cur + 4)
      let stringsBase ← fdt.offDtStrings
      let data := s.cur + 4 + 4
      let named ← andAlso (s.depth ≥ 0)
        (nameEq bytes (stringsBase + nameoff) (Text.ofAscii "compatible").bytes 0 10)
      let same ← andAlso named (propHasCompatible bytes data (toInt len) compatible)
      if same then
        let node ← entryAt s.currentNode s.depth
        pure (.done node)
      else pure (.next { s with cur := data + align4 len })
    else if token = fdtNop then pure (.next s)
    else pure (.done (-1))
  else pure (.done (-1))

def fdtFindCompatible (fdt : Blob) (compatible : Option Text) : Scan Int := do
  match compatible with
  | none => pure (-1)
  | some compatible =>
    let checked ← fdtCheckHeader fdt
    if checked ≠ 0 then pure (-1)
    else
      let structBase ← fdt.offDtStruct
      let size ← fdt.sizeDtStruct
      loop (findToken fdt structBase (structBase + size) compatible)
        { cur := structBase, depth := -1, currentNode := List.replicate fdtMaxDepth 0 }

end OrangeKernel.Fdt
