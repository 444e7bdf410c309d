import OrangeKernel.Memory.Init
import OrangeKernel.Shared.Scan

set_option autoImplicit false

-- `fdt.c`. Pointers into the blob are offsets from its first byte.

namespace OrangeKernel.Fdt

open ByteScan

structure Blob where
  addr : UInt64
  bytes : List UInt8

structure Text where
  chars : List UInt8
  noNul : 0 ∉ chars

def Text.bytes (t : Text) : List UInt8 := t.chars ++ [0]

theorem Text.bytes_length (t : Text) : t.bytes.length = t.chars.length + 1 := by simp [Text.bytes]

def Text.ofAscii (s : String) : Text where
  chars := (s.toList.map fun c => UInt8.ofNat c.toNat).filter (· ≠ 0)
  noNul := by simp

def fdtMagic : Nat := 0xd00dfeed

def fdtBeginNode : Nat := 1
def fdtEndNode : Nat := 2
def fdtProp : Nat := 3
def fdtNop : Nat := 4
def fdtEnd : Nat := 9

def fdtMaxDepth : Nat := 16

-- `sizeof(struct fdt_header)`.
def headerSize : Nat := 40

def fdt32ToCpu (v : UInt32) : UInt32 :=
  ((v &&& 0x000000ff) <<< 24) ||| ((v &&& 0x0000ff00) <<< 8) ||| ((v &&& 0x00ff0000) >>> 8) |||
    ((v &&& 0xff000000) >>> 24)

-- `*(const uint32_t *)` on a little-endian machine.
def load32 (bytes : List UInt8) (i : Nat) : Scan UInt32 := do
  let b0 ← byteAt bytes i
  let b1 ← byteAt bytes (i + 1)
  let b2 ← byteAt bytes (i + 2)
  let b3 ← byteAt bytes (i + 3)
  pure (UInt32.ofNat (b0.toNat + 256 * (b1.toNat + 256 * (b2.toNat + 256 * b3.toNat))))

def cell (bytes : List UInt8) (i : Nat) : Scan Nat := do
  let v ← load32 bytes i
  pure (fdt32ToCpu v).toNat

def Blob.magic (fdt : Blob) : Scan Nat := cell fdt.bytes 0
def Blob.totalsize (fdt : Blob) : Scan Nat := cell fdt.bytes 4
def Blob.offDtStruct (fdt : Blob) : Scan Nat := cell fdt.bytes 8
def Blob.offDtStrings (fdt : Blob) : Scan Nat := cell fdt.bytes 12
def Blob.offMemRsvmap (fdt : Blob) : Scan Nat := cell fdt.bytes 16
def Blob.sizeDtStrings (fdt : Blob) : Scan Nat := cell fdt.bytes 32
def Blob.sizeDtStruct (fdt : Blob) : Scan Nat := cell fdt.bytes 36

def toInt (n : Nat) : Int := if n < 2 ^ 31 then n else n - 2 ^ 32

-- The counter is an `unsigned int`.
def strLen (s : List UInt8) (start : Nat) : Scan Nat :=
  loop (fun n => do
    let c ← byteAt s (start + n)
    if c ≠ 0 then pure (.next ((n + 1) % 2 ^ 32)) else pure (.done n)) 0

def nameEq (name : List UInt8) (nameAt : Nat) (cmp : List UInt8) (cmpAt len : Nat) : Scan Bool :=
  loop (fun i => do
    if i < len then
      let a ← byteAt name (nameAt + i)
      let b ← byteAt cmp (cmpAt + i)
      if a ≠ b then pure (.done false) else pure (.next (i + 1))
    else
      let c ← byteAt name (nameAt + len)
      pure (.done (c = 0))) 0

def nameStartsWith (name : List UInt8) (nameAt : Nat) (start : List UInt8) : Scan Bool :=
  loop (fun i => do
    let p ← byteAt start i
    if p ≠ 0 then
      let c ← byteAt name (nameAt + i)
      if c ≠ p then pure (.done false) else pure (.next ((i + 1) % 2 ^ 32))
    else pure (.done true)) 0

-- `while (n < room && start[n] != 0) n++`
def scanNul (bytes : List UInt8) (start room : Nat) : Scan Nat :=
  loop (fun n => do
    if n < room then
      let c ← byteAt bytes (start + n)
      if c ≠ 0 then pure (.next (n + 1)) else pure (.done n)
    else pure (.done n)) 0

def propHasCompatible (bytes : List UInt8) (prop : Nat) (len : Int) (compatible : Text) : Scan Bool := do
  if len ≤ 0 then pure false
  else
    let stop := prop + len.toNat
    let wantLen ← strLen compatible.bytes 0
    loop (fun cur => do
      if cur < stop then
        let c ← byteAt bytes cur
        if c ≠ 0 then
          let curLen ← scanNul bytes cur (stop - cur)
          if cur + curLen = stop then pure (.done false)
          else
            let same ← andAlso (curLen = wantLen) (nameEq bytes cur compatible.bytes 0 wantLen)
            if same then pure (.done true) else pure (.next (cur + (curLen + 1)))
        else pure (.done false)
      else pure (.done false)) prop

def align4 (n : Nat) : Nat := Machine.roundUp4 (2 ^ 32) n

-- The locals of `fdt_check_header` that its loop only reads.
structure Blocks where
  stop : Nat
  strings : Nat
  stringSize : Nat

structure CheckState where
  cur : Nat
  depth : Nat
  rootSeen : Bool

def checkBegin (bytes : List UInt8) (blocks : Blocks) (s : CheckState) : Scan (Round CheckState Int) := do
  if s.depth = 0 ∧ s.rootSeen then pure (.done (-1))
  else if s.depth + 1 > fdtMaxDepth then pure (.done (-1))
  else
    let n ← scanNul bytes s.cur (blocks.stop - s.cur)
    if s.cur + n = blocks.stop ∨ align4 (n + 1) > blocks.stop - s.cur then pure (.done (-1))
    else pure (.next { cur := s.cur + align4 (n + 1), depth := s.depth + 1, rootSeen := true })

def checkProp (bytes : List UInt8) (blocks : Blocks) (s : CheckState) : Scan (Round CheckState Int) := do
  if s.depth = 0 ∨ blocks.stop - s.cur < 8 then pure (.done (-1))
  else
    let len ← cell bytes s.cur
    let nameoff ← cell bytes (s.cur + 4)
    let data := s.cur + 8
    if len > 0x7fffffff ∨ align4 len > blocks.stop - data ∨ nameoff ≥ blocks.stringSize then pure (.done (-1))
    else
      let n ← scanNul bytes (blocks.strings + nameoff) (blocks.stringSize - nameoff)
      if n = blocks.stringSize - nameoff then pure (.done (-1))
      else pure (.next { s with cur := data + align4 len })

def checkToken (bytes : List UInt8) (blocks : Blocks) (s : CheckState) : Scan (Round CheckState Int) := do
  if blocks.stop - s.cur ≥ 4 then
    let token ← cell bytes s.cur
    let s := { s with cur := s.cur + 4 }
    if token = fdtBeginNode then checkBegin bytes blocks s
    else if token = fdtEndNode then
      if s.depth = 0 then pure (.done (-1)) else pure (.next { s with depth := s.depth - 1 })
    else if token = fdtProp then checkProp bytes blocks s
    else if token = fdtNop then pure (.next s)
    else if token = fdtEnd then pure (.done (if s.rootSeen ∧ s.depth = 0 then 0 else -1))
    else pure (.done (-1))
  else pure (.done (-1))

def badBlocks (total offset size stringOffset stringSize reserveOffset : Nat) : Bool :=
  total < headerSize || total > 0x7fffffff ||
  offset < headerSize || offset % 4 ≠ 0 || offset > total || size > total - offset ||
  stringOffset < headerSize || stringOffset > total || stringSize > total - stringOffset ||
  reserveOffset < headerSize || reserveOffset % 8 ≠ 0 || reserveOffset > total ||
  total - reserveOffset < 16

def fdtCheckHeader (fdt : Blob) : Scan Int := do
  if fdt.addr = 0 ∨ fdt.addr &&& 3 ≠ 0 then pure (-1)
  else
    let magic ← fdt.magic
    if magic ≠ fdtMagic then pure (-1)
    else
      let total ← fdt.totalsize
      let offset ← fdt.offDtStruct
      let size ← fdt.sizeDtStruct
      let stringOffset ← fdt.offDtStrings
      let stringSize ← fdt.sizeDtStrings
      let reserveOffset ← fdt.offMemRsvmap
      if badBlocks total offset size stringOffset stringSize reserveOffset then pure (-1)
      else
        loop (checkToken fdt.bytes { stop := offset + size, strings := stringOffset, stringSize := stringSize })
          { cur := offset, depth := 0, rootSeen := false }

end OrangeKernel.Fdt
