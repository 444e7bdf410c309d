import OrangeKernel.Memory.Init
import OrangeKernel.Shared.Bytes

set_option autoImplicit false

-- A function that waits for a byte which never comes has no result.

namespace OrangeKernel.Boot

open ByteMemory
open Memory (Board)

def uartBootBundleMagic : UInt64 := 0x324F4F42

def uartBootMaxSize : UInt64 := 16 * 1024 * 1024

def uartInitrdMaxSize : UInt64 := 64 * 1024 * 1024

def uartBootBundleMaxSize : UInt64 := uartBootMaxSize + uartInitrdMaxSize + 16

def uartBootLoadAddr : Board → UInt64
  | .orangePi => 0x20000000
  | .qemu => 0x82000000

def uartInitrdLoadAddr : Board → UInt64
  | .orangePi => 0x46100000
  | .qemu => 0x88000000

inductive Output where
  | string (text : String)
  | dec (value : UInt64)
  | hex (value : UInt64)

structure Loader where
  line : List UInt8
  sent : List Output
  mem : Mem
  bootHartid : UInt64
  dtb : UInt64
  initrdStart : UInt64
  initrdEnd : UInt64

abbrev Load := StateT Loader Option

def uartRecv : Load UInt8 := fun s =>
  match s.line with
  | [] => none
  | b :: rest => some (b, { s with line := rest })

def uartSend (output : Output) : Load Unit := modify fun s => { s with sent := s.sent ++ [output] }

def uartSendString (text : String) : Load Unit := uartSend (.string text)

def uartSendDec (value : UInt64) : Load Unit := uartSend (.dec value)

def uartSendHex (value : UInt64) : Load Unit := uartSend (.hex value)

def recvU32Le : Load UInt64 := do
  let b0 ← uartRecv
  let b1 ← uartRecv
  let b2 ← uartRecv
  let b3 ← uartRecv
  return b0.toUInt64 ||| b1.toUInt64 <<< 8 ||| b2.toUInt64 <<< 16 ||| b3.toUInt64 <<< 24

def recvFrom (dst : UInt64) : (left : Nat) → (i : UInt64) → Load Unit
  | 0, _ => pure ()
  | left + 1, i => do
    let b ← uartRecv
    modify fun s => { s with mem := store 1 (dst + i).toNat b.toNat s.mem }
    recvFrom dst left (i + 1)

def recvBytes (dst size : UInt64) : Load Unit := recvFrom dst size.toNat 0

def loadU32Le (p : UInt64) (mem : Mem) : UInt32 :=
  (mem.byte p.toNat).toUInt32 ||| (mem.byte (p + 1).toNat).toUInt32 <<< 8 |||
    (mem.byte (p + 2).toNat).toUInt32 <<< 16 ||| (mem.byte (p + 3).toNat).toUInt32 <<< 24

def copyBytes (dst src size : UInt64) (mem : Mem) : Mem :=
  if dst < src then ByteMemory.copyBytes dst.toNat src.toNat size.toNat 0 mem
  else if src < dst then copyBytesBack dst.toNat src.toNat size.toNat mem
  else mem

def checksumFrom (data : UInt64) (mem : Mem) : (left : Nat) → (i sum : UInt64) → UInt64
  | 0, _, sum => sum
  | left + 1, i, sum =>
    checksumFrom data mem left (i + 1) ((sum + (mem.byte (data + i).toNat).toUInt64) &&& 0xffffffff)

def checksumBytes (data size : UInt64) (mem : Mem) : UInt64 := checksumFrom data mem size.toNat 0 0

-- `size_out` is `none` for a null pointer.
def uartLoadImagePayload (dst maxSize loadAddr size expectedSum : UInt64) (sizeOut : Option UInt64) : Load Int := do
  if size = 0 ∨ size > maxSize then
    uartSendString "load fail: bad size "
    uartSendDec size
    uartSendString "\n"
    return -1
  uartSendString "loading "
  uartSendDec size
  uartSendString " bytes to "
  uartSendHex loadAddr
  uartSendString "\n"
  recvBytes dst size
  let actualSum := checksumBytes dst size (← get).mem
  if actualSum ≠ expectedSum then
    uartSendString "load fail: checksum exp="
    uartSendHex expectedSum
    uartSendString " got="
    uartSendHex actualSum
    uartSendString "\n"
    return -1
  if let some out := sizeOut then
    modify fun s => { s with mem := store 8 out.toNat size.toNat s.mem }
  return 0

structure Jump where
  entry : UInt64
  a0 : UInt64
  a1 : UInt64
  a2 : UInt64
  a3 : UInt64

def unpackBundle (board : Board) (size : UInt64) : Load Bool := do
  let bundle := uartBootLoadAddr board
  if size < 16 then
    uartSendString "load fail: bundle too small\n"
    return false
  let kernelSize := loadU32Le bundle (← get).mem
  let initrdSize := loadU32Le (bundle + 4) (← get).mem
  let kernelSum := loadU32Le (bundle + 8) (← get).mem
  let initrdSum := loadU32Le (bundle + 12) (← get).mem
  let totalNeeded := 16 + kernelSize.toUInt64 + initrdSize.toUInt64
  if kernelSize = 0 ∨ kernelSize.toUInt64 > uartBootMaxSize ∨ initrdSize = 0 ∨
      initrdSize.toUInt64 > uartInitrdMaxSize ∨ totalNeeded ≠ size then
    uartSendString "load fail: bad bundle layout\n"
    return false
  let kernelSrc := bundle + 16
  let initrdSrc := kernelSrc + kernelSize.toUInt64
  if checksumBytes kernelSrc kernelSize.toUInt64 (← get).mem ≠ kernelSum.toUInt64 ∨
      checksumBytes initrdSrc initrdSize.toUInt64 (← get).mem ≠ initrdSum.toUInt64 then
    uartSendString "load fail: bad bundle checksum\n"
    return false
  modify fun s => { s with mem := copyBytes (uartBootLoadAddr board) kernelSrc kernelSize.toUInt64 s.mem }
  modify fun s => { s with mem := copyBytes (uartInitrdLoadAddr board) initrdSrc initrdSize.toUInt64 s.mem }
  modify fun s => { s with
    initrdStart := uartInitrdLoadAddr board
    initrdEnd := uartInitrdLoadAddr board + initrdSize.toUInt64 }
  if (← get).initrdEnd < (← get).initrdStart then
    modify fun s => { s with initrdStart := 0, initrdEnd := 0 }
    uartSendString "load fail: initrd range overflow\n"
    return false
  uartSendString "bundle ok: kernel="
  uartSendDec kernelSize.toUInt64
  uartSendString " initrd="
  uartSendDec initrdSize.toUInt64
  uartSendString "\n"
  return true

-- `false` when the command gives up.
def receiveBundle (board : Board) (size expectedSum : UInt64) : Load Bool := do
  let dst := uartBootLoadAddr board
  if (← uartLoadImagePayload dst uartBootBundleMaxSize dst size expectedSum none) ≠ 0 then
    return false
  unpackBundle board size

def handOff (board : Board) : Load Jump := do
  uartSendString "load ok, jump "
  uartSendHex (uartBootLoadAddr board)
  if (← get).initrdEnd > (← get).initrdStart then
    uartSendString " (initrd "
    uartSendHex (← get).initrdStart
    uartSendString "-"
    uartSendHex (← get).initrdEnd
    uartSendString ")"
  uartSendString "\n"
  return ⟨uartBootLoadAddr board, (← get).bootHartid, (← get).dtb, (← get).initrdStart, (← get).initrdEnd⟩

-- `none` when the command returns to the shell.
def bootLoadAndJump (board : Board) : Load (Option Jump) := do
  uartSendString "UART loader ready for kernel+initrd bundle\n"
  uartSendString "send header <magic,size,checksum> then payload\n"
  let magic ← recvU32Le
  let size ← recvU32Le
  let expectedSum ← recvU32Le
  if magic = uartBootBundleMagic then
    if !(← receiveBundle board size expectedSum) then
      return none
  else
    uartSendString "load fail: bad magic "
    uartSendHex magic
    uartSendString " (expect BOO2 bundle)\n"
    return none
  return some (← handOff board)

end OrangeKernel.Boot
