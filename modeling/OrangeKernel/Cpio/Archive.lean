import OrangeKernel.Fdt.Blob

set_option autoImplicit false

-- `cpio.c`. Pointers into the archive are offsets from its first byte.

namespace OrangeKernel.Cpio

open ByteScan
open Fdt (Text)

def cpioNewcMagic : List UInt8 := [0x30, 0x37, 0x30, 0x37, 0x30, 0x31]

-- `sizeof(struct cpio_newc_header)`.
def headerSize : Nat := 110

-- Where the fields that the reader uses stand in `struct cpio_newc_header`.
def cMode : Nat := 14
def cFilesize : Nat := 54
def cNamesize : Nat := 94

def hexDigit (c : UInt8) : Option UInt32 :=
  if 0x30 ≤ c ∧ c ≤ 0x39 then some (c.toUInt32 - 0x30)
  else if 0x61 ≤ c ∧ c ≤ 0x66 then some (c.toUInt32 - 0x61 + 10)
  else if 0x41 ≤ c ∧ c ≤ 0x46 then some (c.toUInt32 - 0x41 + 10)
  else none

def hexFrom (bytes : List UInt8) (s : Nat) : (left i : Nat) → (v : UInt32) → Scan (Option UInt32)
  | 0, _, v => pure (some v)
  | left + 1, i, v => do
    let c ← byteAt bytes (s + i)
    match hexDigit c with
    | some digit => hexFrom bytes s left (i + 1) ((v <<< 4) ||| digit)
    | none => pure none

def hexToU32 (bytes : List UInt8) (s : Nat) : Scan (Option UInt32) := hexFrom bytes s 8 0 0

def align4 (n : Nat) : Nat := Machine.roundUp4 (2 ^ 64) n

def strEq (a : List UInt8) (aAt : Nat) (b : List UInt8) : Scan Bool :=
  loop (fun i => do
    let x ← byteAt a (aAt + i)
    let both ← andAlso (x ≠ 0) (do
      let y ← byteAt b i
      pure (y ≠ 0))
    if both then
      let y ← byteAt b i
      if x ≠ y then pure (.done false) else pure (.next (i + 1))
    else
      let ended ← andAlso (x = 0) (do
        let y ← byteAt b i
        pure (y = 0))
      pure (.done ended)) 0

def magicFrom (bytes : List UInt8) (cur : Nat) : (magic : List UInt8) → Scan Bool
  | [] => pure true
  | m :: magic => do
    let c ← byteAt bytes cur
    if c ≠ m then pure false else magicFrom bytes (cur + 1) magic

-- The counter is an `unsigned int`.
def nameClean (bytes : List UInt8) (name : Nat) (namesz : UInt32) : Scan Bool :=
  loop (fun i => do
    if (i + 1) % 2 ^ 32 < namesz.toNat then
      let c ← byteAt bytes (name + i)
      if c = 0 then pure (.done false) else pure (.next ((i + 1) % 2 ^ 32))
    else pure (.done true)) 0

def trailerName : Text := Text.ofAscii "TRAILER!!!"

structure Call where
  name : Nat
  data : Nat
  size : UInt32
  mode : UInt32
deriving DecidableEq, Repr

inductive Parsed where
  | bad
  | trailer
  | entry (call : Call) (after : Nat)

def cpioBody (bytes : List UInt8) (limit cur : Nat) (namesz filesz mode : UInt32) : Scan Parsed := do
  let name := cur + headerSize
  if namesz = 0 ∨ namesz.toNat > limit - name then pure .bad
  else
    let last ← byteAt bytes (name + (namesz - 1).toNat)
    if last ≠ 0 then pure .bad
    else
      let clean ← nameClean bytes name namesz
      if !clean then pure .bad
      else
        let isTrailer ← strEq bytes name trailerName.bytes
        if isTrailer then pure .trailer
        else
          let nameSpan := align4 (headerSize + namesz.toNat)
          if nameSpan > limit - cur then pure .bad
          else
            let data := cur + nameSpan
            let fileSpan := align4 filesz.toNat
            if fileSpan > limit - data then pure .bad
            else pure (.entry ⟨name, data, filesz, mode⟩ (data + fileSpan))

def cpioRecord (bytes : List UInt8) (limit cur : Nat) : Scan Parsed := do
  if cur > limit ∨ limit - cur < headerSize then pure .bad
  else
    let magic ← magicFrom bytes cur cpioNewcMagic
    if !magic then pure .bad
    else
      match ← hexToU32 bytes (cur + cNamesize) with
      | none => pure .bad
      | some namesz =>
        match ← hexToU32 bytes (cur + cFilesize) with
        | none => pure .bad
        | some filesz =>
          match ← hexToU32 bytes (cur + cMode) with
          | none => pure .bad
          | some mode => cpioBody bytes limit cur namesz filesz mode

section Iterate

variable {σ : Type}

def cpioRound (bytes : List UInt8) (limit : Nat) (fn : Call → σ → Scan σ) (s : Nat × σ) :
    Scan (Round (Nat × σ) (Int × σ)) := do
  match ← cpioRecord bytes limit s.1 with
  | .bad => pure (.done (-1, s.2))
  | .trailer => pure (.done (0, s.2))
  | .entry call after =>
    let ctx ← fn call s.2
    pure (.next (after, ctx))

def cpioIterate (start stop : UInt64) (bytes : List UInt8) (fn : Option (Call → σ → Scan σ)) (ctx : σ) :
    Scan (Int × σ) :=
  match fn with
  | none => pure (-1, ctx)
  | some fn =>
    if start = 0 ∨ stop = 0 ∨ stop < start then pure (-1, ctx)
    else loop (cpioRound bytes (stop.toNat - start.toNat) fn) (0, ctx)

end Iterate

-- Which of the result pointers of `cpio_find` are not null.
structure Wanted where
  data : Bool
  size : Bool
  mode : Bool

structure FindCtx where
  data : Nat
  size : UInt64
  mode : UInt32
  found : Bool
deriving DecidableEq, Repr

def FindCtx.store (wanted : Wanted) (call : Call) (st : FindCtx) : FindCtx where
  data := if wanted.data then call.data else st.data
  size := if wanted.size then call.size.toUInt64 else st.size
  mode := if wanted.mode then call.mode else st.mode
  found := true

def cpioFindCb (bytes : List UInt8) (name : Text) (wanted : Wanted) (call : Call) (st : FindCtx) : Scan FindCtx := do
  if st.found then pure st
  else
    let same ← strEq bytes call.name name.bytes
    if same then pure (st.store wanted call) else pure st

def cpioFind (start stop : UInt64) (bytes : List UInt8) (name : Option Text) (wanted : Wanted) (st : FindCtx) :
    Scan (Int × FindCtx) :=
  match name with
  | none => pure (-1, st)
  | some name => do
    let (ret, after) ← cpioIterate start stop bytes (some (cpioFindCb bytes name wanted)) { st with found := false }
    if ret ≠ 0 then pure (-1, after) else pure (if after.found then 0 else -1, after)

end OrangeKernel.Cpio
