import OrangeKernel.Shared.Bytes
import OrangeKernel.Thread.Lifecycle

set_option autoImplicit false

namespace OrangeKernel.Thread

open Memory ByteMemory

structure StackMove where
  parentBase : UInt64
  parentTop : UInt64
  childBase : UInt64

def StackMove.remap (m : StackMove) (v : UInt64) : UInt64 :=
  if m.parentBase ≤ v ∧ v ≤ m.parentTop then m.childBase + (v - m.parentBase) else v

def remapWords (m : StackMove) : (left i : Nat) → Mem → Mem
  | 0, _, mem => mem
  | left + 1, i, mem =>
    let slot := m.childBase.toNat + 8 * i
    let v := UInt64.ofNat (load 8 slot mem)
    remapWords m left (i + 1)
      (if m.parentBase ≤ v ∧ v ≤ m.parentTop
        then store 8 slot (m.childBase + (v - m.parentBase)).toNat mem else mem)

def remappedFields : List TrapField :=
  [.ra, .sp, .t0, .t1, .t2, .s0, .s1, .a0, .a1, .a2, .a3, .a4, .a5, .a6, .a7, .s2, .s3, .s4, .s5, .s6, .s7, .s8,
    .s9, .s10, .s11, .t3, .t4, .t5, .t6]

def remapField (m : StackMove) (tc : TrapContext) (field : TrapField) : TrapContext :=
  tc.set field (m.remap (tc.word field))

def childContext (m : StackMove) (child : Addr) (parent : TrapContext) : TrapContext :=
  let resumed := ((parent.set .tp child).set .a0 0).set .sepc (parent.word .sepc + 4)
  let stacked := resumed.set .sp (m.childBase + (parent.word .sp - m.parentBase))
  remappedFields.foldl (remapField m) stacked

structure ForkOutcome where
  ret : Int
  freed : List UInt64
  mem : Mem
  kernel : Kernel

-- `stack` is what `kmalloc` answers for the child's user stack.
def sysFork (board : Board) (parentTc : TrapContext) (stack : UInt64) (grants : Grants) (mem : Mem) (k : Kernel) :
    Option ForkOutcome :=
  match threadCurrent k with
  | none => some ⟨-1, [], mem, k⟩
  | some parent =>
    if k.kind parent ≠ .user then some ⟨-1, [], mem, k⟩
    else do
      let size ← threadUserGroupSize parent k
      let base := k.userStackBase parent
      let top := k.userStackTop parent
      let sp := parentTc.word .sp
      if size ≠ 1 ∨ sp < base ∨ top < sp ∨ top - base ≠ userStackSize ∨
          stack = 0 then some ⟨-1, [], mem, k⟩
      else
        let move : StackMove := ⟨base, top, stack⟩
        let copied := copyBytes stack.toNat base.toNat userStackSize.toNat 0 mem
        let remapped := remapWords move (userStackSize.toNat / 8) 0 copied
        match threadPrepareUser board (k.userEntry parent) stack ((stack + userStackSize) &&& 0xFFFFFFFFFFFFFFF0)
            grants k with
        | (none, freed, after) => some ⟨-1, freed ++ [stack], remapped, after⟩
        | (some child, freed, after) =>
          let published := threadPublish child { after with
            tc := Function.update after.tc child (some (childContext move child parentTc)) }
          some ⟨published.tgid child, freed, remapped, published⟩

def handleUserFork (board : Board) (tc : TrapContext) (stack : UInt64) (grants : Grants) (mem : Mem) (k : Kernel) :
    Option (TrapContext × ForkOutcome) :=
  (sysFork board tc stack grants mem k).map fun out =>
    ((tc.set .a0 (UInt64.ofInt out.ret)).set .sepc (tc.word .sepc + 4), out)

end OrangeKernel.Thread
