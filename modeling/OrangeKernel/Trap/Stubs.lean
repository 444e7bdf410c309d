import OrangeKernel.Shared.Riscv
import OrangeKernel.Thread.State

set_option autoImplicit false

-- `trap_entry.S` and `switch_to.S`. A block that runs into the next label has the code of that
-- label at its end.

namespace OrangeKernel.Trap

open Riscv
open Thread (TrapField TrapContext)

def tcOffset : TrapField → Nat
  | .ra => 0
  | .sp => 8
  | .gp => 16
  | .tp => 24
  | .t0 => 32
  | .t1 => 40
  | .t2 => 48
  | .s0 => 56
  | .s1 => 64
  | .a0 => 72
  | .a1 => 80
  | .a2 => 88
  | .a3 => 96
  | .a4 => 104
  | .a5 => 112
  | .a6 => 120
  | .a7 => 128
  | .s2 => 136
  | .s3 => 144
  | .s4 => 152
  | .s5 => 160
  | .s6 => 168
  | .s7 => 176
  | .s8 => 184
  | .s9 => 192
  | .s10 => 200
  | .s11 => 208
  | .t3 => 216
  | .t4 => 224
  | .t5 => 232
  | .t6 => 240
  | .sepc => 248
  | .sstatus => 256
  | .scause => 264
  | .stval => 272

def trapContextAllocSize : Nat := 288

def threadSlots : List (Reg × Nat) :=
  [(.ra, 0), (.sp, 8), (.s0, 16), (.s1, 24), (.s2, 32), (.s3, 40), (.s4, 48), (.s5, 56), (.s6, 64),
    (.s7, 72), (.s8, 80),
    (.s9, 88), (.s10, 96), (.s11, 104)]

def threadContextSize : Nat := 112

inductive Label where
  | trapEntry
  | trapSaveContext
  | trapRestoreContext
  | trapSwitchFromExitedUser
  | trapExitFallback
  | trapReturn
  | trapReturnToSupervisor
  | trapRestoreRegisters

inductive CFunction where
  | trapDispatch
  | runBottomHalves
  | userHasExited
  | threadConsumeReschedRequest
  | schedule
  | userScheduleAfterExit
deriving DecidableEq

abbrev Code := List (Instr Label CFunction)

def restoredRegisters : List (Reg × Nat) :=
  [(.ra, tcOffset .ra), (.gp, tcOffset .gp), (.tp, tcOffset .tp), (.t1, tcOffset .t1), (.t2, tcOffset .t2),
    (.s0, tcOffset .s0), (.s1, tcOffset .s1), (.a0, tcOffset .a0), (.a1, tcOffset .a1), (.a2, tcOffset .a2),
    (.a3, tcOffset .a3), (.a4, tcOffset .a4), (.a5, tcOffset .a5), (.a6, tcOffset .a6), (.a7, tcOffset .a7),
    (.s2, tcOffset .s2), (.s3, tcOffset .s3), (.s4, tcOffset .s4), (.s5, tcOffset .s5), (.s6, tcOffset .s6),
    (.s7, tcOffset .s7), (.s8, tcOffset .s8), (.s9, tcOffset .s9), (.s10, tcOffset .s10), (.s11, tcOffset .s11),
    (.t3, tcOffset .t3), (.t4, tcOffset .t4), (.t5, tcOffset .t5), (.t6, tcOffset .t6)]

def restoreRegisters : List Op :=
  restores .t0 restoredRegisters ++ [Op.ld .sp (tcOffset .sp) .t0, .ld .t0 (tcOffset .t0) .t0]

def trapRestoreRegisters : Code := restoreRegisters.map Instr.op ++ [Instr.sret]

def trapReturnToSupervisor : Code := .op (.csrw .sscratch none) :: trapRestoreRegisters

-- The context's address is in `a0`.
def trapReturn : Code :=
  ([ .op (.csrci .sstatus 2),
     .op (.mv .t0 .a0),
     .op (.ld .t1 (tcOffset .sepc) .t0),
     .op (.csrw .sepc (some .t1)),
     .op (.ld .t1 (tcOffset .sstatus) .t0),
     .op (.andi .t1 .t1 (-3)),
     .op (.csrw .sstatus (some .t1)),
     .op (.andi .t1 .t1 0x100),
     .bnez .t1 .trapReturnToSupervisor,
     .op (.addi .t1 .t0 trapContextAllocSize),
     .op (.csrw .sscratch (some .t1)),
     .j .trapRestoreRegisters ] : Code) ++ trapReturnToSupervisor

def trapExitFallback : Code := [.wfi, .j .trapExitFallback]

def trapSwitchFromExitedUser : Code := .call .userScheduleAfterExit :: trapExitFallback

def trapRestoreContext : Code := .op (.mv .a0 .sp) :: .callLabel .trapReturn :: trapSwitchFromExitedUser

-- what is left of `trap_entry` after each of its calls

def afterConsume : Code := .beqz .a0 .trapRestoreContext :: .call .schedule :: trapRestoreContext

def afterExited : Code := .bnez .a0 .trapSwitchFromExitedUser :: .call .threadConsumeReschedRequest :: afterConsume

def afterBottomHalves : Code :=
  ([ .op (.ld .t0 (tcOffset .sstatus) .sp),
     .op (.andi .t0 .t0 0x100),
     .bnez .t0 .trapRestoreContext,
     .call .userHasExited ] : Code) ++ afterExited

def afterDispatch : Code := .call .runBottomHalves :: afterBottomHalves

def savedRegisters : List (Reg × Nat) :=
  [(.gp, tcOffset .gp), (.tp, tcOffset .tp), (.t1, tcOffset .t1), (.t2, tcOffset .t2), (.s0, tcOffset .s0),
    (.s1, tcOffset .s1), (.a0, tcOffset .a0), (.a1, tcOffset .a1), (.a2, tcOffset .a2), (.a3, tcOffset .a3),
    (.a4, tcOffset .a4), (.a5, tcOffset .a5), (.a6, tcOffset .a6), (.a7, tcOffset .a7), (.s2, tcOffset .s2),
    (.s3, tcOffset .s3), (.s4, tcOffset .s4), (.s5, tcOffset .s5), (.s6, tcOffset .s6), (.s7, tcOffset .s7),
    (.s8, tcOffset .s8), (.s9, tcOffset .s9), (.s10, tcOffset .s10), (.s11, tcOffset .s11), (.t3, tcOffset .t3),
    (.t4, tcOffset .t4), (.t5, tcOffset .t5), (.t6, tcOffset .t6)]

def saveContext : List Op :=
  .addi .sp .sp (-trapContextAllocSize) ::
    (saves .sp [(.ra, tcOffset .ra), (.t0, tcOffset .t0)] ++ Op.csrr .t0 .sscratch ::
    (saves .sp [(.t0, tcOffset .sp)] ++ Op.csrw .sscratch none ::
    (saves .sp savedRegisters ++ Op.csrr .t0 .sepc ::
    (saves .sp [(.t0, tcOffset .sepc)] ++ Op.csrr .t0 .sstatus ::
    (saves .sp [(.t0, tcOffset .sstatus)] ++ Op.csrr .t0 .scause ::
    (saves .sp [(.t0, tcOffset .scause)] ++ Op.csrr .t0 .stval ::
    (saves .sp [(.t0, tcOffset .stval)] ++ [Op.mv .a0 .sp])))))))

def trapSaveContext : Code := saveContext.map Instr.op ++ Instr.call .trapDispatch :: afterDispatch

def trapEntry : Code :=
  ([ .op (.csrrw .sp .sscratch .sp),
     .bnez .sp .trapSaveContext,
     .op (.csrr .sp .sscratch) ] : Code) ++ trapSaveContext

def switchRegisters : List Op := saves .a0 threadSlots ++ restores .a1 threadSlots ++ [Op.mv .tp .a1]

-- From the thread in `a0` to the one in `a1`.
def switchTo : Code := switchRegisters.map Instr.op ++ [Instr.ret]

structure Links where
  function : CFunction → UInt64
  label : Label → UInt64
  bootstrap : UInt64

def program (links : Links) : Program Label CFunction where
  code
    | .trapEntry => trapEntry
    | .trapSaveContext => trapSaveContext
    | .trapRestoreContext => trapRestoreContext
    | .trapSwitchFromExitedUser => trapSwitchFromExitedUser
    | .trapExitFallback => trapExitFallback
    | .trapReturn => trapReturn
    | .trapReturnToSupervisor => trapReturnToSupervisor
    | .trapRestoreRegisters => trapRestoreRegisters
  link := links.function
  linkLabel := links.label

-- No stub has a hundred instructions between two calls.
def runStub (links : Links) (code : Code) (m : Machine) : Option (Stop Label CFunction) :=
  run (program links) 100 code m

def contextAt (addr : UInt64) (mem : ByteMemory.Mem) : TrapContext where
  word field := word (addr + UInt64.ofNat (tcOffset field)) mem

end OrangeKernel.Trap
