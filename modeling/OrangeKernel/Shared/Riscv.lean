import Mathlib.Logic.Function.Basic
import OrangeKernel.Shared.Bytes

set_option autoImplicit false

namespace Riscv

open ByteMemory

inductive Reg where
  | ra | sp | gp | tp | t0 | t1 | t2 | s0 | s1
  | a0 | a1 | a2 | a3 | a4 | a5 | a6 | a7
  | s2 | s3 | s4 | s5 | s6 | s7 | s8 | s9 | s10 | s11
  | t3 | t4 | t5 | t6
deriving DecidableEq, Repr

inductive Csr where
  | sscratch | sepc | sstatus | scause | stval
deriving DecidableEq, Repr

inductive Privilege where
  | user
  | supervisor
deriving DecidableEq, Repr

structure Machine where
  reg : Reg → UInt64
  csr : Csr → UInt64
  mem : Mem
  pc : UInt64
  privilege : Privilege

def Machine.set (r : Reg) (value : UInt64) (m : Machine) : Machine := { m with reg := Function.update m.reg r value }

def Machine.setCsr (c : Csr) (value : UInt64) (m : Machine) : Machine := { m with csr := Function.update m.csr c value }

def word (addr : UInt64) (mem : Mem) : UInt64 := UInt64.ofNat (load 8 addr.toNat mem)

def setWord (addr value : UInt64) (mem : Mem) : Mem := store 8 addr.toNat value.toNat mem

def statusSie : UInt64 := 0x2
def statusSpie : UInt64 := 0x20
def statusSpp : UInt64 := 0x100
def statusRest : UInt64 := ~~~0x122

def trapStatus (origin : Privilege) (status : UInt64) : UInt64 :=
  (status &&& statusRest) ||| (if status &&& statusSie ≠ 0 then statusSpie else 0) |||
    (if origin = .supervisor then statusSpp else 0)

-- What it executes next is given as code.
def Machine.takeTrap (cause tval : UInt64) (m : Machine) : Machine :=
  let traced := ((m.setCsr .sepc m.pc).setCsr .scause cause).setCsr .stval tval
  { traced.setCsr .sstatus (trapStatus m.privilege (m.csr .sstatus)) with privilege := .supervisor }

def returnStatus (status : UInt64) : UInt64 :=
  (status &&& statusRest) ||| (if status &&& statusSpie ≠ 0 then statusSie else 0) ||| statusSpie

def Machine.sret (m : Machine) : Machine :=
  { m.setCsr .sstatus (returnStatus (m.csr .sstatus)) with
    pc := m.csr .sepc
    privilege := if m.csr .sstatus &&& statusSpp ≠ 0 then .supervisor else .user }

theorem or_and (a b c : UInt64) : (a ||| b) &&& c = (a &&& c) ||| (b &&& c) := by
  apply UInt64.eq_of_toBitVec_eq
  apply BitVec.eq_of_getLsbD_eq
  intro i _
  simp only [UInt64.toBitVec_and, UInt64.toBitVec_or, BitVec.getLsbD_and, BitVec.getLsbD_or, Bool.and_or_distrib_right]

theorem trapStatus_spp (origin : Privilege) (status : UInt64) :
    trapStatus origin status &&& statusSpp = if origin = .supervisor then statusSpp else 0 := by
  have rest : status &&& statusRest &&& statusSpp = 0 := by
    rw [UInt64.and_assoc]
    exact UInt64.and_zero
  unfold trapStatus
  rw [or_and, or_and, rest]
  split <;> split <;> rfl

-- In `csrw`, `none` is the register `zero`.
inductive Op where
  | csrrw (rd : Reg) (c : Csr) (rs : Reg)
  | csrr (rd : Reg) (c : Csr)
  | csrw (c : Csr) (rs : Option Reg)
  | csrci (c : Csr) (mask : UInt64)
  | addi (rd rs : Reg) (imm : Int)
  | andi (rd rs : Reg) (imm : Int)
  | mv (rd rs : Reg)
  | sd (rs : Reg) (offset : Nat) (base : Reg)
  | ld (rd : Reg) (offset : Nat) (base : Reg)

def Op.apply (m : Machine) : Op → Machine
  | .csrrw rd c rs => (m.setCsr c (m.reg rs)).set rd (m.csr c)
  | .csrr rd c => m.set rd (m.csr c)
  | .csrw c rs => m.setCsr c (rs.elim 0 m.reg)
  | .csrci c mask => m.setCsr c (m.csr c &&& ~~~mask)
  | .addi rd rs imm => m.set rd (m.reg rs + UInt64.ofInt imm)
  | .andi rd rs imm => m.set rd (m.reg rs &&& UInt64.ofInt imm)
  | .mv rd rs => m.set rd (m.reg rs)
  | .sd rs offset base => { m with mem := setWord (m.reg base + UInt64.ofNat offset) (m.reg rs) m.mem }
  | .ld rd offset base => m.set rd (word (m.reg base + UInt64.ofNat offset) m.mem)

inductive Instr (Label Fn : Type) where
  | op (o : Op)
  | bnez (rs : Reg) (target : Label)
  | beqz (rs : Reg) (target : Label)
  | j (target : Label)
  | call (f : Fn)
  | callLabel (target : Label)
  | sret
  | ret
  | wfi

structure Program (Label Fn : Type) where
  code : Label → List (Instr Label Fn)
  link : Fn → UInt64
  linkLabel : Label → UInt64

inductive Stop (Label Fn : Type) where
  | call (f : Fn) (rest : List (Instr Label Fn)) (m : Machine)
  | sret (m : Machine)
  | ret (m : Machine)
  | wfi (rest : List (Instr Label Fn)) (m : Machine)

variable {Label Fn : Type}

-- `none` when the fuel is used up or the code ends.
def run (p : Program Label Fn) : (fuel : Nat) → List (Instr Label Fn) → Machine → Option (Stop Label Fn)
  | 0, _, _ => none
  | _ + 1, [], _ => none
  | fuel + 1, .op o :: rest, m => run p fuel rest (o.apply m)
  | fuel + 1, .bnez rs target :: rest, m =>
    if m.reg rs ≠ 0 then run p fuel (p.code target) m else run p fuel rest m
  | fuel + 1, .beqz rs target :: rest, m =>
    if m.reg rs = 0 then run p fuel (p.code target) m else run p fuel rest m
  | fuel + 1, .j target :: _, m => run p fuel (p.code target) m
  | _ + 1, .call f :: rest, m => some (.call f rest (m.set .ra (p.link f)))
  | fuel + 1, .callLabel target :: _, m => run p fuel (p.code target) (m.set .ra (p.linkLabel target))
  | _ + 1, .sret :: _, m => some (.sret m.sret)
  | _ + 1, .ret :: _, m => some (.ret { m with pc := m.reg .ra })
  | _ + 1, .wfi :: rest, m => some (.wfi rest m)

def runOps (ops : List Op) (m : Machine) : Machine := ops.foldl Op.apply m

theorem runOps_append (first second : List Op) (m : Machine) :
    runOps (first ++ second) m = runOps second (runOps first m) := List.foldl_append

-- not by `rfl`: the kernel would go through a whole block to check a use of it
theorem runOps_cons (o : Op) (ops : List Op) (m : Machine) : runOps (o :: ops) m = runOps ops (o.apply m) := by
  unfold runOps
  rw [List.foldl_cons]

theorem runOps_nil (m : Machine) : runOps [] m = m := by
  unfold runOps
  rw [List.foldl_nil]

theorem run_ops (p : Program Label Fn) (ops : List Op) (fuel : Nat) (rest : List (Instr Label Fn)) (m : Machine) :
    run p (fuel + ops.length) (ops.map .op ++ rest) m = run p fuel rest (runOps ops m) := by
  induction ops generalizing m with
  | nil => rfl
  | cons o ops ih =>
    rw [List.length_cons, ← Nat.add_assoc, List.map_cons, List.cons_append, run, ih]
    rfl

theorem word_setWord (addr value : UInt64) (mem : Mem) : word addr (setWord addr value mem) = value := by
  unfold word setWord
  have fits : value.toNat < 256 ^ 8 := value.toNat_lt
  rw [load_store, Nat.mod_eq_of_lt fits, UInt64.ofNat_toNat]

def Apart (o o' : Nat) : Prop := o < 2 ^ 32 ∧ o' < 2 ^ 32 ∧ (o + 8 ≤ o' ∨ o' + 8 ≤ o)

instance (o o' : Nat) : Decidable (Apart o o') := inferInstanceAs (Decidable (_ ∧ _))

theorem word_setWord_apart {o o' : Nat} (apart : Apart o o') (base value : UInt64) (mem : Mem) :
    word (base + UInt64.ofNat o) (setWord (base + UInt64.ofNat o') value mem) = word (base + UInt64.ofNat o) mem := by
  obtain ⟨small, small', apart⟩ := apart
  have bound := base.toNat_lt
  unfold word setWord
  rw [load_store_apart]
  simp only [UInt64.toNat_add, UInt64.toNat_ofNat']
  omega

def putWords (base : UInt64) (entries : List (Nat × UInt64)) (mem : Mem) : Mem :=
  entries.foldl (fun mem entry => setWord (base + UInt64.ofNat entry.1) entry.2 mem) mem

theorem putWords_append (base : UInt64) (first second : List (Nat × UInt64)) (mem : Mem) :
    putWords base (first ++ second) mem = putWords base second (putWords base first mem) := List.foldl_append

variable {entries : List (Nat × UInt64)}

theorem word_putWords_apart {o : Nat} (apart : ∀ entry ∈ entries, Apart o entry.1)
    (base : UInt64) (mem : Mem) :
    word (base + UInt64.ofNat o) (putWords base entries mem) = word (base + UInt64.ofNat o) mem := by
  induction entries generalizing mem with
  | nil => rfl
  | cons entry entries ih =>
    have rest := ih (fun other member => apart other (List.mem_cons_of_mem _ member))
      (setWord (base + UInt64.ofNat entry.1) entry.2 mem)
    exact rest.trans (word_setWord_apart (apart entry List.mem_cons_self) base entry.2 mem)

theorem word_putWords
    (apart : entries.Pairwise fun entry later => Apart entry.1 later.1) {entry : Nat × UInt64}
    (member : entry ∈ entries)
    (base : UInt64) (mem : Mem) : word (base + UInt64.ofNat entry.1) (putWords base entries mem) = entry.2 := by
  induction entries generalizing mem with
  | nil => simp at member
  | cons first entries ih =>
    obtain ⟨here, rest⟩ := List.pairwise_cons.mp apart
    rcases List.mem_cons.mp member with rfl | later
    · exact (word_putWords_apart here base _).trans (word_setWord _ _ _)
    · exact ih rest later _

theorem putWords_byte {base : UInt64} {x : Nat}
    (outside : ∀ entry ∈ entries, x < (base + UInt64.ofNat entry.1).toNat ∨
      (base + UInt64.ofNat entry.1).toNat + 8 ≤ x)
    (mem : Mem) : (putWords base entries mem).byte x = mem.byte x := by
  induction entries generalizing mem with
  | nil => rfl
  | cons entry entries ih =>
    have rest := ih (fun other member => outside other (List.mem_cons_of_mem _ member))
      (setWord (base + UInt64.ofNat entry.1) entry.2 mem)
    exact rest.trans (store_outside (outside entry List.mem_cons_self))

def saves (base : Reg) (slots : List (Reg × Nat)) : List Op := slots.map fun slot => .sd slot.1 slot.2 base

def restores (base : Reg) (slots : List (Reg × Nat)) : List Op := slots.map fun slot => .ld slot.1 slot.2 base

theorem runOps_saves (base : Reg) (slots : List (Reg × Nat)) (m : Machine) :
    runOps (saves base slots) m =
      { m with mem := putWords (m.reg base) (slots.map fun slot => (slot.2, m.reg slot.1)) m.mem } := by
  induction slots generalizing m with
  | nil => rfl
  | cons slot slots ih =>
    have rest := ih (Op.apply m (.sd slot.1 slot.2 base))
    rw [saves, List.map_cons, runOps_cons]
    exact rest

theorem runOps_restores {base : Reg} {slots : List (Reg × Nat)} (kept : base ∉ slots.map Prod.fst) (m : Machine) :
    ∃ reg, runOps (restores base slots) m = { m with reg := reg } ∧ ∀ r, r ∉ slots.map Prod.fst →
      reg r = m.reg r := by
  induction slots generalizing m with
  | nil => exact ⟨m.reg, rfl, fun _ _ => rfl⟩
  | cons slot slots ih =>
    simp only [List.map_cons, List.mem_cons, not_or] at kept
    obtain ⟨reg, runs, same⟩ := ih kept.2 (Op.apply m (.ld slot.1 slot.2 base))
    refine ⟨reg, ?_, fun r other => ?_⟩
    · rw [restores, List.map_cons, runOps_cons]
      exact runs
    · simp only [List.map_cons, List.mem_cons, not_or] at other
      rw [same r other.2]
      exact Function.update_of_ne other.1 _ _

theorem runOps_restores_reg {base : Reg} {slots : List (Reg × Nat)} (kept : base ∉ slots.map Prod.fst)
    (once : (slots.map Prod.fst).Nodup) {slot : Reg × Nat} (member : slot ∈ slots) (m : Machine) :
    (runOps (restores base slots) m).reg slot.1 = word (m.reg base + UInt64.ofNat slot.2) m.mem := by
  induction slots generalizing m with
  | nil => simp at member
  | cons first slots ih =>
    simp only [List.map_cons, List.mem_cons, not_or] at kept
    obtain ⟨fresh, once⟩ := List.nodup_cons.mp once
    rw [restores, List.map_cons, runOps_cons]
    rcases List.mem_cons.mp member with rfl | later
    · obtain ⟨reg, runs, same⟩ := runOps_restores kept.2 (Op.apply m (.ld slot.1 slot.2 base))
      rw [restores] at runs
      rw [runs]
      exact (same slot.1 fresh).trans (Function.update_self _ _ _)
    · have rest := ih kept.2 once later (Op.apply m (.ld first.1 first.2 base))
      rw [restores] at rest
      rw [rest]
      have base' : (Op.apply m (.ld first.1 first.2 base)).reg base = m.reg base := Function.update_of_ne kept.1 _ _
      rw [base']
      rfl

end Riscv
