import OrangeKernel.Trap.Context

set_option autoImplicit false

namespace OrangeKernel.Trap

open Riscv
open Thread (TrapContext)

inductive Executes (links : Links) (calls : CFunction → Machine → Machine → Prop) :
    Code → Machine → Machine → Prop where
  | sret {code : Code} {m m' : Machine} (runs : runStub links code m = some (.sret m')) : Executes links calls code m m'
  | call {code rest : Code} {f : CFunction} {m called returned m' : Machine}
      (runs : runStub links code m = some (.call f rest called)) (returns : calls f called returned)
      (goes : Executes links calls rest returned m') : Executes links calls code m m'

-- At every call `sp` is the address of the context.
structure Convention (m m' : Machine) : Prop where
  sp : m'.reg .sp = m.reg .sp
  context : contextAt (m.reg .sp) m'.mem = contextAt (m.reg .sp) m.mem

structure Resumes (m' : Machine) (i : Interrupted) : Prop where
  regs : m'.reg = i.reg
  pc : m'.pc = i.pc
  privilege : m'.privilege = i.privilege

theorem ReturnsTo.unique {context : TrapContext} {p q : Privilege} (first : ReturnsTo context p)
    (second : ReturnsTo context q) : p = q := by
  have same : p = .supervisor ↔ q = .supervisor := first.symm.trans second
  cases p <;> cases q <;> simp at same ⊢

variable {m m' : Machine}

theorem Restored.resumes {addr : UInt64} (back : Restored addr m m') {i : Interrupted}
    (kept : Keeps (contextAt addr m.mem) i) : Resumes m' i :=
  ⟨funext fun r => (back.regs r).trans (kept.regs r), back.pc.trans kept.pc, back.mode.unique kept.mode⟩

variable {calls : CFunction → Machine → Machine → Prop}

theorem Executes.resumes {links : Links}
    (convention : ∀ f m m', calls f m m' → Convention m m') {code : Code}
    (executes : Executes links calls code m m') (point : Point code) {i : Interrupted}
    (kept : Keeps (contextAt (m.reg .sp) m.mem) i) :
    Resumes m' i ∧ m'.csr .sscratch = if i.privilege = .supervisor then 0
      else m.reg .sp + UInt64.ofNat trapContextAllocSize := by
  induction executes with
  | sret runs =>
    obtain ⟨f, rest, n, called, -⟩ | ⟨rest, n, waits, -⟩ | ⟨n, returns, back⟩ := runStub_cases links point _
    · rw [runs] at called
      cases called
    · rw [runs] at waits
      cases waits
    · rw [runs] at returns
      obtain rfl := Stop.sret.inj (Option.some.inj returns)
      have resumes := back.resumes kept
      exact ⟨resumes, by rw [back.scratch, resumes.privilege]⟩
  | call runs returns goes ih =>
    obtain ⟨f, rest, n, called, next, onward⟩ | ⟨rest, n, waits, -⟩ | ⟨n, returned, -⟩ :=
      runStub_cases links point _
    · rw [runs] at called
      obtain ⟨rfl, rfl, rfl⟩ := Stop.call.inj (Option.some.inj called)
      obtain ⟨sp, context⟩ := convention _ _ _ returns
      have resumed := ih next (by rw [sp, context, onward.sp, onward.mem]; exact kept)
      rw [sp, onward.sp] at resumed
      exact resumed
    · rw [runs] at waits
      cases waits
    · rw [runs] at returned
      cases returned

theorem exists_executes (links : Links)
    (returns : ∀ f m, ∃ m', calls f m m') (alive : ∀ m m', calls .userHasExited m m' → m'.reg .a0 = 0)
    (m : Machine) :
    ∃ m', Executes links calls trapEntry m m' := by
  have scheduled : ∀ m, ∃ m', Executes links calls trapRestoreContext m m' := fun m => by
    obtain ⟨m', runs, -⟩ := trapRestoreContext_runs links 54 m
    exact ⟨m', .sret runs⟩
  have consumed : ∀ m, ∃ m', Executes links calls afterConsume m m' := fun m => by
    have steps := afterConsume_runs links m
    split at steps
    next =>
      obtain ⟨m', runs, -⟩ := trapRestoreContext_runs links 53 m
      exact ⟨m', .sret (steps.trans runs)⟩
    next =>
      obtain ⟨returned, called⟩ := returns .schedule (m.set .ra (links.function .schedule))
      obtain ⟨m', goes⟩ := scheduled returned
      exact ⟨m', .call steps called goes⟩
  have exited : ∀ m, m.reg .a0 = 0 → ∃ m', Executes links calls afterExited m m' := fun m zero => by
    have steps := afterExited_runs links m
    rw [if_neg (not_not.mpr zero)] at steps
    obtain ⟨returned, called⟩ := returns .threadConsumeReschedRequest
      (m.set .ra (links.function .threadConsumeReschedRequest))
    obtain ⟨m', goes⟩ := consumed returned
    exact ⟨m', .call steps called goes⟩
  have halved : ∀ m, ∃ m', Executes links calls afterBottomHalves m m' := fun m => by
    obtain ⟨tested, -, steps⟩ := afterBottomHalves_runs links m
    split at steps
    next =>
      obtain ⟨m', runs, -⟩ := trapRestoreContext_runs links 51 tested
      exact ⟨m', .sret (steps.trans runs)⟩
    next =>
      obtain ⟨returned, called⟩ := returns .userHasExited (tested.set .ra (links.function .userHasExited))
      obtain ⟨m', goes⟩ := exited returned (alive _ _ called)
      exact ⟨m', .call steps called goes⟩
  obtain ⟨dispatching, enters, -⟩ := trapEntry_runs links m
  obtain ⟨dispatched, first⟩ := returns .trapDispatch _
  obtain ⟨ran, second⟩ := returns .runBottomHalves (dispatched.set .ra (links.function .runBottomHalves))
  obtain ⟨m', goes⟩ := halved ran
  exact ⟨m', .call enters first (.call rfl second goes)⟩

def ScratchFits (m : Machine) : Prop := m.csr .sscratch = 0 ↔ m.privilege = .supervisor

theorem sub_add_alloc (top : UInt64) :
    top + UInt64.ofInt (-trapContextAllocSize) + UInt64.ofNat trapContextAllocSize = top := by
  rw [UInt64.add_assoc]
  exact UInt64.add_zero top

theorem takeTrap_csr (cause tval : UInt64) (m : Machine) : (m.takeTrap cause tval).csr .sscratch = m.csr .sscratch := by
  simp [Machine.takeTrap, Machine.setCsr]

theorem entryContext_takeTrap (cause tval : UInt64) (m : Machine) :
    entryContext (m.takeTrap cause tval) = entryContext m := by
  unfold entryContext entryStack
  rw [takeTrap_csr]
  rfl

theorem Entered.keeps {cause tval : UInt64} (entered : Entered (m.takeTrap cause tval) m') :
    Keeps (contextAt (entryContext m) m'.mem) (interrupted m) := by
  rw [entered.mem, entryContext_takeTrap]
  exact entry_keeps m cause tval (entryContext m)

theorem trap_resumes {links : Links}
    (convention : ∀ f m m', calls f m m' → Convention m m') (fits : ScratchFits m) {cause tval : UInt64}
    (executes : Executes links calls trapEntry (m.takeTrap cause tval) m') :
    Resumes m' (interrupted m) ∧ m'.csr .sscratch = m.csr .sscratch := by
  obtain ⟨dispatching, runs, entered⟩ := trapEntry_runs links (m.takeTrap cause tval)
  have sp := entered.sp
  rw [entryContext_takeTrap] at sp
  cases executes with
  | sret returned =>
    rw [runs] at returned
    cases returned
  | call called returns goes =>
    rw [runs] at called
    obtain ⟨rfl, rfl, rfl⟩ := Stop.call.inj (Option.some.inj called)
    obtain ⟨samesp, context⟩ := convention _ _ _ returns
    have kept := entered.keeps
    rw [← sp, ← context, ← samesp] at kept
    obtain ⟨resumed, scratch⟩ := goes.resumes convention .dispatched kept
    refine ⟨resumed, scratch.trans ?_⟩
    rw [samesp, sp]
    unfold interrupted
    split
    next supervisor => exact (fits.mpr supervisor).symm
    next user =>
      have used : m.csr .sscratch ≠ 0 := fun zero => user (fits.mp zero)
      unfold entryContext entryStack
      rw [if_pos used, sub_add_alloc]

end OrangeKernel.Trap
