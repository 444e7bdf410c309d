import OrangeKernel.Trap.Stubs

set_option autoImplicit false

namespace OrangeKernel.Trap

open Function Riscv ByteMemory
open Thread (TrapField TrapContext)

def regField : Reg → TrapField
  | .ra => .ra
  | .sp => .sp
  | .gp => .gp
  | .tp => .tp
  | .t0 => .t0
  | .t1 => .t1
  | .t2 => .t2
  | .s0 => .s0
  | .s1 => .s1
  | .a0 => .a0
  | .a1 => .a1
  | .a2 => .a2
  | .a3 => .a3
  | .a4 => .a4
  | .a5 => .a5
  | .a6 => .a6
  | .a7 => .a7
  | .s2 => .s2
  | .s3 => .s3
  | .s4 => .s4
  | .s5 => .s5
  | .s6 => .s6
  | .s7 => .s7
  | .s8 => .s8
  | .s9 => .s9
  | .s10 => .s10
  | .s11 => .s11
  | .t3 => .t3
  | .t4 => .t4
  | .t5 => .t5
  | .t6 => .t6

def contextEntries (reg : Reg → UInt64) (csr : Csr → UInt64) : List (Nat × UInt64) :=
  [(tcOffset .ra, reg .ra), (tcOffset .t0, reg .t0)] ++ ([(tcOffset .sp, reg .sp)] ++
    (savedRegisters.map (fun slot => (slot.2, reg slot.1)) ++ ([(tcOffset .sepc, csr .sepc)] ++
      ([(tcOffset .sstatus, csr .sstatus)] ++ ([(tcOffset .scause, csr .scause)] ++ [(tcOffset .stval, csr .stval)])))))

theorem contextEntries_apart (reg : Reg → UInt64) (csr : Csr → UInt64) :
    (contextEntries reg csr).Pairwise fun entry later => Apart entry.1 later.1 := by
  have offsets : ((contextEntries reg csr).map Prod.fst).Pairwise Apart := by
    change ([tcOffset .ra, tcOffset .t0] ++ ([tcOffset .sp] ++ (savedRegisters.map Prod.snd ++
      [tcOffset .sepc, tcOffset .sstatus, tcOffset .scause, tcOffset .stval]))).Pairwise Apart
    decide
  exact List.pairwise_map.mp offsets

theorem saveContext_runs (m : Machine) {addr : UInt64}
    (below : m.reg .sp + UInt64.ofInt (-trapContextAllocSize) = addr) :
    runOps saveContext m =
      { m with
        reg := update (update (update m.reg .sp addr) .t0 (m.csr .stval)) .a0 addr
        csr := update m.csr .sscratch 0
        mem := putWords addr (contextEntries (update m.reg .sp (m.csr .sscratch)) m.csr) m.mem } := by
  -- the middle block stores neither of the two registers that change meanwhile
  have others : savedRegisters.map (fun slot => (slot.2,
        update (update m.reg .sp addr) .t0 (m.csr .sscratch) slot.1)) =
      savedRegisters.map fun slot => (slot.2, update m.reg .sp (m.csr .sscratch) slot.1) := by
    have apart : ∀ slot ∈ savedRegisters, slot.1 ≠ .sp ∧ slot.1 ≠ .t0 := by decide
    refine List.map_congr_left fun slot member => ?_
    obtain ⟨notSp, notT0⟩ := apart slot member
    rw [update_of_ne notT0, update_of_ne notSp, update_of_ne notSp]
  simp only [saveContext, runOps_cons, runOps_append, runOps_nil, runOps_saves, Op.apply, Machine.set, Machine.setCsr,
    below, update_self, ne_eq, reduceCtorEq, not_false_eq_true, update_of_ne, update_idem,
    Option.elim_none, List.map_cons, List.map_nil, others, contextEntries, putWords_append]

def entryStack (m : Machine) : UInt64 := if m.csr .sscratch ≠ 0 then m.csr .sscratch else m.reg .sp

def entryContext (m : Machine) : UInt64 := entryStack m + UInt64.ofInt (-trapContextAllocSize)

theorem trapSaveContext_runs (links : Links) (fuel : Nat) (m : Machine) :
    run (program links) (fuel + 1 + saveContext.length) trapSaveContext m =
      some (.call .trapDispatch afterDispatch ((runOps saveContext m).set .ra (links.function .trapDispatch))) := by
  have ops := run_ops (program links) saveContext (fuel + 1) (.call .trapDispatch :: afterDispatch) m
  exact ops

theorem contextEntries_scratch (reg : Reg → UInt64) (csr : Csr → UInt64) (value : UInt64) :
    contextEntries reg (update csr .sscratch value) = contextEntries reg csr := by
  simp only [contextEntries, ne_eq, reduceCtorEq, not_false_eq_true, update_of_ne]

structure Entered (m m' : Machine) : Prop where
  sp : m'.reg .sp = entryContext m
  a0 : m'.reg .a0 = entryContext m
  tp : m'.reg .tp = m.reg .tp
  scratch : m'.csr .sscratch = 0
  privilege : m'.privilege = m.privilege
  mem : m'.mem = putWords (entryContext m) (contextEntries m.reg m.csr) m.mem

theorem trapEntry_runs (links : Links) (m : Machine) :
    ∃ m', runStub links trapEntry m = some (.call .trapDispatch afterDispatch m') ∧ Entered m m' := by
  have length : saveContext.length = 43 := by decide
  have saves := trapSaveContext_runs links
  rw [length] at saves
  unfold runStub trapEntry
  by_cases kernel : m.csr .sscratch = 0
  next =>
    -- `sp` comes back from `sscratch`, where the swap has put it
    have stack : m.reg .sp + UInt64.ofInt (-trapContextAllocSize) = entryContext m := by
      simp [entryContext, entryStack, kernel]
    simp only [List.cons_append, List.nil_append, run, Op.apply, Machine.set, Machine.setCsr, update_self]
    rw [if_neg (not_not.mpr kernel), saves 53, saveContext_runs _ (by simpa [update_self] using stack)]
    simp only [Machine.set, update_idem, update_self, update_eq_self, contextEntries_scratch]
    refine ⟨_, rfl, ?_, ?_, ?_, ?_, ?_, ?_⟩ <;> simp
  next =>
    have stack : m.csr .sscratch + UInt64.ofInt (-trapContextAllocSize) = entryContext m := by
      simp [entryContext, entryStack, kernel]
    simp only [List.cons_append, List.nil_append, run, Op.apply, Machine.set, Machine.setCsr, update_self]
    rw [if_pos kernel]
    simp only [program] at saves ⊢
    rw [saves 54, saveContext_runs _ (by simpa [update_self] using stack)]
    simp only [Machine.set, update_idem, update_self, update_eq_self, contextEntries_scratch]
    refine ⟨_, rfl, ?_, ?_, ?_, ?_, ?_, ?_⟩ <;> simp

structure Interrupted where
  reg : Reg → UInt64
  pc : UInt64
  privilege : Privilege

def interrupted (m : Machine) : Interrupted := ⟨m.reg, m.pc, m.privilege⟩

def ReturnsTo (context : TrapContext) (privilege : Privilege) : Prop :=
  context.word .sstatus &&& statusSpp ≠ 0 ↔ privilege = .supervisor

structure Keeps (context : TrapContext) (i : Interrupted) : Prop where
  regs : ∀ r, context.word (regField r) = i.reg r
  pc : context.word .sepc = i.pc
  mode : ReturnsTo context i.privilege

theorem contextAt_entry {field : TrapField} {value : UInt64} {reg : Reg → UInt64} {csr : Csr → UInt64}
    (member : (tcOffset field, value) ∈ contextEntries reg csr) (addr : UInt64) (mem : Mem) :
    (contextAt addr (putWords addr (contextEntries reg csr) mem)).word field = value := by
  have reads := word_putWords (contextEntries_apart reg csr) member addr mem
  simp only [contextAt]
  exact reads

theorem contextEntries_reg (reg : Reg → UInt64) (csr : Csr → UInt64) (r : Reg) :
    (tcOffset (regField r), reg r) ∈ contextEntries reg csr := by
  have listed : (r, tcOffset (regField r)) ∈ [(.ra, tcOffset .ra), (.t0, tcOffset .t0)] ++ ([(.sp, tcOffset .sp)] ++
      savedRegisters) := by
    cases r <;> decide
  have stored := List.mem_map_of_mem (f := fun slot : Reg × Nat => (slot.2, reg slot.1)) listed
  rw [List.map_append, List.map_append] at stored
  rw [contextEntries, ← List.append_assoc, ← List.append_assoc, List.append_assoc _ [_]]
  exact List.mem_append_left _ stored

theorem entry_keeps (m : Machine) (cause tval : UInt64) (addr : UInt64) :
    Keeps (contextAt addr (putWords addr (contextEntries m.reg (m.takeTrap cause tval).csr) m.mem))
      (interrupted m) := by
  refine ⟨fun r => contextAt_entry (contextEntries_reg _ _ r) addr m.mem, ?_, ?_⟩
  · exact contextAt_entry (by simp [contextEntries, Machine.takeTrap, Machine.setCsr, interrupted]) addr m.mem
  · have status : (contextAt addr (putWords addr (contextEntries m.reg (m.takeTrap cause tval).csr) m.mem)).word
      .sstatus =
        trapStatus m.privilege (m.csr .sstatus) :=
      contextAt_entry (by simp [contextEntries, Machine.takeTrap, Machine.setCsr]) addr m.mem
    unfold ReturnsTo interrupted
    rw [status, trapStatus_spp]
    split
    next supervisor => exact ⟨fun _ => supervisor, fun _ => by decide⟩
    next user => exact ⟨fun set => absurd rfl set, fun supervisor => absurd supervisor user⟩

structure Restored (addr : UInt64) (m m' : Machine) : Prop where
  mem : m'.mem = m.mem
  regs : ∀ r, m'.reg r = (contextAt addr m.mem).word (regField r)
  pc : m'.pc = (contextAt addr m.mem).word .sepc
  mode : ReturnsTo (contextAt addr m.mem) m'.privilege
  scratch : m'.csr .sscratch = if m'.privilege = .supervisor then 0 else addr + UInt64.ofNat trapContextAllocSize

theorem restoreRegisters_runs (m : Machine) :
    ∃ reg, runOps restoreRegisters m = { m with reg := reg } ∧
      ∀ r, reg r = (contextAt (m.reg .t0) m.mem).word (regField r) := by
  have kept : Reg.t0 ∉ restoredRegisters.map Prod.fst := by decide
  have once : (restoredRegisters.map Prod.fst).Nodup := by decide
  obtain ⟨reg, runs, same⟩ := runOps_restores kept m
  have loaded := fun {slot : Reg × Nat} (member : slot ∈ restoredRegisters) => runOps_restores_reg kept once member m
  rw [runs] at loaded
  have base := same .t0 kept
  refine ⟨update (update reg .sp ((contextAt (m.reg .t0) m.mem).word .sp)) .t0
    ((contextAt (m.reg .t0) m.mem).word .t0), ?_, fun r => ?_⟩
  · simp only [restoreRegisters, runOps_append, runs, runOps_cons, runOps_nil, Op.apply, Machine.set, base, ne_eq,
      reduceCtorEq, not_false_eq_true, update_of_ne, contextAt]
  · by_cases isT0 : r = .t0
    · subst isT0
      rw [update_self]
      rfl
    · rw [update_of_ne isT0]
      by_cases isSp : r = .sp
      · subst isSp
        rw [update_self]
        rfl
      · rw [update_of_ne isSp]
        have member : (r, tcOffset (regField r)) ∈ restoredRegisters := by
          revert isT0 isSp
          cases r <;> decide
        exact loaded member

theorem trapRestoreRegisters_runs (links : Links) (fuel : Nat) (m : Machine) :
    run (program links) (fuel + 1 + restoreRegisters.length) trapRestoreRegisters m =
      some (.sret (runOps restoreRegisters m).sret) := by
  have ops := run_ops (program links) restoreRegisters (fuel + 1) [.sret] m
  exact ops

theorem and_sie_spp (status : UInt64) : status &&& UInt64.ofInt (-3) &&& statusSpp = status &&& statusSpp := by
  rw [UInt64.and_assoc]
  rfl

theorem restored (links : Links) (fuel : Nat) {addr : UInt64} {m n : Machine} (mem : n.mem = m.mem)
    (base : n.reg .t0 = addr) (pc : n.csr .sepc = (contextAt addr m.mem).word .sepc)
    (status : n.csr .sstatus = (contextAt addr m.mem).word .sstatus &&& UInt64.ofInt (-3))
    (scratch : n.csr .sscratch =
      if (contextAt addr m.mem).word .sstatus &&& statusSpp ≠ 0 then 0
      else addr + UInt64.ofNat trapContextAllocSize) :
    ∃ m', run (program links) (fuel + 1 + restoreRegisters.length) trapRestoreRegisters n = some (.sret m') ∧
      Restored addr m m' := by
  obtain ⟨reg, runs, loads⟩ := restoreRegisters_runs n
  refine ⟨_, trapRestoreRegisters_runs links fuel n, ?_⟩
  rw [runs]
  have privilege : ({ n with reg := reg } : Machine).sret.privilege =
      if (contextAt addr m.mem).word .sstatus &&& statusSpp ≠ 0 then .supervisor else .user := by
    simp only [Machine.sret, status, and_sie_spp]
  refine ⟨mem, fun r => ?_, pc, ?_, ?_⟩
  · rw [← base, ← mem]
    exact loads r
  · rw [ReturnsTo, privilege]
    split
    next set => exact ⟨fun _ => rfl, fun _ => set⟩
    next clear => exact ⟨fun set => absurd set clear, fun impossible => by simp at impossible⟩
  · rw [privilege]
    have kept : ({ n with reg := reg } : Machine).sret.csr .sscratch = n.csr .sscratch := by
      simp [Machine.sret, Machine.setCsr]
    rw [kept, scratch]
    split <;> simp

theorem trapReturn_runs (links : Links) (fuel : Nat) (m : Machine) :
    ∃ m', run (program links) (fuel + 44) trapReturn m = some (.sret m') ∧ Restored (m.reg .a0) m m' := by
  have length : restoreRegisters.length = 31 := by decide
  simp only [trapReturn, List.cons_append, List.nil_append, run, Op.apply, Machine.set,
    Machine.setCsr, ne_eq, reduceCtorEq,
    not_false_eq_true, update_of_ne, update_self, update_idem, Option.elim_some]
  have ends := fun (fuel : Nat) (n : Machine) => @restored links fuel (m.reg .a0) m n
  rw [length] at ends
  have spp : UInt64.ofInt 256 = statusSpp := by decide
  rw [spp, and_sie_spp]
  split
  next supervisor =>
    refine ends (fuel + 2) (Machine.setCsr .sscratch 0 _) rfl (by simp [Machine.setCsr])
      (by simp [Machine.setCsr, contextAt])
      (by simp [Machine.setCsr, contextAt]) ?_
    simp only [Machine.setCsr, update_self]
    exact (if_pos supervisor).symm
  next user =>
    refine ends fuel _ rfl (by simp) (by simp [contextAt]) (by simp [contextAt]) ?_
    simp only [update_self]
    exact (if_neg user).symm

inductive Point : Code → Prop where
  | dispatched : Point afterDispatch
  | halved : Point afterBottomHalves
  | exited : Point afterExited
  | consumed : Point afterConsume
  | scheduled : Point trapRestoreContext
  | parked : Point trapExitFallback
  | waited : Point [.j .trapExitFallback]

structure Onward (m m' : Machine) : Prop where
  mem : m'.mem = m.mem
  csr : m'.csr = m.csr
  privilege : m'.privilege = m.privilege
  sp : m'.reg .sp = m.reg .sp
  tp : m'.reg .tp = m.reg .tp

theorem trapRestoreContext_runs (links : Links) (fuel : Nat) (m : Machine) :
    ∃ m', run (program links) (fuel + 46) trapRestoreContext m = some (.sret m') ∧ Restored (m.reg .sp) m m' := by
  obtain ⟨m', runs, back⟩ := trapReturn_runs links fuel ((m.set .a0 (m.reg .sp)).set .ra (links.label .trapReturn))
  refine ⟨m', runs, ?_⟩
  simp only [Machine.set, ne_eq, reduceCtorEq, not_false_eq_true, update_of_ne, update_self] at back
  exact ⟨back.mem, back.regs, back.pc, back.mode, back.scratch⟩

theorem afterBottomHalves_runs (links : Links) (m : Machine) :
    ∃ tested, Onward m tested ∧ runStub links afterBottomHalves m =
      if (contextAt (m.reg .sp) m.mem).word .sstatus &&& statusSpp ≠ 0 then
        run (program links) 97 trapRestoreContext tested
      else some (.call .userHasExited afterExited (tested.set .ra (links.function .userHasExited))) := by
  refine ⟨m.set .t0 ((contextAt (m.reg .sp) m.mem).word .sstatus &&& statusSpp),
    ⟨rfl, rfl, rfl, by simp [Machine.set], by simp [Machine.set]⟩, ?_⟩
  unfold runStub
  simp only [afterBottomHalves, List.cons_append, List.nil_append, run, Op.apply, Machine.set, update_self,
    update_idem]
  rfl

theorem afterExited_runs (links : Links) (m : Machine) :
    runStub links afterExited m =
      if m.reg .a0 ≠ 0 then
        some (.call .userScheduleAfterExit trapExitFallback (m.set .ra (links.function .userScheduleAfterExit)))
      else some (.call .threadConsumeReschedRequest afterConsume
        (m.set .ra (links.function .threadConsumeReschedRequest))) := rfl

theorem afterConsume_runs (links : Links) (m : Machine) :
    runStub links afterConsume m =
      if m.reg .a0 = 0 then run (program links) 99 trapRestoreContext m
      else some (.call .schedule trapRestoreContext (m.set .ra (links.function .schedule))) := rfl

theorem Onward.set {m m' : Machine} (onward : Onward m m') {r : Reg} (notSp : .sp ≠ r) (notTp : .tp ≠ r)
    (value : UInt64) : Onward m (m'.set r value) :=
  ⟨onward.mem, onward.csr, onward.privilege, (update_of_ne notSp _ _).trans onward.sp,
    (update_of_ne notTp _ _).trans onward.tp⟩

theorem Onward.refl (m : Machine) : Onward m m := ⟨rfl, rfl, rfl, rfl, rfl⟩

theorem Onward.restored {m n m' : Machine} (onward : Onward m n) (back : Restored (n.reg .sp) n m') :
    Restored (m.reg .sp) m m' := by
  obtain ⟨mem, regs, pc, mode, scratch⟩ := back
  rw [onward.mem, onward.sp] at *
  exact ⟨mem, regs, pc, mode, scratch⟩

theorem runStub_cases (links : Links) {code : Code} (point : Point code) (m : Machine) :
    (∃ f rest m', runStub links code m = some (.call f rest m') ∧ Point rest ∧ Onward m m') ∨
      (∃ rest m', runStub links code m = some (.wfi rest m') ∧ Point rest ∧ Onward m m') ∨
      ∃ m', runStub links code m = some (.sret m') ∧ Restored (m.reg .sp) m m' := by
  have linked : ∀ value, Onward m (m.set .ra value) := fun value => (Onward.refl m).set (by decide) (by decide) value
  cases point with
  | dispatched => exact .inl ⟨_, _, _, rfl, .halved, linked _⟩
  | halved =>
    obtain ⟨tested, onward, steps⟩ := afterBottomHalves_runs links m
    rw [steps]
    split
    next =>
      obtain ⟨m', runs, back⟩ := trapRestoreContext_runs links 51 tested
      exact .inr (.inr ⟨m', runs, onward.restored back⟩)
    next => exact .inl ⟨_, _, _, rfl, .exited, onward.set (by decide) (by decide) _⟩
  | exited =>
    rw [afterExited_runs]
    split
    next => exact .inl ⟨_, _, _, rfl, .parked, linked _⟩
    next => exact .inl ⟨_, _, _, rfl, .consumed, linked _⟩
  | consumed =>
    rw [afterConsume_runs]
    split
    next => exact .inr (.inr (trapRestoreContext_runs links 53 m))
    next => exact .inl ⟨_, _, _, rfl, .scheduled, linked _⟩
  | scheduled => exact .inr (.inr (trapRestoreContext_runs links 54 m))
  | parked => exact .inr (.inl ⟨_, _, rfl, .waited, .refl m⟩)
  | waited => exact .inr (.inl ⟨_, _, rfl, .waited, .refl m⟩)

end OrangeKernel.Trap
