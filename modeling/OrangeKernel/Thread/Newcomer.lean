import OrangeKernel.Thread.ForkCopy
import OrangeKernel.Thread.Generation

set_option autoImplicit false

namespace OrangeKernel.Thread

open Intrusive Memory ByteMemory

def grantsOf : ThreadOp → Option Grants
  | .createKernel _ grants | .createProcess _ _ _ grants | .createUser _ _ _ _ grants | .fork _ _ grants _ =>
    some grants
  | _ => none

def firstStatus : ThreadOp → UInt64
  | .fork parentTc _ _ _ => parentTc.word .sstatus
  | _ => sstatusSpie

structure Newcomer (k' : Kernel) (grants : Grants) (status : UInt64) (t : Addr) : Prop where
  task : grants.task = some t
  kstack : k'.kstackBase t = grants.kstack
  granted : grants.kstack ≠ 0
  worker : k'.isIdle t = false
  context : k'.kind t = .user → ∃ tc, k'.tc t = some tc ∧ tc.word .tp = t ∧ tc.word .sstatus = status

variable {k : Kernel} {grants : Grants} {t : Addr}

theorem Dressed.newcomer {ready : Kernel} {status : UInt64}
    (dressed : Dressed k ready grants t)
    (context : ready.kind t = .user → ∃ tc, ready.tc t = some tc ∧ tc.word .tp = t ∧
      tc.word .sstatus = status) :
    Newcomer (threadPublish t ready) grants status t := by
  have table := threadPublish_table dressed.new
  refine ⟨dressed.task, ?_, dressed.granted, ?_, fun user => ?_⟩
  · rw [table.kstackBase]
    exact dressed.kstack
  · rw [table.isIdle]
    exact dressed.worker
  · rw [table.kind] at user
    rw [threadPublish_tc]
    exact context user

variable {board : Board}

theorem threadPrepareUser_tc {entry stackBase stackTop : UInt64} {after : Kernel} {freed : List UInt64}
    (prepares : threadPrepareUser board entry stackBase stackTop grants k = (some t, freed, after)) :
    after.tc t = some (resetTrapContext t stackTop entry) := by
  unfold threadPrepareUser at prepares
  split at prepares
  · simp at prepares
  · split at prepares
    · simp at prepares
    next child freed' alloced _ =>
      simp only [Prod.mk.injEq, Option.some.injEq] at prepares
      obtain ⟨rfl, -, rfl⟩ := prepares
      simp

theorem newThread_some {op : ThreadOp}
    (new : newThread board k (.thread op) = some t) :
    ∃ ret, createRet board k op = some ret ∧ 0 ≤ ret ∧ op.task = some t := by
  obtain ⟨ret, returns, made⟩ := Option.bind_eq_some_iff.mp new
  split at made
  next success => exact ⟨ret, returns, success, made⟩
  · simp at made

theorem sysFork_newcomer {parentTc : TrapContext} {stack : UInt64} {mem : Mem} {out : ForkOutcome}
    (forks : sysFork board parentTc stack grants mem k = some out)
    (success : 0 ≤ out.ret) (task : grants.task = some t) :
    Newcomer out.kernel grants (parentTc.word .sstatus) t := by
  obtain ⟨parent, child, freed, after, -, -, -, -, prepares, -, published⟩ := sysFork_made forks success
  obtain ⟨after', failed, -⟩ | ⟨child', after', prepared, -, dressed, -⟩ := threadPrepareUser_blocks board
    (k.userEntry parent) stack ((stack + userStackSize) &&& 0xFFFFFFFFFFFFFFF0) grants k
  · cases failed.symm.trans prepares
  · cases prepared.symm.trans prepares
    obtain rfl : child = t := Option.some.inj (dressed.task.symm.trans task)
    rw [published]
    refine (dressed.regroup after.tgid _).newcomer fun _ => ⟨_, Function.update_self _ _ _, ?_, ?_⟩
    · rw [childContext_word]
      simp [remappedFields]
    · rw [childContext_word]
      simp [remappedFields]

theorem exec_newcomer {k' : Kernel} {op : ThreadOp} (executes : exec board k op = some k')
    (new : newThread board k (.thread op) = some t) :
    ∃ grants, grantsOf op = some grants ∧ Newcomer k' grants (firstStatus op) t := by
  obtain ⟨ret, returns, success, task⟩ := newThread_some new
  cases op with
  | createKernel entry grants =>
    refine ⟨grants, rfl, ?_⟩
    cases executes
    cases returns
    unfold threadCreateKernel at success ⊢
    split at success
    · simp at success
    next valid =>
      rw [if_neg valid]
      obtain ⟨after, allocs, -⟩ | ⟨child, after, allocs, -, dressed, -, kernelThread⟩ :=
        threadAlloc_blocks grants k
      · rw [allocs] at success
        simp at success
      · rw [allocs]
        obtain rfl : child = t := Option.some.inj (dressed.task.symm.trans task)
        have same : Function.update after.kind child .kernel = after.kind := by
          rw [← kernelThread, Function.update_eq_self]
        dsimp only
        rw [same]
        exact dressed.newcomer fun user => by simp [kernelThread] at user
  | createProcess entry stackBase stackTop grants =>
    refine ⟨grants, rfl, ?_⟩
    cases executes
    cases returns
    unfold userProcessCreate at success ⊢
    obtain ⟨after, prepares, -⟩ | ⟨child, after, prepares, -, dressed, -⟩ :=
      threadPrepareUser_blocks board entry stackBase stackTop grants k
    · rw [prepares] at success
      simp at success
    · rw [prepares]
      obtain rfl : child = t := Option.some.inj (dressed.task.symm.trans task)
      exact dressed.newcomer fun _ => ⟨_, threadPrepareUser_tc prepares, rfl, rfl⟩
  | createUser entry arg returnPc stack grants =>
    refine ⟨grants, rfl, ?_⟩
    cases executes
    cases returns
    unfold threadCreateUser at success ⊢
    cases current : threadCurrent k with
    | none => simp [current] at success
    | some parent =>
      rw [current] at success
      dsimp only at success ⊢
      cases framed : k.tc parent with
      | none => simp [framed] at success
      | some parentTc =>
        rw [framed] at success
        dsimp only at success ⊢
        split at success
        · simp at success
        next valid =>
          rw [if_neg valid]
          obtain ⟨after, prepares, -⟩ | ⟨child, after, prepares, -, dressed, -⟩ :=
            threadPrepareUser_blocks board entry stack (stack + userStackSize) grants k
          · rw [prepares] at success
            simp at success
          · rw [prepares]
            obtain rfl : child = t := Option.some.inj (dressed.task.symm.trans task)
            refine (dressed.regroup _ _).newcomer fun _ => ?_
            dsimp only
            rw [Function.update_self, threadPrepareUser_tc prepares]
            exact ⟨_, rfl, by simp [TrapContext.set, resetTrapContext],
              by simp [TrapContext.set, resetTrapContext, firstStatus]⟩
  | fork parentTc stack grants mem =>
    refine ⟨grants, rfl, ?_⟩
    obtain ⟨out, forks, rfl⟩ := Option.map_eq_some_iff.mp executes
    simp only [createRet, forks, Option.map_some, Option.some.injEq] at returns
    obtain rfl := returns
    exact sysFork_newcomer forks success task
  | schedule | yield | prepare | wait | finish | sleep | wakeOne | wakeAll | stopTid | stopProcess
  | markCurrentZombie | reap => simp [createRet] at returns

end OrangeKernel.Thread
