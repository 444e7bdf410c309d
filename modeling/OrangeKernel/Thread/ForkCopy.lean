import OrangeKernel.Thread.Run

set_option autoImplicit false

-- The stack pointer is moved twice, which shows when the two stacks touch.

namespace OrangeKernel.Thread

open Memory ByteMemory

theorem remapWords_outside (m : StackMove) (left i : Nat) (mem : Mem) {x : Nat}
    (outside : x < m.childBase.toNat + 8 * i ∨ m.childBase.toNat + 8 * (i + left) ≤ x) :
    (remapWords m left i mem).byte x = mem.byte x := by
  induction left generalizing i mem with
  | zero => rfl
  | succ left ih =>
    unfold remapWords
    dsimp only
    rw [ih (i + 1) _ (by omega)]
    split
    · exact store_outside (by omega)
    · rfl

theorem remapWords_load (m : StackMove) (left i : Nat) (mem : Mem) {j : Nat} (low : i ≤ j) (high : j < i + left) :
    load 8 (m.childBase.toNat + 8 * j) (remapWords m left i mem) =
      (m.remap (UInt64.ofNat (load 8 (m.childBase.toNat + 8 * j) mem))).toNat := by
  induction left generalizing i mem with
  | zero => omega
  | succ left ih =>
    unfold remapWords
    dsimp only
    by_cases here : j = i
    · subst here
      -- later words do not touch this one
      rw [load_congr fun x from' to' => remapWords_outside m left (j + 1) _ (by omega)]
      have word := load_lt 8 (m.childBase.toNat + 8 * j) mem
      unfold StackMove.remap
      split
      · rw [load_store]
        exact Nat.mod_eq_of_lt (UInt64.toNat_lt _)
      · exact (Nat.mod_eq_of_lt word).symm
    · rw [ih (i + 1) _ (by omega) (by omega)]
      split
      · rw [load_store_apart (by omega)]
      · rfl

theorem foldl_remapField (m : StackMove) (fields : List TrapField) (nodup : fields.Nodup) (tc : TrapContext)
    (f : TrapField) :
    (fields.foldl (remapField m) tc).word f = if f ∈ fields then m.remap (tc.word f) else tc.word f := by
  induction fields generalizing tc with
  | nil => rfl
  | cons g fields ih =>
    rw [List.nodup_cons] at nodup
    rw [List.foldl_cons, ih nodup.2]
    by_cases here : f = g
    · subst here
      simp [nodup.1, remapField, TrapContext.set]
    · simp [here, remapField, TrapContext.set]

theorem childContext_word (m : StackMove) (child : Addr) (parent : TrapContext) (f : TrapField) :
    (childContext m child parent).word f =
      let stacked := match f with
        | .tp => child
        | .a0 => 0
        | .sepc => parent.word .sepc + 4
        | .sp => m.childBase + (parent.word .sp - m.parentBase)
        | f => parent.word f
      if f ∈ remappedFields then m.remap stacked else stacked := by
  unfold childContext
  dsimp only
  rw [foldl_remapField m remappedFields (by decide)]
  cases f <;> simp [TrapContext.set]

structure StacksApart (m : StackMove) (sp : UInt64) : Prop where
  size : m.parentTop.toNat = m.parentBase.toNat + userStackSize.toNat
  room : m.childBase.toNat + userStackSize.toNat < 2 ^ 64
  low : m.parentBase.toNat ≤ sp.toNat
  high : sp.toNat ≤ m.parentTop.toNat
  apart : m.childBase.toNat + userStackSize.toNat ≤ m.parentBase.toNat ∨ m.parentTop.toNat ≤ m.childBase.toNat

def Touching (m : StackMove) (sp : UInt64) : Prop :=
  (sp = m.parentTop ∧ m.childBase + userStackSize = m.parentBase) ∨
  (sp = m.parentBase ∧ m.childBase = m.parentTop)

theorem StacksApart.remap_sp {m : StackMove} {sp : UInt64} (placed : StacksApart m sp) :
    m.remap (m.childBase + (sp - m.parentBase)) = m.childBase + (sp - m.parentBase) ↔ ¬ Touching m sp := by
  obtain ⟨size, room, low, high, apart⟩ := placed
  have stackSize : userStackSize.toNat = 65536 := rfl
  rw [stackSize] at size room apart
  have offset : (sp - m.parentBase).toNat = sp.toNat - m.parentBase.toNat := UInt64.toNat_sub_of_le _ _ low
  have moved : (m.childBase + (sp - m.parentBase)).toNat = m.childBase.toNat + (sp.toNat - m.parentBase.toNat) := by
    rw [UInt64.toNat_add, offset]
    exact Nat.mod_eq_of_lt (by omega)
  have childTop : (m.childBase + userStackSize).toNat = m.childBase.toNat + 65536 := by
    rw [UInt64.toNat_add, stackSize]
    exact Nat.mod_eq_of_lt (by omega)
  unfold StackMove.remap Touching
  simp only [UInt64.le_iff_toNat_le, ← UInt64.toNat_inj, moved, childTop]
  split
  next again =>
    have offset' : (m.childBase + (sp - m.parentBase) - m.parentBase).toNat =
        m.childBase.toNat + (sp.toNat - m.parentBase.toNat) - m.parentBase.toNat := by
      rw [UInt64.toNat_sub_of_le _ _ (by rw [UInt64.le_iff_toNat_le, moved]; exact again.1), moved]
    have twice : (m.childBase + (m.childBase + (sp - m.parentBase) - m.parentBase)).toNat =
        m.childBase.toNat + (m.childBase.toNat + (sp.toNat - m.parentBase.toNat) - m.parentBase.toNat) := by
      rw [UInt64.toNat_add, offset']
      exact Nat.mod_eq_of_lt (by omega)
    rw [twice]
    omega
  next once =>
    rw [moved]
    omega

theorem schedEnqueue_tc (t : Addr) (k : Kernel) : (schedEnqueue t k).tc = k.tc := by
  unfold schedEnqueue
  cases tail : k.runTail <;> simp [Kernel.setNext, tail]

theorem threadPublish_tc (t : Addr) (k : Kernel) : (threadPublish t k).tc = k.tc := by
  unfold threadPublish
  split
  · exact schedEnqueue_tc t _
  · rfl

variable {grants : Grants}

theorem threadAlloc_some {k after : Kernel} {t : Addr} {freed : List UInt64}
    (allocs : threadAlloc grants k = (some t, freed, after)) : grants.task = some t := by
  unfold threadAlloc at allocs
  dsimp only at allocs
  split at allocs
  · cases allocs
  · split at allocs
    · cases allocs
    next u task =>
      split at allocs
      · cases allocs
      · simp only [Prod.mk.injEq, Option.some.injEq] at allocs
        rw [task, allocs.1]

theorem threadPrepareUser_some {board : Board} {entry stackBase stackTop : UInt64} {k after : Kernel}
    {t : Addr} {freed : List UInt64}
    (prepares : threadPrepareUser board entry stackBase stackTop grants k = (some t, freed, after)) :
    grants.task = some t ∧ stackBase < stackTop := by
  unfold threadPrepareUser at prepares
  split at prepares
  · cases prepares
  next accepted =>
    simp only [Bool.or_eq_true, decide_eq_true_eq, not_or] at accepted
    refine ⟨?_, UInt64.not_le.mp accepted.1.2⟩
    split at prepares
    · cases prepares
    next u freed' after' allocs =>
      simp only [Prod.mk.injEq, Option.some.injEq] at prepares
      rw [threadAlloc_some allocs, prepares.1]

theorem sysFork_made {board : Board} {tc : TrapContext} {stack : UInt64} {mem : Mem} {k : Kernel}
    {out : ForkOutcome} (forks : sysFork board tc stack grants mem k = some out) (success : 0 ≤ out.ret) :
    ∃ parent child freed after, threadCurrent k = some parent ∧ k.userStackBase parent ≤ tc.word .sp ∧
      tc.word .sp ≤ k.userStackTop parent ∧
      k.userStackTop parent - k.userStackBase parent = userStackSize ∧
      threadPrepareUser board (k.userEntry parent) stack ((stack + userStackSize) &&& 0xFFFFFFFFFFFFFFF0) grants k =
        (some child, freed, after) ∧
      out.mem = remapWords ⟨k.userStackBase parent, k.userStackTop parent, stack⟩ (userStackSize.toNat / 8) 0
        (copyBytes stack.toNat (k.userStackBase parent).toNat userStackSize.toNat 0 mem) ∧
      out.kernel = threadPublish child { after with
        tc := Function.update after.tc child
          (some (childContext ⟨k.userStackBase parent, k.userStackTop parent, stack⟩ child tc)) } := by
  -- every failing path answers -1
  have failed : ∀ {freed : List UInt64} {mem' : Mem} {k' : Kernel},
      some (⟨-1, freed, mem', k'⟩ : ForkOutcome) = some out → False := by
    intro freed mem' k' same
    cases same
    exact absurd success (by simp)
  unfold sysFork at forks
  split at forks
  · exact (failed forks).elim
  next parent entered =>
    split at forks
    · exact (failed forks).elim
    · obtain ⟨size, -, forks⟩ := Option.bind_eq_some_iff.mp forks
      dsimp only at forks
      split at forks
      · exact (failed forks).elim
      next accepted =>
        simp only [not_or, not_not, UInt64.not_lt] at accepted
        obtain ⟨-, low, high, whole, -⟩ := accepted
        split at forks
        · exact (failed forks).elim
        next child freed after prepares =>
          cases forks
          exact ⟨parent, child, freed, after, entered, low, high, whole, prepares, by dsimp only, by dsimp only⟩

def rebase (parentBase parentTop childBase v : UInt64) : UInt64 :=
  if parentBase ≤ v ∧ v ≤ parentTop then childBase + (v - parentBase) else v

def rebasedFields : List TrapField :=
  [.ra, .t0, .t1, .t2, .t3, .t4, .t5, .t6, .s0, .s1, .s2, .s3, .s4, .s5, .s6, .s7, .s8, .s9, .s10, .s11,
    .a1, .a2, .a3, .a4, .a5, .a6, .a7]

structure ChildRegisters (m : StackMove) (child : Addr) (parent c : TrapContext) : Prop where
  sp : c.word .sp = m.childBase + (parent.word .sp - m.parentBase)
  rebased : ∀ f ∈ rebasedFields, c.word f = rebase m.parentBase m.parentTop m.childBase (parent.word f)
  a0 : c.word .a0 = 0
  tp : c.word .tp = child
  sepc : c.word .sepc = parent.word .sepc + 4
  gp : c.word .gp = parent.word .gp
  sstatus : c.word .sstatus = parent.word .sstatus

structure ForkCopy (m : StackMove) (child : Addr) (parent parent' : TrapContext) (mem : Mem) (out : ForkOutcome) :
    Prop where
  stack : ∀ i, 8 * i < userStackSize.toNat → load 8 (m.childBase.toNat + 8 * i) out.mem =
    (rebase m.parentBase m.parentTop m.childBase
      (UInt64.ofNat (load 8 (m.parentBase.toNat + 8 * i) mem))).toNat
  registers : ∃ c, out.kernel.tc child = some c ∧ ChildRegisters m child parent c
  parentStack : ∀ x, m.parentBase.toNat ≤ x → x < m.parentTop.toNat → out.mem.byte x = mem.byte x
  parentRegisters : ∀ f, f ≠ .a0 → f ≠ .sepc → parent'.word f = parent.word f

theorem childContext_registers {m : StackMove} (based : m.parentBase ≠ 0) (child : Addr) (parent : TrapContext) :
    ChildRegisters m child parent (childContext m child parent) ↔
      m.remap (m.childBase + (parent.word .sp - m.parentBase)) = m.childBase + (parent.word .sp - m.parentBase) := by
  have zero : m.remap 0 = 0 := by
    unfold StackMove.remap
    rw [if_neg]
    rintro ⟨below, -⟩
    exact based (UInt64.le_antisymm below (UInt64.zero_le))
  constructor
  · intro registers
    have sp := registers.sp
    rwa [childContext_word] at sp
  · intro once
    refine ⟨?_, fun f member => ?_, ?_, ?_, ?_, ?_, ?_⟩
    · rw [childContext_word]
      exact once
    · rw [childContext_word]
      cases f <;> simp [rebasedFields] at member <;> rfl
    · rw [childContext_word]
      exact zero
    all_goals
      rw [childContext_word]
      rfl

theorem StacksApart.of_success {m : StackMove} {sp : UInt64} (low : m.parentBase ≤ sp) (high : sp ≤ m.parentTop)
    (whole : m.parentTop - m.parentBase = userStackSize)
    (above : m.childBase < ((m.childBase + userStackSize) &&& 0xFFFFFFFFFFFFFFF0))
    (apart : m.childBase.toNat + userStackSize.toNat ≤ m.parentBase.toNat ∨
      m.parentTop.toNat ≤ m.childBase.toNat) :
    StacksApart m sp := by
  rw [UInt64.le_iff_toNat_le] at low high
  have stackSize : userStackSize.toNat = 65536 := rfl
  refine ⟨?_, ?_, low, high, apart⟩
  · have size := congrArg UInt64.toNat whole
    rw [UInt64.toNat_sub_of_le _ _ (UInt64.le_iff_toNat_le.mpr (low.trans high))] at size
    omega
  · -- the rounded top is above the base, so the addition did not wrap
    rw [UInt64.lt_iff_toNat_lt, UInt64.toNat_and, UInt64.toNat_add, stackSize] at above
    have rounded := above.trans_le Nat.and_le_left
    have bound := m.childBase.toNat_lt
    rw [stackSize]
    by_contra wraps
    have wrapped : (m.childBase.toNat + 65536) % 2 ^ 64 = m.childBase.toNat + 65536 - 2 ^ 64 := by omega
    omega

theorem StackMove.copied (m : StackMove) (size : Nat) (aligned : size % 8 = 0) (mem : Mem)
    (apart : m.childBase.toNat + size ≤ m.parentBase.toNat ∨ m.parentBase.toNat + size ≤ m.childBase.toNat) :
    (∀ i, 8 * i < size →
      load 8 (m.childBase.toNat + 8 * i)
          (remapWords m (size / 8) 0 (copyBytes m.childBase.toNat m.parentBase.toNat size 0 mem)) =
        (m.remap (UInt64.ofNat (load 8 (m.parentBase.toNat + 8 * i) mem))).toNat) ∧
      ∀ x, m.parentBase.toNat ≤ x → x < m.parentBase.toNat + size →
        (remapWords m (size / 8) 0 (copyBytes m.childBase.toNat m.parentBase.toNat size 0 mem)).byte x =
          mem.byte x := by
  have copy := copyBytes_byte m.childBase.toNat m.parentBase.toNat size 0 mem (by omega)
  constructor
  · intro i inside
    -- the copied bytes of this word are the parent's
    have bytes : ∀ width offset, offset + width ≤ size →
        load width (m.childBase.toNat + offset) (copyBytes m.childBase.toNat m.parentBase.toNat size 0 mem) =
          load width (m.parentBase.toNat + offset) mem := by
      intro width
      induction width with
      | zero => exact fun _ _ => rfl
      | succ width ih =>
        intro offset fits
        have rest := ih (offset + 1) (by omega)
        have source : m.parentBase.toNat + (m.childBase.toNat + offset - m.childBase.toNat) =
            m.parentBase.toNat + offset := by omega
        rw [load, load, copy, if_pos (by omega), source, Nat.add_assoc, rest, Nat.add_assoc]
    rw [remapWords_load m _ 0 _ (Nat.zero_le i) (by omega), bytes 8 (8 * i) (by omega)]
  · intro x from' to'
    rw [remapWords_outside m _ 0 _ (by omega), copy, if_neg (by omega)]

def forkingKernel : Kernel :=
  (schedule (userProcessCreate .qemu 0x83000000 0x84010000 0x84020000 ⟨some 0x80300000, 0x80304000⟩
    (threadSystemBootstrapInit (kernelStart 0x80200000))).kernel).getD (kernelStart 0)

def forkingContext : TrapContext :=
  { word := fun
      | .sp => 0x84020000
      | .sepc => 0x83000010
      | _ => 0 }

theorem forkingKernel_run : ThreadRun .qemu 0x80200000 forkingKernel := by
  have started : ThreadRun .qemu 0x80200000 _ := .step
    (.createProcess 0x83000000 0x84010000 0x84020000 ⟨some 0x80300000, 0x80304000⟩) .boot
    (Grants.fresh_of_stack (schedStart_rep 0x80200000).all (by decide) _) rfl
  obtain ⟨k, switches⟩ := Option.isSome_iff_exists.mp (show (schedule (userProcessCreate .qemu 0x83000000 0x84010000
    0x84020000 ⟨some 0x80300000, 0x80304000⟩ (threadSystemBootstrapInit (kernelStart 0x80200000))).kernel).isSome =
      true
    by decide +kernel)
  have same : forkingKernel = k := by
    unfold forkingKernel
    rw [switches]
    rfl
  rw [same]
  exact .step .schedule started trivial switches

def sampleFork (stack : UInt64) : Option (TrapContext × ForkOutcome) :=
  handleUserFork .qemu forkingContext stack ⟨some 0x80310000, 0x80314000⟩ ⟨fun _ => 0⟩ forkingKernel

theorem handleUserFork_copy {board : Board} {tc tc' : TrapContext} {stack : UInt64} {grants : Grants} {mem : Mem}
    {k : Kernel} {out : ForkOutcome} (parent child : Addr) (entered : threadCurrent k = some parent)
    (based : k.userStackBase parent ≠ 0) (granted : grants.task = some child)
    (apart : stack.toNat + userStackSize.toNat ≤ (k.userStackBase parent).toNat ∨
      (k.userStackTop parent).toNat ≤ stack.toNat)
    (forks : handleUserFork board tc stack grants mem k = some (tc', out)) (success : 0 ≤ out.ret) :
    ForkCopy ⟨k.userStackBase parent, k.userStackTop parent, stack⟩ child tc tc' mem out ↔
      ¬ Touching ⟨k.userStackBase parent, k.userStackTop parent, stack⟩ (tc.word .sp) := by
  unfold handleUserFork at forks
  rw [Option.map_eq_some_iff] at forks
  obtain ⟨out', forks, same⟩ := forks
  obtain ⟨rfl, rfl⟩ := Prod.mk.inj same
  obtain ⟨parent', child', freed, after, current, low, high, whole, prepares, memory, published⟩ :=
    sysFork_made forks success
  obtain rfl : parent = parent' := Option.some.inj (entered.symm.trans current)
  obtain ⟨task, above⟩ := threadPrepareUser_some prepares
  obtain rfl : child = child' := Option.some.inj (granted.symm.trans task)
  have context := congrFun (congrArg Kernel.tc published) child
  simp only [threadPublish_tc, Function.update_self] at context
  have placed :=
    StacksApart.of_success (m := ⟨k.userStackBase parent, k.userStackTop parent, stack⟩) low high whole above apart
  rw [← placed.remap_sp, ← childContext_registers based child tc]
  obtain ⟨words, kept⟩ :=
    StackMove.copied ⟨k.userStackBase parent, k.userStackTop parent, stack⟩ userStackSize.toNat
    (by decide) mem (placed.size ▸ apart)
  dsimp only at words kept
  constructor
  · intro copy
    obtain ⟨c, held, registers⟩ := copy.registers
    obtain rfl : _ = c := Option.some.inj (context.symm.trans held)
    exact registers
  · intro registers
    refine ⟨fun i inside => ?_, ⟨_, context, registers⟩, fun x from' to' => ?_, fun f notA0 notSepc => ?_⟩
    · rw [memory]
      exact words i inside
    · rw [memory]
      exact kept x from' (placed.size ▸ to')
    · simp [TrapContext.set, notA0, notSepc]

theorem handleUserFork_copy_apart :
    ∃ tc' out, sampleFork 0x84040000 = some (tc', out) ∧ 0 ≤ out.ret ∧
      ForkCopy ⟨0x84010000, 0x84020000, 0x84040000⟩ 0x80310000 forkingContext tc' ⟨fun _ => 0⟩ out := by
  have runs : (sampleFork 0x84040000).any (fun result => 0 ≤ result.2.ret) = true := by decide +kernel
  obtain ⟨⟨tc', out⟩, forks, success⟩ := (Option.any_eq_true _ _).mp runs
  rw [decide_eq_true_eq] at success
  have base : forkingKernel.userStackBase 0x80300000 = 0x84010000 := by decide +kernel
  have top : forkingKernel.userStackTop 0x80300000 = 0x84020000 := by decide +kernel
  have copy := handleUserFork_copy 0x80300000 0x80310000 (by decide +kernel)
    (by rw [base]; decide) rfl (by rw [base, top]; decide) forks success
  rw [base, top] at copy
  exact ⟨tc', out, forks, success, copy.mpr (by unfold Touching; decide)⟩

theorem handleUserFork_touching :
    ThreadRun .qemu 0x80200000 forkingKernel ∧ ∃ tc' out, sampleFork 0x84000000 = some (tc', out) ∧
    0 ≤ out.ret ∧
      (out.kernel.tc 0x80310000).map (fun c => c.word .sp) = some 0x84000000 ∧
      ¬ ForkCopy ⟨0x84010000, 0x84020000, 0x84000000⟩ 0x80310000 forkingContext tc' ⟨fun _ => 0⟩ out := by
  have runs : (sampleFork 0x84000000).any (fun result => 0 ≤ result.2.ret ∧
      (result.2.kernel.tc 0x80310000).map (fun c => c.word .sp) = some 0x84000000) = true := by
    decide +kernel
  obtain ⟨⟨tc', out⟩, forks, facts⟩ := (Option.any_eq_true _ _).mp runs
  rw [decide_eq_true_eq] at facts
  refine ⟨forkingKernel_run, tc', out, forks, facts.1, facts.2, fun copy => ?_⟩
  obtain ⟨c, held, registers⟩ := copy.registers
  have sp := facts.2
  rw [held, Option.map_some, registers.sp] at sp
  exact absurd sp (by decide)

end OrangeKernel.Thread
