import OrangeKernel.Trap.Nested

set_option autoImplicit false

namespace OrangeKernel.Trap

open Intrusive Riscv Thread ByteMemory Memory

-- What `switch_to` saves and restores, and what it leaves alone.
structure Switches (prev next : Addr) (m m' : Machine) : Prop where
  privilege : m'.privilege = m.privilege
  csr : m'.csr = m.csr
  tp : m'.reg .tp = next
  sp : m'.reg .sp = savedSp next m'.mem
  saved : savedSp prev m'.mem = m.reg .sp
  bytes : ∀ x, x < (objectArea prev).low ∨ (objectArea prev).high ≤ x → m'.mem.byte x = m.mem.byte x

variable {prev : Addr}

theorem switchMachine_runs (links : Links) (next : Addr) (m : Machine)
    (fits : prev.toNat + threadContextSize < 2 ^ 64) :
    ∃ m', switchMachine links prev next m = some m' ∧ Switches prev next m m' := by
  let n := (m.set .a0 prev).set .a1 next
  have size : threadContextSize = 112 := rfl
  have length : switchRegisters.length = 29 := by decide
  have runs := run_ops (program links) switchRegisters 71 [.ret] n
  rw [length] at runs
  have kept : Reg.a1 ∉ threadSlots.map Prod.fst := by decide
  have once : (threadSlots.map Prod.fst).Nodup := by decide
  have slot : (Reg.sp, 8) ∈ threadSlots := by decide
  have stores := runOps_saves .a0 threadSlots n
  have loadsSp := runOps_restores_reg kept once slot (runOps (saves .a0 threadSlots) n)
  obtain ⟨reg, loads, same⟩ := runOps_restores kept (runOps (saves .a0 threadSlots) n)
  have target : reg .a1 = next := by
    rw [same .a1 kept, stores]
    simp [n, Machine.set]
  have object : n.reg .a0 = prev := by simp [n, Machine.set]
  have moved : runOps switchRegisters n =
      { n with
        reg := Function.update reg .tp next
        mem := putWords prev (threadSlots.map fun slot => (slot.2, n.reg slot.1)) n.mem } := by
    rw [switchRegisters, runOps_append, runOps_append, loads, stores, object, runOps_cons, runOps_nil]
    simp only [Op.apply, Machine.set, target]
  have stack : reg .sp = savedSp next (putWords prev (threadSlots.map fun slot => (slot.2, n.reg slot.1)) n.mem) := by
    rw [loads, stores, object] at loadsSp
    exact loadsSp.trans (by simp [savedSp, n, Machine.set])
  rw [moved] at runs
  have whole : runStub links switchTo ((m.set .a0 prev).set .a1 next) = run (program links) 71 [.ret] _ := runs
  unfold switchMachine
  rw [whole]
  refine ⟨_, rfl, rfl, rfl, by simp, by simpa using stack, ?_, fun x outside => ?_⟩
  · have apart : (threadSlots.map fun slot => (slot.2, n.reg slot.1)).Pairwise
        fun entry later => Apart entry.1 later.1 := by
      have offsets : (threadSlots.map Prod.snd).Pairwise Apart := by decide
      rw [List.pairwise_map] at offsets ⊢
      exact offsets
    have stored := word_putWords apart (List.mem_map_of_mem slot) prev n.mem
    have before : n.reg .sp = m.reg .sp := by simp [n, Machine.set]
    rw [before] at stored
    exact stored
  · simp only [objectArea] at outside
    refine putWords_context 112 (fun entry member => ?_) (by omega) (by omega) _
    obtain ⟨slot, inSlots, rfl⟩ := List.mem_map.mp member
    have offsets : ∀ slot ∈ threadSlots, slot.2 + 8 ≤ 112 := by decide
    exact offsets slot inSlots

-- The machine when the next thread goes on, be it another one or not.
structure Follows (prev next : Addr) (m m' : Machine) : Prop where
  privilege : m'.privilege = m.privilege
  csr : m'.csr = m.csr
  tp : m'.reg .tp = next
  bytes : ∀ x, x < (objectArea prev).low ∨ (objectArea prev).high ≤ x → m'.mem.byte x = m.mem.byte x
  sp : ∀ t, (t ≠ prev → savedSp t m'.mem = savedSp t m.mem) → spOf next m' t = spOf prev m t

theorem Switches.follows {next : Addr} {m m' : Machine} (switches : Switches prev next m m') (other : prev ≠ next) :
    Follows prev next m m' := by
  refine ⟨switches.privilege, switches.csr, switches.tp, switches.bytes, fun t kept => ?_⟩
  by_cases leaves : t = prev
  · subst leaves
    rw [spOf_away other, spOf_current, switches.saved]
  · rw [spOf_away leaves, ← kept leaves]
    by_cases comes : t = next
    · subst comes
      rw [spOf_current, switches.sp]
    · rw [spOf_away comes]

theorem followCurrent_runs (links : Links) (next : Addr) {m : Machine}
    (fits : prev.toNat + threadContextSize < 2 ^ 64) (tp : m.reg .tp = prev) :
    ∃ m', followCurrent links (some prev) (some next) m = some m' ∧ Follows prev next m m' := by
  unfold followCurrent
  dsimp only
  by_cases same : prev = next
  · rw [if_pos same]
    subst same
    exact ⟨m, rfl, rfl, rfl, tp, fun _ _ => rfl, fun _ _ => rfl⟩
  · rw [if_neg same]
    obtain ⟨m', runs, switches⟩ := switchMachine_runs links next m fits
    exact ⟨m', runs, switches.follows same⟩

theorem contextAt_putContext (addr : UInt64) (context : TrapContext) (mem : Mem) :
    contextAt addr (putContext addr context mem) = context := by
  have apart : (trapFields.map fun field => (tcOffset field, context.word field)).Pairwise
      fun entry later => Apart entry.1 later.1 := by
    have offsets : (trapFields.map tcOffset).Pairwise Apart := by decide
    rw [List.pairwise_map] at offsets ⊢
    exact offsets
  have words : ∀ field,
    word (addr + UInt64.ofNat (tcOffset field)) (putContext addr context mem) = context.word field := by
    intro field
    have listed : field ∈ trapFields := by cases field <;> decide
    exact word_putWords apart (List.mem_map_of_mem (f := fun field => (tcOffset field, context.word field)) listed)
      addr mem
  exact congrArg TrapContext.mk (funext words)

variable {links : Links} {boot : Area} {k : Kernel} {t : Addr} {kstack : UInt64} {k' : Kernel}

theorem placeThread_byte (fresh : FreshBlocks boot k t kstack) (base : k'.kstackBase t = kstack) {mem : Mem}
    {x : Nat} (object : x < (objectArea t).low ∨ (objectArea t).high ≤ x)
    (stack : x < (stackOf kstack).low ∨ (stackOf kstack).high ≤ x) :
    (placeThread links k' t mem).byte x = mem.byte x := by
  have size : threadContextSize = 112 := rfl
  have room := kstackTop_bounds fresh.stack
  have number := tcAddr_toNat (k := k') (t := t) (by rw [base]; omega)
  have below := (kstackTop kstack).toNat_lt
  have fits := fresh.object
  rw [base] at number
  simp only [objectArea] at object
  simp only [stackOf] at stack
  have cleared : ∀ sp, (putWords t [(0, links.bootstrap), (8, sp)] (fill t.toNat threadContextSize 0 mem)).byte x =
      mem.byte x := fun sp => by
    rw [putWords_context 112 (by simp) (by omega) (by omega), fill_outside (by omega)]
  unfold placeThread
  dsimp only
  cases k'.tc t with
  | none => exact cleared _
  | some context =>
    have inside : ∀ entry ∈ trapFields.map fun field => (tcOffset field, context.word field),
      entry.1 + 8 ≤ 280 := by
      intro entry member
      obtain ⟨field, -, rfl⟩ := List.mem_map.mp member
      exact tcOffset_le field
    rw [Option.elim_some, putContext, putWords_context 280 inside (by omega) (by omega)]
    exact cleared _

structure Arrives (boot : Area) (k k' : Kernel) (t : Addr) (kstack status : UInt64) : Prop where
  fresh : FreshBlocks boot k t kstack
  base : k'.kstackBase t = kstack
  worker : k'.isIdle t = false
  context : k'.kind t = .user → ∃ tc, k'.tc t = some tc ∧ tc.word .tp = t ∧ tc.word .sstatus = status
  user : status &&& statusSpp = 0

variable {status : UInt64}

theorem Arrives.area (arrives : Arrives boot k k' t kstack status) : stackArea boot k' t = stackOf kstack := by
  simp [stackArea, arrives.worker, arrives.base]

theorem Arrives.stackOk (arrives : Arrives boot k k' t kstack status) (links : Links) (mem : Mem) {mem' : Mem}
    (same : ∀ x, (stackOf kstack).low ≤ x → x < (stackOf kstack).high →
      mem'.byte x = (placeThread links k' t mem).byte x) :
    StackOk (stackOf kstack) k' t mem' (firstFrames k' t) := by
  have room := kstackTop_bounds arrives.fresh.stack
  have number := tcAddr_toNat (k := k') (t := t) (by rw [arrives.base]; omega)
  have below := (kstackTop kstack).toNat_lt
  rw [arrives.base] at number
  unfold firstFrames
  by_cases user : k'.kind t = .user
  · rw [if_pos user]
    obtain ⟨tc, held, tp, isStatus⟩ := arrives.context user
    have written : contextAt (tcAddr k' t) mem' = tc := by
      rw [contextAt_congr (by omega) fun x low high => same x (by simp only [stackOf]; omega)
        (by simp only [stackOf]; omega)]
      simp only [placeThread, held, Option.elim_some]
      exact contextAt_putContext _ _ _
    refine ⟨fun f member => ?_, fun f member => ?_, List.pairwise_singleton _ _⟩
    · obtain rfl := List.mem_singleton.mp member
      refine ⟨?_, by rw [written]; exact tp, fun i none => by simp at none, .inr ⟨rfl, rfl⟩,
        fun _ => ⟨user, arrives.worker, rfl⟩⟩
      rw [ReturnsTo, written, isStatus]
      exact ⟨fun set => absurd arrives.user set, fun impossible => by simp at impossible⟩
    · obtain rfl := List.mem_singleton.mp member
      simp only [stackOf]
      omega
  · rw [if_neg user]
    exact ⟨by simp, by simp, List.Pairwise.nil⟩

-- A new thread is not called from anywhere.
theorem firstFrames_unwinds (k : Kernel) (t : Addr) (mem : Mem) (sp : UInt64) : Unwinds mem sp (firstFrames k t) := by
  unfold firstFrames
  split
  · exact ⟨fun via => (nomatch via), fun mode => (nomatch mode)⟩
  · trivial

variable {a : Sched} {s : System} {op : ThreadOp}

theorem firstStatus_user (ok : SystemOk boot a s)
    (forked : ForkedFrom s op) : firstStatus op &&& statusSpp = 0 := by
  have clear : sstatusSpie &&& statusSpp = 0 := by decide
  cases op with
  | fork parentTc stack grants mem =>
    obtain ⟨f, member, user, same⟩ := forked a.current ok.rep.current
    have frame := (ok.stackOk a.current ok.sched.current.member).frame f member
    have mode := frame.mode
    rw [ReturnsTo, user, ← same] at mode
    by_contra set
    exact absurd (mode.mp set) (by decide)
  | _ => exact clear

variable {board : Board}

theorem SystemOk.arrives (ok : SystemOk boot a s) (allowed : TrapAllowed boot s (.thread op))
    (executes : exec board s.kernel op = some k) (isNew : newThread board s.kernel (.thread op) = some t) :
    ∃ kstack, Arrives boot s.kernel k t kstack (firstStatus op) := by
  obtain ⟨-, -, forked, heap⟩ := allowed
  obtain ⟨grants, given, newcomer⟩ := exec_newcomer executes isNew
  exact ⟨grants.kstack, heap grants given t newcomer.task newcomer.granted, newcomer.kstack, newcomer.worker,
    newcomer.context, firstStatus_user ok forked⟩

inductive Member (boot : Area) (a : Sched) (s : System) (k : Kernel) (new : Option Addr) (status : UInt64)
    (t : Addr) : Prop where
  | old (member : t ∈ a.all) (other : new ≠ some t) (same : SameThread t s.kernel k)
  | new (isNew : new = some t) (kstack : UInt64) (arrives : Arrives boot s.kernel k t kstack status)

theorem SystemOk.members (ok : SystemOk boot a s) (allowed : TrapAllowed boot s (.thread op))
    (executes : exec board s.kernel op = some k) :
    ∃ b, Rep k b ∧ SchedOk b ∧
      ∀ t ∈ b.all, Member boot a s k (newThread board s.kernel (.thread op)) (firstStatus op) t := by
  obtain ⟨b, rep, sched, -, members⟩ := exec_members ok.rep ok.sched allowed.2.1 executes
  refine ⟨b, rep, sched, fun t member => ?_⟩
  cases members t member with
  | old old other same _ _ => exact .old old other same
  | new isNew _ _ =>
    obtain ⟨kstack, arrives⟩ := ok.arrives allowed executes isNew
    exact .new isNew kstack arrives

variable {new : Option Addr} {u : Addr}

theorem Member.objects (ok : SystemOk boot a s) (first : Member boot a s k new status t) (second : u ∈ a.all)
    (other : t ≠ u) : (objectArea t).Apart (objectArea u) := by
  cases first with
  | old member _ _ => exact ok.objectsApart t member u second other
  | new _ kstack arrives => exact arrives.fresh.objects u (onList_of_mem ok.rep second)

theorem Member.objectsApart (ok : SystemOk boot a s) (first : Member boot a s k new status t)
    (second : Member boot a s k new status u) (other : t ≠ u) : (objectArea t).Apart (objectArea u) := by
  cases second with
  | old member _ _ => exact first.objects ok member other
  | new isNew kstack arrives =>
    cases first with
    | old member _ _ => exact (arrives.fresh.objects t (onList_of_mem ok.rep member)).symm
    | new isNew' _ _ => exact absurd (Option.some.inj (isNew'.symm.trans isNew)) other

theorem Member.areas (ok : SystemOk boot a s) (first : Member boot a s k new status t)
    (second : Member boot a s k new status u) :
    (objectArea t).Apart (stackArea boot k u) ∧ (t ≠ u → (stackArea boot k t).Apart (stackArea boot k u)) := by
  cases first with
  | old member other same =>
    rw [stackArea_same same]
    cases second with
    | old member' other' same' =>
      rw [stackArea_same same']
      exact ⟨ok.objects t member u member', ok.apart t member u member'⟩
    | new isNew kstack arrives =>
      obtain ⟨-, object, stack⟩ := arrives.fresh.others t (onList_of_mem ok.rep member)
      rw [arrives.area]
      exact ⟨object, fun _ => stack.symm⟩
  | new isNew kstack arrives =>
    cases second with
    | old member' other' same' =>
      obtain ⟨object, -, stack⟩ := arrives.fresh.others u (onList_of_mem ok.rep member')
      rw [stackArea_same same', arrives.area]
      exact ⟨object, fun _ => stack⟩
    | new isNew' kstack' arrives' =>
      obtain rfl := Option.some.inj (isNew.symm.trans isNew')
      obtain rfl : kstack = kstack' := arrives.base.symm.trans arrives'.base
      rw [arrives.area]
      exact ⟨arrives.fresh.own, fun other => absurd rfl other⟩

theorem Member.sizes (ok : SystemOk boot a s) (member : Member boot a s k new status t) :
    (stackArea boot k t).high < 2 ^ 64 ∧
      (k.isIdle t = false → (k.kstackBase t).toNat + 288 ≤ (kstackTop (k.kstackBase t)).toNat) ∧
      t.toNat + threadContextSize < 2 ^ 64 := by
  cases member with
  | old inAll other same =>
    rw [stackArea_same same, same.isIdle, same.kstackBase]
    exact ⟨ok.bounded t inAll, ok.room t inAll, ok.object t inAll⟩
  | new isNew kstack arrives =>
    rw [arrives.area, arrives.base]
    exact ⟨(kstackTop kstack).toNat_lt, fun _ => (kstackTop_bounds arrives.fresh.stack).1, arrives.fresh.object⟩

structure Placed (links : Links) (boot : Area) (a : Sched) (s : System) (k : Kernel) (new : Option Addr)
    (placed : System) : Prop where
  privilege : placed.machine.privilege = s.machine.privilege
  csr : placed.machine.csr = s.machine.csr
  tp : placed.machine.reg .tp = s.machine.reg .tp
  frames : ∀ t, new ≠ some t → placed.frames t = s.frames t
  sp : placed.machine.reg .sp = s.machine.reg .sp
  bytes : ∀ t ∈ a.all, ∀ x, (stackArea boot s.kernel t).low ≤ x → x < (stackArea boot s.kernel t).high →
    placed.machine.mem.byte x = s.machine.mem.byte x
  saved : ∀ t ∈ a.all, savedSp t placed.machine.mem = savedSp t s.machine.mem
  first : ∀ t, new = some t →
    placed.frames t = firstFrames k t ∧ placed.machine.mem = placeThread links k t s.machine.mem

theorem Area.Apart.outside {a b : Area} (apart : a.Apart b) {x : Nat} (low : b.low ≤ x) (high : x < b.high) :
    x < a.low ∨ a.high ≤ x := by
  cases apart with
  | inl before => exact .inr (before.trans low)
  | inr after => exact .inl (high.trans_le after)

theorem SystemOk.placed (ok : SystemOk boot a s) (links : Links)
    (arrives : ∀ t, new = some t → ∃ kstack, Arrives boot s.kernel k t kstack status) :
    Placed links boot a s k new (new.elim s fun t => s.place links k t) := by
  cases new with
  | none =>
    exact ⟨rfl, rfl, rfl, fun _ _ => rfl, rfl, fun _ _ _ _ _ => rfl, fun _ _ => rfl, fun t isNew => nomatch isNew⟩
  | some t =>
    obtain ⟨kstack, arrives⟩ := arrives t rfl
    refine ⟨rfl, rfl, rfl, fun u other => ?_, rfl, fun u member x low high => ?_, fun u member => ?_,
      fun u isNew => ?_⟩
    · exact Function.update_of_ne (fun same => other (congrArg some same.symm)) _ _
    · -- the blocks of the new thread meet no stack
      obtain ⟨object, -, stack⟩ := arrives.fresh.others u (onList_of_mem ok.rep member)
      exact placeThread_byte arrives.fresh arrives.base (object.outside low high) (stack.outside low high)
    · have objects := arrives.fresh.objects u (onList_of_mem ok.rep member)
      obtain ⟨-, stack, -⟩ := arrives.fresh.others u (onList_of_mem ok.rep member)
      refine savedSp_congr (ok.object u member) fun x low high => ?_
      exact placeThread_byte arrives.fresh arrives.base (objects.outside low high) (stack.symm.outside low high)
    · cases isNew
      exact ⟨Function.update_self _ _ _, rfl⟩

variable {s' : System}

theorem SystemOk.thread (ok : SystemOk boot a s) (allowed : TrapAllowed boot s (.thread op))
    (steps : trapStep board links s (.thread op) = some s') : ∃ b, SystemOk boot b s' := by
  obtain ⟨k, executes, rest⟩ := Option.bind_eq_some_iff.mp steps
  obtain ⟨b, rep, sched, members⟩ := ok.members allowed executes
  have placing := ok.placed links fun t isNew => ok.arrives allowed executes isNew
  have supervisor := allowed.1
  generalize newThread board s.kernel (.thread op) = new at rest members placing
  generalize (new.elim s fun t => s.place links k t) = placed at rest placing
  have runs : a.current ∈ a.all := ok.sched.current.member
  obtain ⟨m, follows, switched⟩ := followCurrent_runs links b.current (ok.object _ runs) (placing.tp.trans ok.tp)
  have same := switched.bytes
  have before : threadCurrent s.kernel = some a.current := ok.rep.current
  have after : threadCurrent k = some b.current := rep.current
  obtain rfl : { placed with machine := m, kernel := k } = s' := by
    simpa [before, after, follows] using rest
  have contexts : ∀ t ∈ a.all, ∀ f ∈ s.frames t, contextAt f.addr m.mem = contextAt f.addr s.machine.mem := by
    intro t old
    refine (ok.stackOk t old).untouched (ok.bounded t old) fun x low high => ?_
    rw [same x ((ok.objects _ runs t old).outside low high), placing.bytes t old x low high]
  refine ⟨b, rep, sched, switched.tp, fun _ => ?_, fun user => ?_, fun t member => ?_, fun t member => ?_,
    fun t member => ?_, fun t member => ?_, fun t first u second => ?_, fun t first u second => ?_,
    fun t first u second => (members t first).objectsApart ok (members u second), fun t member => ?_⟩
  · rw [switched.csr, placing.csr]
    exact ok.kernelMode supervisor
  · rw [switched.privilege, placing.privilege, supervisor] at user
    exact absurd user (by decide)
  · cases members t member with
    | old old other thread =>
      rw [stackArea_same thread, placing.frames t other]
      exact (ok.stackOk t old).keeps thread (contexts t old)
    | new isNew kstack arrives =>
      rw [arrives.area, (placing.first t isNew).1]
      refine arrives.stackOk links s.machine.mem fun x low high => ?_
      rw [← (placing.first t isNew).2]
      -- `switch_to` saves to the object of a thread that was there before
      obtain ⟨-, object, -⟩ := arrives.fresh.others _ (onList_of_mem ok.rep runs)
      exact same x (object.outside low high)
  · exact ((members t member).sizes ok).1
  · exact ((members t member).sizes ok).2.1
  · exact ((members t member).sizes ok).2.2
  · exact ((members t first).areas ok (members u second)).1
  · exact ((members t first).areas ok (members u second)).2
  · -- `switch_to` neither loses the `sp` of a thread nor changes that of a third one
    have moved := switched.sp t fun away => savedSp_congr ((members t member).sizes ok).2.2 fun x low high =>
      same x (((members t member).objects ok runs away).symm.outside low high)
    dsimp only
    rw [moved]
    cases members t member with
    | old old other _ =>
      have unwinds := (ok.unwinds t old).congr (contexts t old)
      rw [placing.frames t other]
      by_cases running : t = a.current
      · subst running
        rw [spOf_current] at unwinds ⊢
        rw [placing.sp]
        exact unwinds
      · rw [spOf_away running] at unwinds ⊢
        rw [placing.saved t old]
        exact unwinds
    | new isNew _ _ =>
      rw [(placing.first t isNew).1]
      exact firstFrames_unwinds k t m.mem _

theorem SystemOk.step (ok : SystemOk boot a s) {op : TrapOp} (allowed : TrapAllowed boot s op)
    (steps : trapStep board links s op = some s') : ∃ b, SystemOk boot b s' := by
  cases op with
  | user m =>
    cases steps
    obtain ⟨user, mode, contexts, saved⟩ := allowed
    exact ⟨a, ok.user user mode contexts saved⟩
  | kernel m =>
    cases steps
    obtain ⟨-, mode, contexts, saved⟩ := allowed
    exact ⟨a, ok.resume mode contexts saved⟩
  | edit addr m =>
    cases steps
    obtain ⟨-, mode, rewritten, saved⟩ := allowed
    exact ⟨a, ok.edit mode rewritten saved⟩
  | thread op => exact ok.thread allowed steps
  | trap cause tval =>
    obtain ⟨m, entered, whole⟩ := trapStep_trap board links ok cause tval
    rw [whole] at steps
    cases steps
    exact ⟨a, ok.trap (ok.entry allowed) entered⟩
  | back =>
    obtain ⟨f, outer, frames, continues⟩ := ok.continues allowed steps
    cases continues with
    | waits rest m via point onward result =>
      rw [result]
      exact ⟨a, ok.waits frames allowed.1 via point onward⟩
    | returns m restored result =>
      rw [result]
      exact ⟨a, (ok.returns frames restored).2⟩

theorem TrapRun.ok {bootIdle : Addr}
    (run : TrapRun board links boot bootIdle s) : ∃ a, SystemOk boot a s := by
  induction run with
  | boot m supervisor scratch tp bounded object apart =>
    exact ⟨_, .boot supervisor scratch tp bounded object apart⟩
  | step op _ allowed result ih =>
    obtain ⟨a, ok⟩ := ih
    exact ok.step allowed result

theorem SystemOk.scratch_user (ok : SystemOk boot a s)
    (user : s.machine.privilege = .user) :
    s.machine.csr .sscratch = tcAddr s.kernel a.current + UInt64.ofNat trapContextAllocSize ∧
      s.machine.csr .sscratch = kstackTop (s.kernel.kstackBase a.current) := by
  obtain ⟨-, -, -, scratch⟩ := ok.userMode user
  exact ⟨by rw [scratch, tcAddr, UInt64.sub_add_cancel], scratch⟩

theorem SystemOk.scratchFits (ok : SystemOk boot a s) :
    ScratchFits s.machine := by
  refine ⟨fun zero => ?_, ok.kernelMode⟩
  cases mode : s.machine.privilege with
  | supervisor => rfl
  | user =>
    -- the stack of a thread ends above the room for one context
    obtain ⟨-, -, worker, scratch⟩ := ok.userMode mode
    have room := ok.room _ ok.sched.current.member worker
    rw [← scratch, zero] at room
    exact absurd room (by simp)

theorem SystemOk.back_resumes (ok : SystemOk boot a s) (allowed : TrapAllowed boot s .back)
    (steps : trapStep board links s .back = some s') {f : Frame} {outer : List Frame}
    (frames : s.frames a.current = f :: outer) (gone : s'.frames a.current = outer) {i : Interrupted}
    (origin : f.origin = some i) : Resumes s'.machine i := by
  obtain ⟨g, rest, same, continues⟩ := ok.continues allowed steps
  rw [frames] at same
  obtain ⟨rfl, rfl⟩ := List.cons.inj same
  cases continues with
  | waits code m via point onward result =>
    rw [result] at gone
    dsimp only at gone
    rw [Function.update_self] at gone
    have longer := congrArg List.length gone
    simp at longer
  | returns m restored result =>
    rw [result]
    have stack := ok.stackOk a.current ok.sched.current.member
    exact restored.resumes ((stack.frame f (by simp [frames])).origin i origin)

theorem trap_transparent (board : Board) (links : Links) :
    (∀ calls : CFunction → Machine → Machine → Prop, (∀ f m m', calls f m m' → Convention m m') →
      ∀ m cause tval, ScratchFits m →
        (∀ m', Executes links calls trapEntry (m.takeTrap cause tval) m' →
          Resumes m' (interrupted m) ∧ m'.csr .sscratch = m.csr .sscratch) ∧
        ((∀ f m, ∃ m', calls f m m') → (∀ m m', calls .userHasExited m m' → m'.reg .a0 = 0) →
          ∃ m', Executes links calls trapEntry (m.takeTrap cause tval) m')) ∧
    ∀ boot bootIdle s, TrapRun board links boot bootIdle s →
      ScratchFits s.machine ∧
      ∃ t, threadCurrent s.kernel = some t ∧
        (s.machine.privilege = .user → s.machine.reg .tp = t ∧ s.kernel.kind t = .user ∧
          s.machine.csr .sscratch = tcAddr s.kernel t + UInt64.ofNat trapContextAllocSize ∧
          s.machine.csr .sscratch = kstackTop (s.kernel.kstackBase t)) ∧
        (∀ cause tval, TrapAllowed boot s (.trap cause tval) → ∃ s' f,
          trapStep board links s (.trap cause tval) = some s' ∧ s'.frames t = f :: s.frames t ∧
          f.origin = some (interrupted s.machine) ∧ (s.machine.privilege = .user → f.addr = tcAddr s.kernel t) ∧
          SameContexts s s'.machine.mem) ∧
        (∀ s', TrapAllowed boot s .back → trapStep board links s .back = some s' →
          ∀ f outer, s.frames t = f :: outer → s'.frames t = outer → ∀ i, f.origin = some i →
            Resumes s'.machine i) ∧
        ∀ u, OnList s.kernel u → ∀ f ∈ s.frames u, ∀ i, f.origin = some i →
          Keeps (contextAt f.addr s.machine.mem) i := by
  refine ⟨fun calls convention m cause tval fits => ⟨fun m' executes => trap_resumes convention fits executes,
    fun returns alive => exists_executes links returns alive _⟩, fun boot bootIdle s run => ?_⟩
  obtain ⟨a, ok⟩ := run.ok
  have listed : ∀ u, OnList s.kernel u → u ∈ a.all := by
    rintro u ⟨all, stack, member⟩
    rwa [stack.unique ok.rep.all] at member
  refine ⟨ok.scratchFits, a.current, ok.rep.current, fun user => ?_, fun cause tval allowed => ?_,
    fun s' allowed steps f outer frames gone i origin => ok.back_resumes allowed steps frames gone origin,
    fun u onList f member i origin => ((ok.stackOk u (listed u onList)).frame f member).origin i origin⟩
  · obtain ⟨-, kind, -⟩ := ok.userMode user
    exact ⟨ok.tp, kind, ok.scratch_user user⟩
  · have entry := ok.entry allowed
    obtain ⟨m, entered, steps⟩ := trapStep_trap board links ok cause tval
    exact ⟨_, _, steps, Function.update_self _ _ _, rfl, entry.user,
      fun u onList => ok.sameContexts entry entered u (listed u onList)⟩

def sampleLinks : Links := ⟨fun _ => 0x80210000, fun _ => 0x80210100, 0x80210200⟩

def sampleBootStack : Area := ⟨0x80100000, 0x80104000⟩

def sampleBoot : System where
  machine :=
    { reg := fun r => match r with
        | .tp => 0x80200000
        | .sp => 0x80104000
        | _ => 0
      csr := fun _ => 0
      mem := ⟨fun _ => 0⟩
      pc := 0x80200100
      privilege := .supervisor }
  kernel := threadSystemBootstrapInit (kernelStart 0x80200000)
  frames := fun _ => []

def sampleScheduled : Option System :=
  (trapStep .qemu sampleLinks sampleBoot (.thread sampleProcess)).bind fun s =>
    trapStep .qemu sampleLinks s (.thread .schedule)

def sampleCalling : Option System :=
  sampleScheduled.bind fun s =>
    trapStep .qemu sampleLinks s (.kernel (s.machine.set .a0 (tcAddr s.kernel 0x80300000)))

def sampleToUser : Option System := sampleCalling.bind fun s => trapStep .qemu sampleLinks s .back

theorem sampleBoot_allowed : TrapAllowed sampleBootStack sampleBoot (.thread sampleProcess) := by
  have rep := schedStart_rep 0x80200000
  refine ⟨rfl, Grants.fresh_of_stack rep.all (by decide) _, trivial, ?_⟩
  rintro grants given t task -
  cases given
  cases task
  have only : ∀ u, OnList sampleBoot.kernel u → u = 0x80200000 := by
    rintro u ⟨all, stack, member⟩
    rw [stack.unique rep.all] at member
    exact List.mem_singleton.mp member
  refine ⟨by decide, by decide, .inl (by decide), fun u listed => ?_, fun u listed => ?_⟩
  · rw [only u listed]
    exact .inr (by decide)
  rw [only u listed]
  have idle : sampleBoot.kernel.isIdle 0x80200000 = true := by decide
  unfold stackArea
  rw [if_pos idle]
  exact ⟨.inr (by decide), .inl (by decide), .inr (by decide)⟩

def sampleCalls (_ : CFunction) (m m' : Machine) : Prop := m' = m.set .a0 0

theorem trap_transparent_firstProcess :
    ∃ s, sampleToUser = some s ∧ s.machine.privilege = .user ∧
      TrapRun .qemu sampleLinks sampleBootStack 0x80200000 s ∧ ScratchFits s.machine ∧
      (∃ t, threadCurrent s.kernel = some t ∧ s.machine.csr .sscratch = kstackTop (s.kernel.kstackBase t) ∧
        ∃ s' f, trapStep .qemu sampleLinks s (.trap 8 0) = some s' ∧ s'.frames t = f :: s.frames t ∧
          f.addr = tcAddr s.kernel t) ∧
      ∃ m', Executes sampleLinks sampleCalls trapEntry (s.machine.takeTrap 8 0) m' ∧
        Resumes m' (interrupted s.machine) := by
  have created : (trapStep .qemu sampleLinks sampleBoot (.thread sampleProcess)).any
      (fun s => decide (s.machine.privilege = .supervisor)) = true := by
    decide +kernel
  have waits : sampleScheduled.any (fun s => decide (s.machine.privilege = .supervisor)) = true := by
    decide +kernel
  have passes : sampleCalling.any (fun s => decide (s.machine.privilege = .supervisor ∧
      threadCurrent s.kernel = some 0x80300000 ∧
      (s.frames 0x80300000).map (fun f => (f.addr, f.via)) = [(s.machine.reg .a0, .a0)])) = true := by
    decide +kernel
  have ends : sampleToUser.any (fun s => decide (s.machine.privilege = .user)) = true := by
    decide +kernel
  obtain ⟨s, user, mode⟩ := (Option.any_eq_true _ _).mp ends
  obtain ⟨called, calling, returns⟩ := Option.bind_eq_some_iff.mp user
  obtain ⟨scheduled, schedules, calls⟩ := Option.bind_eq_some_iff.mp calling
  obtain ⟨first, creates, switches⟩ := Option.bind_eq_some_iff.mp schedules
  rw [schedules] at waits
  rw [creates] at created
  rw [calling] at passes
  obtain ⟨supervisor, current, frames⟩ := of_decide_eq_true passes
  have booted : TrapRun .qemu sampleLinks sampleBootStack 0x80200000 sampleBoot :=
    .boot _ rfl rfl rfl (by decide) (by decide) (.inr (by decide))
  have running : TrapRun .qemu sampleLinks sampleBootStack 0x80200000 scheduled :=
    .step (.thread .schedule) (.step _ booted sampleBoot_allowed creates)
      ⟨of_decide_eq_true created, trivial, trivial, fun grants given => nomatch given⟩ switches
  have passed : TrapRun .qemu sampleLinks sampleBootStack 0x80200000 called := by
    refine .step _ running ?_ calls
    exact ⟨of_decide_eq_true waits, ⟨rfl, rfl, rfl⟩, fun _ _ _ _ => rfl, fun _ _ _ => rfl⟩
  have run : TrapRun .qemu sampleLinks sampleBootStack 0x80200000 s := by
    refine .step .back passed ⟨supervisor, fun t f outer isCurrent innermost => ?_⟩ returns
    obtain rfl := Option.some.inj (current.symm.trans isCurrent)
    rw [innermost, List.map_cons] at frames
    obtain ⟨addr, via⟩ := Prod.mk.inj (List.cons.inj frames).1
    rw [via, if_neg (by decide), addr]
  have isUser := of_decide_eq_true mode
  obtain ⟨transparent, runs⟩ := trap_transparent .qemu sampleLinks
  obtain ⟨fits, t, isCurrent, scratch, traps, -⟩ := runs _ _ _ run
  obtain ⟨s', f, steps, pushed, -, addr, -⟩ := traps 8 0 fun impossible => nomatch isUser.symm.trans impossible
  obtain ⟨resumes, executes⟩ := transparent sampleCalls
    (fun _ m m' same => same ▸ ⟨rfl, rfl⟩) s.machine 8 0 fits
  obtain ⟨m', runsThrough⟩ := executes (fun _ m => ⟨_, rfl⟩) fun m m' same => same ▸ rfl
  exact ⟨s, user, isUser, run, fits, ⟨t, isCurrent, (scratch isUser).2.2.2, s', f, steps, pushed, addr isUser⟩,
    m', runsThrough, (resumes m' runsThrough).1⟩

end OrangeKernel.Trap
