import OrangeKernel.Trap.Run

set_option autoImplicit false

namespace OrangeKernel.Trap

open Function Intrusive Riscv Thread ByteMemory Memory

theorem Area.Apart.symm {a b : Area} (apart : a.Apart b) : b.Apart a := Or.symm apart

theorem tcOffset_le (field : TrapField) : tcOffset field + 8 ≤ 280 := by
  cases field <;> decide

variable {addr : UInt64}

theorem offset_toNat {offset : Nat} (fits : addr.toNat + offset < 2 ^ 64) :
    (addr + UInt64.ofNat offset).toNat = addr.toNat + offset := by
  rw [UInt64.toNat_add, UInt64.toNat_ofNat']
  omega

variable {mem mem' : Mem}

theorem contextAt_congr (fits : addr.toNat + 280 < 2 ^ 64)
    (same : ∀ x, addr.toNat ≤ x → x < addr.toNat + 280 → mem'.byte x = mem.byte x) :
    contextAt addr mem' = contextAt addr mem := by
  have words : ∀ field, word (addr + UInt64.ofNat (tcOffset field)) mem' = word
    (addr + UInt64.ofNat (tcOffset field)) mem := by
    intro field
    have bound := tcOffset_le field
    unfold word
    rw [offset_toNat (by omega), load_congr fun x low high => same x (by omega) (by omega)]
  exact congrArg TrapContext.mk (funext words)

theorem putWords_context {entries : List (Nat × UInt64)} (size : Nat)
    (inside : ∀ entry ∈ entries, entry.1 + 8 ≤ size) (fits : addr.toNat + size < 2 ^ 64) {x : Nat}
    (outside : x < addr.toNat ∨ addr.toNat + size ≤ x) (mem : Mem) :
    (putWords addr entries mem).byte x = mem.byte x := by
  refine putWords_byte (fun entry member => ?_) mem
  have within := inside entry member
  rw [offset_toNat (by omega)]
  omega

theorem contextEntries_le (reg : Reg → UInt64) (csr : Csr → UInt64) :
    ∀ entry ∈ contextEntries reg csr, entry.1 + 8 ≤ 280 := by
  have offsets : ∀ o ∈ (contextEntries reg csr).map Prod.fst, o + 8 ≤ 280 := by
    change ∀ o ∈ [tcOffset .ra, tcOffset .t0] ++ ([tcOffset .sp] ++ (savedRegisters.map Prod.snd ++
      [tcOffset .sepc, tcOffset .sstatus, tcOffset .scause, tcOffset .stval])), o + 8 ≤ 280
    decide
  exact fun entry member => offsets entry.1 (List.mem_map_of_mem member)

theorem kstackTop_bounds {base : UInt64} (fits : base.toNat + threadStackSize.toNat < 2 ^ 64) :
    base.toNat + 288 ≤ (kstackTop base).toNat ∧ (kstackTop base).toNat ≤ base.toNat + threadStackSize.toNat := by
  have size : threadStackSize.toNat = 16384 := rfl
  have top : (base + threadStackSize).toNat = base.toNat + 16384 := by
    rw [UInt64.toNat_add, size]
    omega
  have mask : (~~~(15 : UInt64)).toNat = Machine.maxU64 - (2 ^ 4 - 1) := by decide
  have aligned : (kstackTop base).toNat = Machine.alignDown (base.toNat + 16384) (2 ^ 4) := by
    rw [kstackTop, UInt64.toNat_and, top, mask]
    rfl
  rw [aligned, Machine.alignDown_two_pow (by omega) (by omega), size]
  omega

theorem below_toNat {top : UInt64} (room : 288 ≤ top.toNat) :
    (top - UInt64.ofNat trapContextAllocSize).toNat = top.toNat - 288 := by
  have small : (UInt64.ofNat trapContextAllocSize).toNat = 288 := rfl
  rw [UInt64.toNat_sub_of_le, small]
  rw [UInt64.le_iff_toNat_le, small]
  exact room

variable {k : Kernel} {t : Addr}

theorem tcAddr_toNat (room : 288 ≤ (kstackTop (k.kstackBase t)).toNat) :
    (tcAddr k t).toNat = (kstackTop (k.kstackBase t)).toNat - 288 := below_toNat room

structure FrameOk (k : Kernel) (t : Addr) (mem : Mem) (f : Frame) : Prop where
  mode : ReturnsTo (contextAt f.addr mem) f.mode
  tp : (contextAt f.addr mem).word .tp = t
  origin : ∀ i, f.origin = some i → Keeps (contextAt f.addr mem) i
  point : (f.via = .sp ∧ Point f.rest) ∨ (f.via = .a0 ∧ f.rest = trapReturn)
  user : f.mode = .user → k.kind t = .user ∧ k.isIdle t = false ∧ f.addr = tcAddr k t

structure StackOk (area : Area) (k : Kernel) (t : Addr) (mem : Mem) (frames : List Frame) : Prop where
  frame : ∀ f ∈ frames, FrameOk k t mem f
  inside : ∀ f ∈ frames, area.low ≤ f.addr.toNat ∧ f.addr.toNat + 288 ≤ area.high
  stacked : frames.Pairwise fun inner outer => inner.addr.toNat + 288 ≤ outer.addr.toNat

-- From `sp` on, the code that runs on each context finds it again.
def Unwinds (mem : Mem) : (sp : UInt64) → (frames : List Frame) → Prop
  | _, [] => True
  | sp, f :: outer =>
    (f.via = .sp → sp + f.pushed = f.addr) ∧
      (f.mode = .supervisor → Unwinds mem ((contextAt f.addr mem).word .sp) outer)

-- `sp` of a thread: in the register while it runs, in its object otherwise
def spOf (current : Addr) (m : Machine) (t : Addr) : UInt64 := if t = current then m.reg .sp else savedSp t m.mem

theorem spOf_current (current : Addr) (m : Machine) : spOf current m current = m.reg .sp := if_pos rfl

theorem spOf_away {current : Addr} (away : t ≠ current) (m : Machine) : spOf current m t = savedSp t m.mem :=
  if_neg away

structure SystemOk (boot : Area) (a : Sched) (s : System) : Prop where
  rep : Rep s.kernel a
  sched : SchedOk a
  tp : s.machine.reg .tp = a.current
  kernelMode : s.machine.privilege = .supervisor → s.machine.csr .sscratch = 0
  userMode : s.machine.privilege = .user → s.frames a.current = [] ∧ s.kernel.kind a.current = .user ∧
    s.kernel.isIdle a.current = false ∧ s.machine.csr .sscratch = kstackTop (s.kernel.kstackBase a.current)
  stackOk : ∀ t ∈ a.all, StackOk (stackArea boot s.kernel t) s.kernel t s.machine.mem (s.frames t)
  bounded : ∀ t ∈ a.all, (stackArea boot s.kernel t).high < 2 ^ 64
  room : ∀ t ∈ a.all, s.kernel.isIdle t = false →
    (s.kernel.kstackBase t).toNat + 288 ≤ (kstackTop (s.kernel.kstackBase t)).toNat
  object : ∀ t ∈ a.all, t.toNat + threadContextSize < 2 ^ 64
  objects : ∀ t ∈ a.all, ∀ u ∈ a.all, (objectArea t).Apart (stackArea boot s.kernel u)
  apart : ∀ t ∈ a.all, ∀ u ∈ a.all, t ≠ u → (stackArea boot s.kernel t).Apart (stackArea boot s.kernel u)
  objectsApart : ∀ t ∈ a.all, ∀ u ∈ a.all, t ≠ u → (objectArea t).Apart (objectArea u)
  unwinds : ∀ t ∈ a.all, Unwinds s.machine.mem (spOf a.current s.machine t) (s.frames t)

variable {sp : UInt64} {frames : List Frame}

theorem Unwinds.congr (unwinds : Unwinds mem sp frames)
    (same : ∀ f ∈ frames, contextAt f.addr mem' = contextAt f.addr mem) : Unwinds mem' sp frames := by
  induction frames generalizing sp with
  | nil => trivial
  | cons f outer ih =>
    refine ⟨unwinds.1, fun supervisor => ?_⟩
    rw [same f List.mem_cons_self]
    exact ih (unwinds.2 supervisor) fun g older => same g (List.mem_cons_of_mem _ older)

theorem Unwinds.push (unwinds : Unwinds mem sp frames) (sp' : UInt64) :
    Unwinds mem sp' (frames.modifyHead (Frame.push (sp - sp'))) := by
  cases frames with
  | nil => trivial
  | cons f outer =>
    refine ⟨fun via => ?_, unwinds.2⟩
    have base : sp + f.pushed = f.addr := unwinds.1 via
    show sp' + (f.pushed + (sp - sp')) = f.addr
    rw [← base, ← UInt64.add_assoc, UInt64.add_comm sp', UInt64.add_assoc, UInt64.add_comm sp',
      UInt64.sub_add_cancel, UInt64.add_comm]

theorem Unwinds.edit (unwinds : Unwinds mem sp frames)
    (rewritten : ∀ f ∈ frames, if f.addr = addr then Returning f mem mem'
      else contextAt f.addr mem' = contextAt f.addr mem) :
    Unwinds mem' sp (frames.map (Frame.forget addr)) := by
  induction frames generalizing sp with
  | nil => trivial
  | cons f outer ih =>
    have older := fun sp (holds : Unwinds mem sp outer) =>
      ih holds fun g member => rewritten g (List.mem_cons_of_mem _ member)
    have now := rewritten f List.mem_cons_self
    rw [List.map_cons]
    unfold Frame.forget
    by_cases here : f.addr = addr
    · rw [if_pos here] at now ⊢
      refine ⟨unwinds.1, fun supervisor => ?_⟩
      dsimp only
      rw [now.sp supervisor]
      exact older _ (unwinds.2 supervisor)
    · rw [if_neg here] at now ⊢
      refine ⟨unwinds.1, fun supervisor => ?_⟩
      rw [now]
      exact older _ (unwinds.2 supervisor)

theorem savedSp_congr (fits : t.toNat + threadContextSize < 2 ^ 64)
    (same : ∀ x, (objectArea t).low ≤ x → x < (objectArea t).high → mem'.byte x = mem.byte x) :
    savedSp t mem' = savedSp t mem := by
  have size : threadContextSize = 112 := rfl
  simp only [objectArea] at same
  unfold savedSp word
  rw [offset_toNat (by omega), load_congr fun x low high => same x (by omega) (by omega)]

theorem stackArea_same {k' : Kernel} (same : SameThread t k k') (boot : Area) :
    stackArea boot k' t = stackArea boot k t := by
  simp only [stackArea, same.isIdle, same.kstackBase]

variable {area : Area}

theorem StackOk.keeps {k' : Kernel} (ok : StackOk area k t mem frames) (thread : SameThread t k k')
    (same : ∀ f ∈ frames, contextAt f.addr mem' = contextAt f.addr mem) : StackOk area k' t mem' frames := by
  refine ⟨fun f member => ?_, ok.inside, ok.stacked⟩
  obtain ⟨mode, tp, origin, point, user⟩ := ok.frame f member
  rw [← same f member] at mode tp origin
  refine ⟨mode, tp, origin, point, fun isUser => ?_⟩
  obtain ⟨kind, worker, addr⟩ := user isUser
  exact ⟨thread.kind.trans kind, thread.isIdle.trans worker, by rw [addr, tcAddr, tcAddr, thread.kstackBase]⟩

theorem StackOk.untouched (ok : StackOk area k t mem frames) (bounded : area.high < 2 ^ 64)
    (same : ∀ x, area.low ≤ x → x < area.high → mem'.byte x = mem.byte x) :
    ∀ f ∈ frames, contextAt f.addr mem' = contextAt f.addr mem := by
  intro f member
  have inside := ok.inside f member
  exact contextAt_congr (by omega) fun x low high => same x (by omega) (by omega)

variable {a : Sched}

theorem onList_of_mem (rep : Rep k a) (member : t ∈ a.all) : OnList k t :=
  ⟨a.all, rep.all, member⟩

variable {m : Machine}

theorem SystemOk.boot {boot : Area} {bootIdle : Addr} (supervisor : m.privilege = .supervisor)
    (scratch : m.csr .sscratch = 0) (tp : m.reg .tp = bootIdle) (bounded : boot.high < 2 ^ 64)
    (object : bootIdle.toNat + threadContextSize < 2 ^ 64) (apart : (objectArea bootIdle).Apart boot) :
    SystemOk boot (schedStart bootIdle) ⟨m, threadSystemBootstrapInit (kernelStart bootIdle), fun _ => []⟩ := by
  have rep := schedStart_rep bootIdle
  have only : ∀ t ∈ (schedStart bootIdle).all, t = bootIdle := fun t member => List.mem_singleton.mp member
  have idle : (threadSystemBootstrapInit (kernelStart bootIdle)).isIdle bootIdle = true := by
    rw [rep.idle]
    simp [schedStart]
  have area : stackArea boot (threadSystemBootstrapInit (kernelStart bootIdle)) bootIdle = boot := if_pos idle
  refine ⟨rep, schedStart_ok bootIdle, tp, fun _ => scratch, fun user => ?_, fun t _ => ?_, fun t member => ?_,
    fun t member worker => ?_, fun t member => ?_, fun t member u member' => ?_, fun t member u member' other => ?_,
    fun t member u member' other => ?_, fun _ _ => trivial⟩
  · rw [supervisor] at user
    cases user
  · exact ⟨by simp, by simp, List.Pairwise.nil⟩
  · rw [only t member, area]
    exact bounded
  · rw [only t member, idle] at worker
    cases worker
  · rw [only t member]
    exact object
  · rw [only t member, only u member', area]
    exact apart
  · exact absurd ((only t member).trans (only u member').symm) other
  · exact absurd ((only t member).trans (only u member').symm) other

theorem StackOk.push (ok : StackOk area k t mem frames) (bytes : UInt64) :
    StackOk area k t mem (frames.modifyHead (Frame.push bytes)) := by
  cases frames with
  | nil => exact ok
  | cons f outer =>
    obtain ⟨frame, inside, stacked⟩ := ok
    obtain ⟨first, older⟩ := List.forall_mem_cons.mp frame
    refine ⟨List.forall_mem_cons.mpr ⟨?_, older⟩, List.forall_mem_cons.mpr (List.forall_mem_cons.mp inside),
      List.pairwise_cons.mpr (List.pairwise_cons.mp stacked)⟩
    exact ⟨first.mode, first.tp, first.origin, first.point, first.user⟩

variable {s : System}

theorem SystemOk.resume_frames {boot : Area} (ok : SystemOk boot a s) (m : Machine) :
    s.resume m = { s with
      machine := m
      frames := update s.frames a.current
        ((s.frames a.current).modifyHead (Frame.push (s.machine.reg .sp - m.reg .sp))) } := by
  have current : threadCurrent s.kernel = some a.current := ok.rep.current
  rw [System.resume, current, Option.elim_some]

theorem SystemOk.onList_away {boot : Area} (ok : SystemOk boot a s) (away : t ≠ a.current) :
    threadCurrent s.kernel ≠ some t := by
  have current : threadCurrent s.kernel = some a.current := ok.rep.current
  rw [current]
  exact fun same => away (Option.some.inj same).symm

theorem SystemOk.resume {boot : Area} (ok : SystemOk boot a s) (mode : SameMode s.machine m)
    (same : SameContexts s m.mem) (saved : SameSaved s m.mem) :
    SystemOk boot a (s.resume m) := by
  have contexts := fun t member => same t (onList_of_mem ok.rep member)
  rw [ok.resume_frames]
  refine { ok with
    tp := mode.tp.trans ok.tp
    kernelMode := fun supervisor => mode.scratch.trans (ok.kernelMode (mode.privilege.symm.trans supervisor))
    userMode := fun user => ?_
    stackOk := fun t member => ?_
    unwinds := fun t member => ?_ }
  · obtain ⟨empty, kind, worker, scratch⟩ := ok.userMode (mode.privilege.symm.trans user)
    refine ⟨?_, kind, worker, mode.scratch.trans scratch⟩
    dsimp only
    rw [update_self, empty]
    rfl
  · have stack := (ok.stackOk t member).keeps (.refl t _) (contexts t member)
    dsimp only
    by_cases running : t = a.current
    · subst running
      rw [update_self]
      exact stack.push _
    · rw [update_of_ne running]
      exact stack
  · have unwinds := (ok.unwinds t member).congr (contexts t member)
    dsimp only
    by_cases running : t = a.current
    · subst running
      rw [spOf_current] at unwinds ⊢
      rw [update_self]
      exact unwinds.push _
    · rw [spOf_away running] at unwinds ⊢
      rw [update_of_ne running, saved t (onList_of_mem ok.rep member) (ok.onList_away running)]
      exact unwinds

theorem SystemOk.user {boot : Area} (ok : SystemOk boot a s) (user : s.machine.privilege = .user)
    (mode : SameMode s.machine m) (same : SameContexts s m.mem) (saved : SameSaved s m.mem) :
    SystemOk boot a { s with machine := m } := by
  have resumed := ok.resume mode same saved
  rw [ok.resume_frames, (ok.userMode user).1, List.modifyHead_nil, ← (ok.userMode user).1, update_eq_self] at resumed
  exact resumed

theorem Frame.forget_addr (addr : UInt64) (f : Frame) : (f.forget addr).addr = f.addr := by
  unfold Frame.forget
  split <;> rfl

theorem StackOk.edit (ok : StackOk area k t mem frames)
    (rewritten : ∀ f ∈ frames, if f.addr = addr then Returning f mem mem'
      else contextAt f.addr mem' = contextAt f.addr mem) :
    StackOk area k t mem' (frames.map (Frame.forget addr)) := by
  refine ⟨fun g inList => ?_, fun g inList => ?_, ?_⟩
  · obtain ⟨f, old, rfl⟩ := List.mem_map.mp inList
    obtain ⟨mode, tp, origin, point, user⟩ := ok.frame f old
    have now := rewritten f old
    unfold Frame.forget
    by_cases here : f.addr = addr
    · rw [if_pos here] at now ⊢
      exact ⟨now.mode, now.tp.trans tp, fun i none => by simp at none, point, user⟩
    · rw [if_neg here] at now ⊢
      rw [← now] at mode tp origin
      exact ⟨mode, tp, origin, point, user⟩
  · obtain ⟨f, old, rfl⟩ := List.mem_map.mp inList
    rw [Frame.forget_addr]
    exact ok.inside f old
  · rw [List.pairwise_map]
    simpa only [Frame.forget_addr] using ok.stacked

theorem SystemOk.rewrite {boot : Area} (ok : SystemOk boot a s) (rewritten : Rewritten s addr mem)
    (saved : SameSaved s mem) :
    SystemOk boot a { s with
      machine := { s.machine with mem := mem }
      frames := fun t => (s.frames t).map (Frame.forget addr) } := by
  have contexts := fun t member => rewritten t (onList_of_mem ok.rep member)
  refine { ok with
    userMode := fun user => ?_
    stackOk := fun t member => (ok.stackOk t member).edit (contexts t member)
    unwinds := fun t member => ?_ }
  · obtain ⟨empty, rest⟩ := ok.userMode user
    exact ⟨by simp [empty], rest⟩
  · have unwinds := (ok.unwinds t member).edit (contexts t member)
    dsimp only
    by_cases running : t = a.current
    · subst running
      rw [spOf_current] at unwinds ⊢
      exact unwinds
    · rw [spOf_away running] at unwinds ⊢
      rw [saved t (onList_of_mem ok.rep member) (ok.onList_away running)]
      exact unwinds

-- First the context changes, then the code goes on.
theorem SystemOk.edit {boot : Area} (ok : SystemOk boot a s)
    (mode : SameMode s.machine m) (rewritten : Rewritten s addr m.mem) (saved : SameSaved s m.mem) :
    SystemOk boot a ({ s with frames := fun t => (s.frames t).map (Frame.forget addr) }.resume m) :=
  (ok.rewrite rewritten saved).resume ⟨mode.privilege, mode.scratch, mode.tp⟩ (fun _ _ _ _ => rfl) fun _ _ _ => rfl

-- Where a trap puts its context: at `tc` from user mode, right below `sp` from the kernel.
structure EntryOk (boot : Area) (a : Sched) (s : System) : Prop where
  low : (stackArea boot s.kernel a.current).low ≤ (entryContext s.machine).toNat
  high : (entryContext s.machine).toNat + 288 ≤ (stackArea boot s.kernel a.current).high
  below : ∀ f ∈ s.frames a.current, (entryContext s.machine).toNat + 288 ≤ f.addr.toNat
  user : s.machine.privilege = .user → entryContext s.machine = tcAddr s.kernel a.current

theorem sub_alloc (top : UInt64) :
    top + UInt64.ofInt (-trapContextAllocSize) = top - UInt64.ofNat trapContextAllocSize := by
  rw [UInt64.sub_eq_add_neg]
  rfl

theorem sub_alloc_toNat {top : UInt64} (room : 288 ≤ top.toNat) :
    (top + UInt64.ofInt (-trapContextAllocSize)).toNat = top.toNat - 288 := by
  rw [sub_alloc]
  exact below_toNat room

theorem lowest_le (boot : Area) (ok : StackOk area k t mem (s.frames t)) :
    ∀ f ∈ s.frames t, lowest boot s t ≤ f.addr.toNat := by
  intro f member
  unfold lowest
  have sorted := ok.stacked
  cases frames : s.frames t with
  | nil => simp [frames] at member
  | cons head tail =>
    rw [frames] at member sorted
    simp only [List.head?_cons, Option.map_some, Option.getD_some]
    rcases List.mem_cons.mp member with rfl | deeper
    · exact Nat.le_refl _
    · have step := (List.pairwise_cons.mp sorted).1 f deeper
      omega

theorem lowest_high {boot : Area} (ok : StackOk (stackArea boot s.kernel t) k t mem (s.frames t)) :
    lowest boot s t ≤ (stackArea boot s.kernel t).high := by
  unfold lowest
  cases frames : s.frames t with
  | nil => simp
  | cons head tail =>
    have inside := ok.inside head (by simp [frames])
    simp only [List.head?_cons, Option.map_some, Option.getD_some]
    omega

variable {cause tval : UInt64}

theorem SystemOk.entry {boot : Area} (ok : SystemOk boot a s) (allowed : TrapAllowed boot s (.trap cause tval)) :
    EntryOk boot a s := by
  have stack := ok.stackOk a.current ok.sched.current.member
  cases mode : s.machine.privilege with
  | user =>
    obtain ⟨empty, -, worker, scratch⟩ := ok.userMode mode
    have room := ok.room a.current ok.sched.current.member worker
    have area : stackArea boot s.kernel a.current = stackOf (s.kernel.kstackBase a.current) := by
      simp [stackArea, worker]
    have used : s.machine.csr .sscratch ≠ 0 := by
      intro zero
      rw [← scratch, zero] at room
      have none : (0 : UInt64).toNat = 0 := rfl
      omega
    have place : entryContext s.machine = tcAddr s.kernel a.current := by
      unfold entryContext entryStack
      rw [if_pos used, sub_alloc, scratch]
      rfl
    have number := tcAddr_toNat (k := s.kernel) (t := a.current) (by omega)
    refine ⟨?_, ?_, fun f member => ?_, fun _ => place⟩
    · rw [area, place]
      simp only [stackOf]
      omega
    · rw [area, place]
      simp only [stackOf]
      omega
    · simp [empty] at member
  | supervisor =>
    obtain ⟨room, under⟩ := allowed mode a.current ok.rep.current
    have size : trapContextAllocSize = 288 := rfl
    rw [size] at room
    have number : (entryContext s.machine).toNat = (s.machine.reg .sp).toNat - 288 := by
      unfold entryContext entryStack
      rw [if_neg (not_not.mpr (ok.kernelMode mode)), sub_alloc_toNat (by omega)]
    have top := lowest_high stack
    refine ⟨by omega, by omega, fun f member => ?_, fun user => ?_⟩
    · have above := lowest_le boot stack f member
      omega
    · rw [mode] at user
      cases user

theorem trapStep_trap (board : Board) (links : Links) {boot : Area} (ok : SystemOk boot a s) (cause tval : UInt64) :
    ∃ m, Entered (s.machine.takeTrap cause tval) m ∧ trapStep board links s (.trap cause tval) = some { s with
      machine := m
      frames := update s.frames a.current
        (⟨entryContext s.machine, afterDispatch, .sp, s.machine.privilege, some (interrupted s.machine), 0⟩ ::
          s.frames a.current) } := by
  obtain ⟨m, runs, entered⟩ := trapEntry_runs links (s.machine.takeTrap cause tval)
  have current : threadCurrent s.kernel = some a.current := ok.rep.current
  refine ⟨m, entered, ?_⟩
  simp only [trapStep, current, Option.bind_eq_bind, Option.bind_some, runs, entered.sp, entryContext_takeTrap]

theorem EntryOk.outside {boot : Area} (ok : SystemOk boot a s) (entry : EntryOk boot a s)
    (entered : Entered (s.machine.takeTrap cause tval) m) {x : Nat}
    (outside : x < (entryContext s.machine).toNat ∨ (entryContext s.machine).toNat + 280 ≤ x) :
    m.mem.byte x = s.machine.mem.byte x := by
  have bounded := ok.bounded a.current ok.sched.current.member
  have high := entry.high
  rw [entered.mem, entryContext_takeTrap]
  exact putWords_context 280 (contextEntries_le _ _) (by omega) outside _

theorem SystemOk.sameContexts {boot : Area} (ok : SystemOk boot a s) (entry : EntryOk boot a s)
    (entered : Entered (s.machine.takeTrap cause tval) m) :
    ∀ t ∈ a.all, ∀ f ∈ s.frames t, contextAt f.addr m.mem = contextAt f.addr s.machine.mem := by
  intro t member f inList
  have bounded := ok.bounded a.current ok.sched.current.member
  have high := entry.high
  by_cases running : t = a.current
  · subst running
    have above := entry.below f inList
    have inside := (ok.stackOk a.current member).inside f inList
    exact contextAt_congr (by omega) fun x low _ => entry.outside ok entered (.inr (by omega))
  · refine (ok.stackOk t member).untouched (ok.bounded t member) (fun x low up => ?_) f inList
    have away := ok.apart t member a.current ok.sched.current.member running
    have bottom := entry.low
    unfold Area.Apart at away
    exact entry.outside ok entered (by omega)

theorem SystemOk.sameSaved {boot : Area} (ok : SystemOk boot a s) (entry : EntryOk boot a s)
    (entered : Entered (s.machine.takeTrap cause tval) m) :
    ∀ t ∈ a.all, savedSp t m.mem = savedSp t s.machine.mem := by
  intro t member
  refine savedSp_congr (ok.object t member) fun x low up => ?_
  have away := ok.objects t member a.current ok.sched.current.member
  have bottom := entry.low
  have high := entry.high
  unfold Area.Apart at away
  exact entry.outside ok entered (by omega)

theorem SystemOk.trap {boot : Area} (ok : SystemOk boot a s) (entry : EntryOk boot a s)
    (entered : Entered (s.machine.takeTrap cause tval) m) :
    SystemOk boot a { s with
      machine := m
      frames := update s.frames a.current
        (⟨entryContext s.machine, afterDispatch, .sp, s.machine.privilege, some (interrupted s.machine), 0⟩ ::
          s.frames a.current) } := by
  have kept := entered.keeps
  have contexts := ok.sameContexts entry entered
  refine { ok with
    tp := entered.tp.trans ok.tp
    kernelMode := fun _ => entered.scratch
    userMode := fun user => ?_
    stackOk := fun t member => ?_
    unwinds := fun t member => ?_ }
  · have supervisor : m.privilege = .user := user
    rw [entered.privilege] at supervisor
    cases supervisor
  · have outer := (ok.stackOk t member).keeps (.refl t s.kernel) (contexts t member)
    dsimp only
    by_cases running : t = a.current
    · subst running
      rw [update_self]
      refine ⟨fun f inList => ?_, fun f inList => ?_, List.pairwise_cons.mpr ⟨entry.below, outer.stacked⟩⟩
      · rcases List.mem_cons.mp inList with rfl | older
        · refine ⟨kept.mode, (kept.regs .tp).trans ok.tp, fun i isOrigin => ?_, .inl ⟨rfl, .dispatched⟩,
            fun user => ?_⟩
          · cases isOrigin
            exact kept
          · obtain ⟨-, kind, worker, -⟩ := ok.userMode user
            exact ⟨kind, worker, entry.user user⟩
        · exact outer.frame f older
      · rcases List.mem_cons.mp inList with rfl | older
        · exact ⟨entry.low, entry.high⟩
        · exact outer.inside f older
    · rw [update_of_ne running]
      exact outer
  · have unwinds := (ok.unwinds t member).congr (contexts t member)
    dsimp only
    by_cases running : t = a.current
    · subst running
      rw [spOf_current] at unwinds ⊢
      rw [update_self]
      refine ⟨fun _ => ?_, fun _ => ?_⟩
      · show m.reg .sp + 0 = entryContext s.machine
        rw [UInt64.add_zero, entered.sp, entryContext_takeTrap]
      · -- the context holds the `sp` that the trap interrupted
        have held : (contextAt (entryContext s.machine) m.mem).word .sp = s.machine.reg .sp := kept.regs .sp
        rw [held]
        exact unwinds
    · rw [spOf_away running] at unwinds ⊢
      rw [update_of_ne running, ok.sameSaved entry entered t member]
      exact unwinds

inductive Continues (a : Sched) (s s' : System) (f : Frame) (outer : List Frame) : Prop where
  | waits (rest : Code) (m : Machine) (via : f.via = .sp) (point : Point rest) (onward : Onward s.machine m)
      (result : s' = { s with
        machine := m
        frames := update s.frames a.current ({ f with rest := rest } :: outer) })
  | returns (m : Machine) (restored : Restored f.addr s.machine m)
      (result : s' = { s with machine := m, frames := update s.frames a.current outer })

theorem SystemOk.continues {board : Board} {links : Links} {boot : Area} {s' : System} (ok : SystemOk boot a s)
    (allowed : TrapAllowed boot s .back) (steps : trapStep board links s .back = some s') :
    ∃ f outer, s.frames a.current = f :: outer ∧ Continues a s s' f outer := by
  have current : threadCurrent s.kernel = some a.current := ok.rep.current
  simp only [trapStep, current, Option.bind_eq_bind, Option.bind_some] at steps
  cases frames : s.frames a.current with
  | nil => simp [frames] at steps
  | cons f outer =>
    refine ⟨f, outer, rfl, ?_⟩
    have base := allowed.2 a.current f outer current frames
    have frame := (ok.stackOk a.current ok.sched.current.member).frame f (by simp [frames])
    rw [frames] at steps
    dsimp only at steps
    obtain ⟨via, point⟩ | ⟨via, rest⟩ := frame.point
    · rw [if_pos via] at base
      have unwinds := ok.unwinds _ ok.sched.current.member
      rw [frames, spOf_current] at unwinds
      have base : s.machine.reg .sp = f.addr := by
        have popped := unwinds.1 via
        rwa [base, UInt64.add_zero] at popped
      obtain ⟨g, rest, m, runs, next, onward⟩ | ⟨rest, m, runs, next, onward⟩ | ⟨m, runs, restored⟩ :=
        runStub_cases links point s.machine
      · rw [runs] at steps
        exact .waits rest m via next onward (Option.some.inj steps).symm
      · rw [runs] at steps
        exact .waits rest m via next onward (Option.some.inj steps).symm
      · rw [runs] at steps
        rw [base] at restored
        exact .returns m restored (Option.some.inj steps).symm
    · rw [via, if_neg (by decide)] at base
      obtain ⟨m, runs, restored⟩ := trapReturn_runs links 56 s.machine
      have whole : runStub links f.rest s.machine = some (.sret m) := by
        rw [rest]
        exact runs
      rw [whole] at steps
      rw [base] at restored
      exact .returns m restored (Option.some.inj steps).symm

variable {f : Frame} {outer : List Frame}

theorem SystemOk.waits {boot : Area} (ok : SystemOk boot a s) (frames : s.frames a.current = f :: outer)
    (supervisor : s.machine.privilege = .supervisor) {rest : Code} (via : f.via = .sp) (point : Point rest)
    (onward : Onward s.machine m) :
    SystemOk boot a { s with
      machine := m
      frames := update s.frames a.current ({ f with rest := rest } :: outer) } := by
  refine { ok with
    tp := onward.tp.trans ok.tp
    kernelMode := fun _ => by rw [onward.csr]; exact ok.kernelMode supervisor
    userMode := fun user => ?_
    stackOk := fun t member => ?_
    unwinds := fun t member => ?_ }
  · have impossible : s.machine.privilege = .user := onward.privilege.symm.trans user
    rw [supervisor] at impossible
    cases impossible
  · have stack := ok.stackOk t member
    dsimp only
    rw [onward.mem]
    by_cases running : t = a.current
    · subst running
      rw [update_self]
      rw [frames] at stack
      have innermost := stack.frame f List.mem_cons_self
      refine ⟨fun g inList => ?_, fun g inList => ?_, ?_⟩
      · rcases List.mem_cons.mp inList with rfl | older
        · exact { innermost with point := .inl ⟨via, point⟩ }
        · exact stack.frame g (List.mem_cons_of_mem _ older)
      · rcases List.mem_cons.mp inList with rfl | older
        · exact stack.inside f List.mem_cons_self
        · exact stack.inside g (List.mem_cons_of_mem _ older)
      · exact List.pairwise_cons.mpr (List.pairwise_cons.mp stack.stacked)
    · rw [update_of_ne running]
      exact stack
  · have unwinds := ok.unwinds t member
    dsimp only
    rw [onward.mem]
    by_cases running : t = a.current
    · subst running
      rw [frames, spOf_current] at unwinds
      rw [spOf_current, update_self, onward.sp]
      exact unwinds
    · rw [spOf_away running] at unwinds ⊢
      rw [update_of_ne running, onward.mem]
      exact unwinds

-- Nothing lies above the context at `tc`.
theorem SystemOk.user_last {boot : Area} (ok : SystemOk boot a s)
    (frames : s.frames a.current = f :: outer) (user : f.mode = .user) : outer = [] := by
  have stack := ok.stackOk a.current ok.sched.current.member
  rw [frames] at stack
  obtain ⟨-, worker, addr⟩ := (stack.frame f List.mem_cons_self).user user
  have room := ok.room a.current ok.sched.current.member worker
  have number := tcAddr_toNat (k := s.kernel) (t := a.current) (by omega)
  cases outer with
  | nil => rfl
  | cons g rest =>
    have above := (List.pairwise_cons.mp stack.stacked).1 g List.mem_cons_self
    have inside := (stack.inside g (by simp)).2
    simp only [stackArea, worker, Bool.false_eq_true, if_false, stackOf] at inside
    rw [addr] at above
    omega

theorem SystemOk.returns {boot : Area} (ok : SystemOk boot a s) (frames : s.frames a.current = f :: outer)
    (restored : Restored f.addr s.machine m) :
    m.privilege = f.mode ∧
      SystemOk boot a { s with machine := m, frames := update s.frames a.current outer } := by
  have stack := ok.stackOk a.current ok.sched.current.member
  rw [frames] at stack
  have innermost := stack.frame f List.mem_cons_self
  have mode : m.privilege = f.mode := restored.mode.unique innermost.mode
  refine ⟨mode, { ok with
    tp := (restored.regs .tp).trans innermost.tp
    kernelMode := fun supervisor => restored.scratch.trans (if_pos supervisor)
    userMode := fun user => ?_
    stackOk := fun t member => ?_
    unwinds := fun t member => ?_ }⟩
  · have isUser : f.mode = .user := mode.symm.trans user
    obtain ⟨kind, worker, addr⟩ := innermost.user isUser
    refine ⟨(update_self _ _ _).trans (ok.user_last frames isUser), kind, worker, ?_⟩
    have scratch := restored.scratch
    have notSupervisor : m.privilege ≠ .supervisor := by
      intro impossible
      rw [show m.privilege = .user from user] at impossible
      cases impossible
    rw [if_neg notSupervisor, addr, tcAddr, UInt64.sub_add_cancel] at scratch
    exact scratch
  · dsimp only
    rw [restored.mem]
    by_cases running : t = a.current
    · subst running
      rw [update_self]
      exact ⟨fun g older => stack.frame g (List.mem_cons_of_mem _ older),
        fun g older => stack.inside g (List.mem_cons_of_mem _ older), (List.pairwise_cons.mp stack.stacked).2⟩
    · rw [update_of_ne running]
      exact ok.stackOk t member
  · have unwinds := ok.unwinds t member
    dsimp only
    rw [restored.mem]
    by_cases running : t = a.current
    · subst running
      rw [frames] at unwinds
      rw [spOf_current, update_self, restored.regs .sp]
      cases isMode : f.mode with
      | user =>
        rw [ok.user_last frames isMode]
        trivial
      | supervisor => exact unwinds.2 isMode
    · rw [spOf_away running] at unwinds ⊢
      rw [update_of_ne running, restored.mem]
      exact unwinds

end OrangeKernel.Trap
