import OrangeKernel.Thread.Generation

set_option autoImplicit false

-- A call may sleep inside `uart_recv` and `uart_send`. Everywhere else in it only interrupts come
-- in between, and all that they do to threads is wake them.

namespace OrangeKernel.Thread

open Function Intrusive Memory ByteMemory

inductive Direction where
  | read
  | write
deriving DecidableEq, Repr

inductive Stage where
  | top
  | receiving
  | received (c : UInt8)
  | storing (c : UInt8)
  | loading
  | sending (left : List UInt8)

def Stage.Sleeps : Stage → Prop
  | .receiving | .sending _ => True
  | _ => False

def Stage.Checked : Stage → Prop
  | .storing _ | .loading => True
  | _ => False

structure UartCall where
  direction : Direction
  buf : UInt64
  count : Int64
  i : Nat
  stage : Stage
  -- the bytes stored to or loaded from the user's memory so far, and those given to `uart_send`
  moved : List UInt8
  sent : List UInt8

structure Touch where
  direction : Direction
  caller : Addr
  addr : UInt64
  kernel : Kernel

structure Return where
  direction : Direction
  count : Int64
  moved : List UInt8
  sent : List UInt8
  ret : Int

structure UartSystem where
  kernel : Kernel
  mem : Mem
  calls : Addr → Option UartCall
  touched : List Touch
  returns : List Return

def UartCall.place (call : UartCall) : UInt64 := call.buf + UInt64.ofNat call.i

def UartCall.ret (call : UartCall) : Int := if call.i ≠ 0 ∨ call.count = 0 then call.i else -1

def UartSystem.put (task : Addr) (call : UartCall) (s : UartSystem) : UartSystem :=
  { s with calls := update s.calls task (some call) }

def UartSystem.answer (call : UartCall) (ret : Int) (s : UartSystem) : UartSystem :=
  { s with returns := ⟨call.direction, call.count, call.moved, call.sent, ret⟩ :: s.returns }

def UartSystem.leave (task : Addr) (call : UartCall) (s : UartSystem) : UartSystem :=
  { s.answer call call.ret with calls := update s.calls task none }

def UartSystem.touch (task : Addr) (call : UartCall) (s : UartSystem) : UartSystem :=
  { s with touched := ⟨call.direction, task, call.place, s.kernel⟩ :: s.touched }

def uartEnter (board : Board) (direction : Direction) (buf : UInt64) (count : Int64) (s : UartSystem) :
    Option UartSystem :=
  let call : UartCall := ⟨direction, buf, count, 0, .top, [], []⟩
  match currentUserTask s.kernel with
  | none => some (s.answer call (-1))
  | some task =>
    if count < 0 then some (s.answer call (-1))
    else do
      let ok ← userRangeOk board task buf count.toUInt64 (direction = .read) s.kernel
      some (if ok then s.put task call else s.answer call (-1))

-- A carriage return goes before a newline.
def sendBytes (c : UInt8) : List UInt8 := if c = 10 then [13, c] else [c]

-- `input` is what `uart_recv` returns if the call is inside it.
def uartAdvance (board : Board) (input : UInt8) (task : Addr) (call : UartCall) (s : UartSystem) : Option UartSystem :=
  match call.stage with
  | .top =>
    if (call.i : Int) < call.count.toInt then
      match call.direction with
      | .read => some (s.put task { call with stage := .receiving })
      | .write => do
        let ok ← userRangeOk board task call.place 1 false s.kernel
        some (if ok then s.put task { call with stage := .loading } else s.leave task call)
    else some (s.leave task call)
  | .receiving => some (s.put task { call with stage := .received input })
  | .received c => do
    let ok ← userRangeOk board task call.place 1 true s.kernel
    some (if ok then s.put task { call with stage := .storing c } else s.leave task call)
  | .storing c =>
    let stored := { s.touch task call with mem := store 1 call.place.toNat c.toNat s.mem }
    some (stored.put task { call with
      i := call.i + 1
      stage := .top
      moved := call.moved ++ [c] })
  | .loading =>
    let c := s.mem.byte call.place.toNat
    some ((s.touch task call).put task { call with
      stage := .sending (sendBytes c)
      moved := call.moved ++ [c] })
  | .sending [] =>
    some (s.put task { call with
      i := call.i + 1
      stage := .top })
  | .sending (c :: left) =>
    some (s.put task { call with
      stage := .sending left
      sent := call.sent ++ [c] })

inductive UartOp where
  | thread (op : ThreadOp)
  | exec (boot : BootInfo) (fuel : Nat) (frame : Addr)
  | memory (mem : Mem)
  | enter (direction : Direction) (buf : UInt64) (count : Int64)
  | advance (input : UInt8)

-- A thread that becomes a zombie never gets back to its call.
def UartSystem.follow (k : Kernel) (s : UartSystem) : UartSystem :=
  { s with
    kernel := k
    calls := fun t => if k.state t = .zombie then none else s.calls t }

-- `none` when the step faults or never returns, and for a thread that goes on with no call.
def uartStep (board : Board) (s : UartSystem) : UartOp → Option UartSystem
  | .thread op => (Thread.exec board s.kernel op).map fun k => s.follow k
  | .exec boot fuel frame => do
    let (_, mem, k) ← handleUserExec board boot fuel frame s.mem s.kernel
    some { s.follow k with mem := mem }
  | .memory mem => some { s with mem := mem }
  | .enter direction buf count => uartEnter board direction buf count s
  | .advance input => do
    let task ← threadCurrent s.kernel
    let call ← s.calls task
    uartAdvance board input task call s

def ThreadOp.Wakes : ThreadOp → Prop
  | .wakeOne _ | .wakeAll _ => True
  | _ => False

def UartSystem.Free (s : UartSystem) : Prop :=
  ∀ t call, threadCurrent s.kernel = some t → s.calls t = some call → call.stage.Sleeps

-- Kernel code is not preempted, interrupts only wake threads, and system calls come from user
-- threads that are in no other.
def UartAllowed (s : UartSystem) : UartOp → Prop
  | .thread op => Thread.Allowed s.kernel op ∧ (op.Wakes ∨ s.Free)
  | .exec _ _ frame => (∃ t, currentUserTask s.kernel = some t ∧ s.calls t = none) ∧ ∃ tc,
    s.kernel.tc frame = some tc
  | .enter _ _ _ => ∃ t, currentUserTask s.kernel = some t ∧ s.calls t = none
  | .memory _ | .advance _ => True

inductive UartRun (board : Board) (bootIdle : Addr) : UartSystem → Prop where
  | boot (mem : Mem) :
      UartRun board bootIdle ⟨threadSystemBootstrapInit (kernelStart bootIdle), mem, fun _ => none, [], []⟩
  | step {s s' : UartSystem} (op : UartOp) (run : UartRun board bootIdle s) (allowed : UartAllowed s op)
      (result : uartStep board s op = some s') : UartRun board bootIdle s'

def Permitted (board : Board) (direction : Direction) (k : Kernel) (caller : Addr) (addr : UInt64) : Prop :=
  (∃ all, Stack k.allNext k.allThreads all ∧ ∃ t ∈ all, k.kind t = .user ∧ k.tgid t = k.tgid caller ∧
    k.state t ≠ .zombie ∧ k.userStackBase t ≤ addr ∧ addr < k.userStackTop t) ∨
  (direction = .write ∧ userCodeBase board ≤ addr.toNat ∧ addr.toNat < userCodeBase board + userCodeSize)

variable {addr count : UInt64}

theorem add_of_not_lt (fits : ¬ addr + count < addr) :
    (addr + count).toNat = addr.toNat + count.toNat := by
  rw [UInt64.lt_iff_toNat_lt, UInt64.toNat_add] at fits
  rw [UInt64.toNat_add]
  have := addr.toNat_lt
  have := count.toNat_lt
  omega

variable {k : Kernel} {board : Board} {task : Addr} {writable : Bool} {a : Sched}

theorem Rep.rangeOk_cases (rep : Rep k a) (ok : userRangeOk board task addr count writable k = some true) :
    count = 0 ∨ (addr.toNat + count.toNat < 2 ^ 64 ∧
      ((∃ t ∈ a.all, stackHolds task addr (addr + count) k t) ∨
        (writable = false ∧ userCodeBase board ≤ addr.toNat ∧
          addr.toNat + count.toNat ≤ userCodeBase board + userCodeSize))) := by
  unfold userRangeOk at ok
  split at ok
  next none => exact .inl none
  · split at ok
    · simp at ok
    · dsimp only at ok
      split at ok
      · simp at ok
      next fits =>
        have sum := add_of_not_lt fits
        have bounded := (addr + count).toNat_lt
        refine .inr ⟨by omega, ?_⟩
        unfold threadUserStackContains at ok
        split at ok
        · rw [rep.someThread, Option.bind_eq_bind, Option.bind_some] at ok
          split at ok
          next found =>
            obtain ⟨t, member, holds⟩ := List.any_eq_true.mp found
            exact .inl ⟨t, member, holds⟩
          · simp only [Option.some.injEq, Bool.and_eq_true, Bool.not_eq_true', decide_eq_true_eq] at ok
            exact .inr ⟨ok.1.1, ok.1.2, by omega⟩
        · simp only [Option.bind_eq_bind, Option.bind_some, Bool.false_eq_true, if_false, Option.some.injEq,
            Bool.and_eq_true, Bool.not_eq_true', decide_eq_true_eq] at ok
          exact .inr ⟨ok.1.1, ok.1.2, by omega⟩

theorem Rep.rangeOk_fits (rep : Rep k a) (ok : userRangeOk board task addr count writable k = some true) :
    addr.toNat + count.toNat < 2 ^ 64 := by
  obtain rfl | ⟨fits, -⟩ := rep.rangeOk_cases ok
  · exact addr.toNat_lt
  · exact fits

variable {direction : Direction}

theorem Rep.permitted (rep : Rep k a) (mode : direction = .write ∨ writable = true)
    (ok : userRangeOk board task addr 1 writable k = some true) : Permitted board direction k task addr := by
  obtain none | ⟨fits, ⟨t, member, holds⟩ | ⟨readable, low, high⟩⟩ := rep.rangeOk_cases ok
  · simp at none
  · simp only [stackHolds, decide_eq_true_eq] at holds
    obtain ⟨user, group, live, low, high⟩ := holds
    refine .inl ⟨a.all, rep.all, t, member, user, group, live, low, ?_⟩
    rw [UInt64.le_iff_toNat_le, UInt64.toNat_add] at high
    rw [UInt64.lt_iff_toNat_lt]
    have one : (1 : UInt64).toNat = 1 := rfl
    omega
  · have one : (1 : UInt64).toNat = 1 := rfl
    refine .inr ⟨mode.resolve_right (by simp [readable]), low, by omega⟩

variable {after : Kernel}

theorem ThreadOp.Wakes.woken {op : ThreadOp} (wakes : op.Wakes)
    (runs : exec board k op = some after) : Woken k after := by
  cases op with
  | wakeOne queue => exact wakeOneFrom_woken runs
  | wakeAll queue => exact wakeAllFrom_woken runs
  | _ => exact wakes.elim

theorem Permitted.keeps {k' : Kernel} {caller : Addr}
    (permitted : Permitted board direction k caller addr) (kept : Woken k k') :
    Permitted board direction k' caller addr := by
  obtain ⟨all, listed, t, member, user, group, live, low, high⟩ | code := permitted
  · have same := kept.records
    simp only [Kernel.records, Records.mk.injEq] at same
    obtain ⟨tgid, kind, -, allNext, -, base, top, -, allThreads⟩ := same
    exact .inl ⟨all, by rwa [allNext, allThreads], t, member, by rw [kind, user], by rw [tgid, group],
      fun dead => live (kept.zombie t dead), by rwa [base], by rwa [top]⟩
  · exact .inr code

def Stage.left : Stage → List UInt8
  | .sending left => left
  | _ => []

def Stage.ahead : Stage → Nat
  | .sending _ => 1
  | _ => 0

def Stage.For : Direction → Stage → Prop
  | _, .top => True
  | direction, .receiving | direction, .received _ | direction, .storing _ => direction = .read
  | direction, .loading | direction, .sending _ => direction = .write

structure CallOk (call : UartCall) : Prop where
  fits : call.buf.toNat + call.count.toUInt64.toNat < 2 ^ 64
  below : (call.i : Int) ≤ call.count.toInt
  inside : call.stage ≠ .top → (call.i : Int) < call.count.toInt
  stage : call.stage.For call.direction
  moved : call.moved.length = call.i + call.stage.ahead
  sent : call.direction = .write → call.sent ++ call.stage.left = call.moved.flatMap sendBytes

structure Return.Honest (r : Return) : Prop where
  ret : r.ret = if r.moved = [] ∧ r.count ≠ 0 then -1 else (r.moved.length : Int)
  most : r.moved ≠ [] → (r.moved.length : Int) ≤ r.count.toInt
  sent : r.direction = .write → r.sent = r.moved.flatMap sendBytes

variable {call : UartCall}

theorem CallOk.honest (ok : CallOk call) (atTop : call.stage.ahead = 0 ∧ call.stage.left = []) :
    Return.Honest ⟨call.direction, call.count, call.moved, call.sent, call.ret⟩ := by
  have moved : call.moved.length = call.i := by rw [ok.moved, atTop.1, Nat.add_zero]
  constructor
  · have empty : call.moved = [] ↔ call.i = 0 := by rw [← List.length_eq_zero_iff, moved]
    simp only [UartCall.ret, empty, moved]
    by_cases zero : call.i = 0 <;> by_cases none : call.count = 0 <;> simp [zero, none]
  · intro _
    rw [moved]
    exact ok.below
  · intro writes
    simpa [atTop.2] using ok.sent writes

theorem refused_honest (direction : Direction) {count : Int64} (some : count ≠ 0) :
    Return.Honest ⟨direction, count, [], [], -1⟩ :=
  ⟨by simp [some], fun none => absurd rfl none, fun _ => rfl⟩

structure UartOk (board : Board) (s : UartSystem) : Prop where
  threads : ∃ a, Rep s.kernel a ∧ SchedOk a
  running : ∀ t call, s.calls t = some call → ¬ call.stage.Sleeps → threadCurrent s.kernel = some t
  calls : ∀ t call, s.calls t = some call → CallOk call
  checked : ∀ t call, s.calls t = some call → call.stage.Checked →
    Permitted board call.direction s.kernel t call.place
  touched : ∀ touch ∈ s.touched, Permitted board touch.direction touch.kernel touch.caller touch.addr
  returns : ∀ r ∈ s.returns, r.Honest

theorem UartOk.boot (board : Board) (bootIdle : Addr) (mem : Mem) :
    UartOk board ⟨threadSystemBootstrapInit (kernelStart bootIdle), mem, fun _ => none, [], []⟩ :=
  { threads := ⟨_, schedStart_rep bootIdle, schedStart_ok bootIdle⟩
    running := fun _ _ none => by simp at none
    calls := fun _ _ none => by simp at none
    checked := fun _ _ none => by simp at none
    touched := fun _ none => by simp at none
    returns := fun _ none => by simp at none }

variable {s : UartSystem}

theorem UartOk.memory (ok : UartOk board s) (mem : Mem) :
    UartOk board { s with mem := mem } :=
  ⟨ok.threads, ok.running, ok.calls, ok.checked, ok.touched, ok.returns⟩

theorem UartOk.answer (ok : UartOk board s) {ret : Int}
    (honest : Return.Honest ⟨call.direction, call.count, call.moved, call.sent, ret⟩) :
    UartOk board (s.answer call ret) := by
  refine ⟨ok.threads, ok.running, ok.calls, ok.checked, ok.touched, fun r member => ?_⟩
  obtain rfl | old := List.mem_cons.mp member
  · exact honest
  · exact ok.returns r old

theorem UartOk.touch (ok : UartOk board s)
    (present : s.calls task = some call) (checked : call.stage.Checked) : UartOk board (s.touch task call) := by
  refine ⟨ok.threads, ok.running, ok.calls, ok.checked, fun touch member => ?_, ok.returns⟩
  obtain rfl | old := List.mem_cons.mp member
  · exact ok.checked task call present checked
  · exact ok.touched touch old

theorem UartOk.leave (ok : UartOk board s)
    (good : CallOk call) (atTop : call.stage.ahead = 0 ∧ call.stage.left = []) :
    UartOk board (s.leave task call) := by
  have answered := ok.answer (good.honest atTop)
  -- the calls that remain were there before
  have old : ∀ t other, update s.calls task none t = some other → s.calls t = some other := by
    intro t other found
    by_cases same : t = task
    · simp [same] at found
    · rwa [update_of_ne same] at found
  exact ⟨answered.threads, fun t other found => answered.running t other (old t other found),
    fun t other found => answered.calls t other (old t other found),
    fun t other found => answered.checked t other (old t other found), answered.touched, answered.returns⟩

theorem UartOk.put (ok : UartOk board s)
    (current : threadCurrent s.kernel = some task) (good : CallOk call)
    (checked : call.stage.Checked → Permitted board call.direction s.kernel task call.place) :
    UartOk board (s.put task call) := by
  have cases : ∀ t other, update s.calls task (some call) t = some other →
      (t = task ∧ other = call) ∨ s.calls t = some other := by
    intro t other found
    by_cases same : t = task
    · subst same
      rw [update_self] at found
      exact .inl ⟨rfl, (Option.some.inj found).symm⟩
    · rw [update_of_ne same] at found
      exact .inr found
  refine ⟨ok.threads, fun t other found awake => ?_, fun t other found => ?_, fun t other found between => ?_,
    ok.touched, ok.returns⟩
  · obtain ⟨rfl, rfl⟩ | old := cases t other found
    · exact current
    · exact ok.running t other old awake
  · obtain ⟨rfl, rfl⟩ | old := cases t other found
    · exact good
    · exact ok.calls t other old
  · obtain ⟨rfl, rfl⟩ | old := cases t other found
    · exact checked between
    · exact ok.checked t other old between

theorem UartOk.follow (ok : UartOk board s)
    (threads : ∃ a, Rep k a ∧ SchedOk a) (kept : Woken s.kernel k ∨ s.Free) : UartOk board (s.follow k) := by
  have old : ∀ t call, (s.follow k).calls t = some call → s.calls t = some call := by
    intro t call found
    simp only [UartSystem.follow] at found
    split at found
    · simp at found
    · exact found
  have asleep : s.Free → ∀ t call, s.calls t = some call → call.stage.Sleeps := by
    intro free t call found
    by_contra awake
    exact awake (free t call (ok.running t call found awake) found)
  refine ⟨threads, fun t call found awake => ?_, fun t call found => ok.calls t call (old t call found),
    fun t call found between => ?_, ok.touched, ok.returns⟩
  · obtain kept | free := kept
    · have current := ok.running t call (old t call found) awake
      exact kept.current.trans current
    · exact absurd (asleep free t call (old t call found)) awake
  · obtain kept | free := kept
    · exact (ok.checked t call (old t call found) between).keeps kept
    · have sleeps := asleep free t call (old t call found)
      cases at' : call.stage <;> simp [at', Stage.Sleeps, Stage.Checked] at sleeps between

theorem UartOk.thread (ok : UartOk board s) {op : ThreadOp}
    (allowed : Thread.Allowed s.kernel op) (mode : op.Wakes ∨ s.Free)
    (runs : exec board s.kernel op = some k) : UartOk board (s.follow k) := by
  obtain ⟨a, rep, sched⟩ := ok.threads
  obtain ⟨k', b, executes, after, schedAfter⟩ := exec_follows board rep sched op allowed
  obtain rfl := Option.some.inj (executes.symm.trans runs)
  exact ok.follow ⟨b, after, schedAfter⟩ (mode.imp_left fun wakes => wakes.woken runs)

theorem UartOk.exec (ok : UartOk board s) {boot : BootInfo} {fuel : Nat} {frame : Addr}
    {tc : TrapContext} (framed : s.kernel.tc frame = some tc) {ret : Int} {mem : Mem}
    (runs : handleUserExec board boot fuel frame s.mem s.kernel = some (ret, mem, k)) : UartOk board (s.follow k) := by
  obtain ⟨a, rep, sched⟩ := ok.threads
  have same : ∃ tc userEntry, k = { s.kernel with tc := tc, userEntry := userEntry } := by
    obtain ⟨-, -, rfl⟩ | ⟨-, -, moved⟩ := handleUserExec_cases framed runs
    · exact ⟨_, s.kernel.userEntry, rfl⟩
    · exact moved
  obtain ⟨contexts, entries, rfl⟩ := same
  exact ok.follow ⟨a, rep.recontext contexts entries, sched⟩ (.inl ⟨rfl, rfl, fun _ dead => dead⟩)

variable {s' : UartSystem}

theorem UartOk.enter (ok : UartOk board s) {buf : UInt64}
    {count : Int64} (current : currentUserTask s.kernel = some task)
    (enters : uartEnter board direction buf count s = some s') : UartOk board s' := by
  obtain ⟨a, rep, -⟩ := ok.threads
  unfold uartEnter at enters
  simp only [current] at enters
  split at enters
  next negative =>
    cases enters
    refine ok.answer (refused_honest direction ?_)
    rintro rfl
    exact absurd negative (by decide)
  next positive =>
    obtain ⟨passed, range, ends⟩ := Option.bind_eq_some_iff.mp enters
    cases ends
    cases passed with
    | false =>
      refine ok.answer (refused_honest direction ?_)
      rintro rfl
      have none : (0 : Int64).toUInt64 = 0 := rfl
      simp [userRangeOk, none] at range
    | true =>
      have below : (0 : Int) ≤ count.toInt := by
        rw [Int64.lt_iff_toInt_lt] at positive
        simpa using positive
      refine ok.put (currentUserTask_eq current).1 ?_ (fun checked => checked.elim)
      exact
        { fits := rep.rangeOk_fits range
          below := by simpa using below
          inside := fun deeper => absurd rfl deeper
          stage := trivial
          moved := rfl
          sent := fun _ => rfl }

theorem UartOk.check (ok : UartOk board s)
    (current : threadCurrent s.kernel = some task) (good : CallOk call)
    (before : call.stage.ahead = 0 ∧ call.stage.left = [])
    {passed : Bool} (mode : call.direction = .write ∨ writable = true)
    (range : userRangeOk board task call.place 1 writable s.kernel = some passed) {stage : Stage}
    (next : passed = true → CallOk { call with stage := stage }) :
    UartOk board (if passed then s.put task { call with stage := stage } else s.leave task call) := by
  obtain ⟨a, rep, -⟩ := ok.threads
  cases passed with
  | false => exact ok.leave good before
  | true => exact ok.put current (next rfl) fun _ => rep.permitted mode range

theorem UartOk.advance (ok : UartOk board s)
    (current : threadCurrent s.kernel = some task) (present : s.calls task = some call) {input : UInt8}
    (steps : uartAdvance board input task call s = some s') : UartOk board s' := by
  have good := ok.calls task call present
  obtain ⟨direction, buf, count, i, stage, moved, sent⟩ := call
  cases stage with
  | top =>
    simp only [uartAdvance] at steps
    split at steps
    next inside =>
      cases direction with
      | read =>
        cases steps
        refine ok.put current { good with inside := fun _ => inside, stage := rfl } fun checked => checked.elim
      | write =>
        obtain ⟨passed, range, ends⟩ := Option.bind_eq_some_iff.mp steps
        cases ends
        exact ok.check current good ⟨rfl, rfl⟩ (.inl rfl) range fun _ =>
          { good with inside := fun _ => inside, stage := rfl }
    · cases steps
      exact ok.leave good ⟨rfl, rfl⟩
  | receiving =>
    cases steps
    exact ok.put current { good with inside := fun _ => good.inside (by simp) } fun checked => checked.elim
  | received c =>
    obtain ⟨passed, range, ends⟩ := Option.bind_eq_some_iff.mp steps
    cases ends
    exact ok.check current good ⟨rfl, rfl⟩ (.inr rfl) range fun _ =>
      { good with inside := fun _ => good.inside (by simp) }
  | storing c =>
    cases steps
    have touched := (ok.touch present trivial).memory
      (store 1 (UartCall.place ⟨direction, buf, count, i, .storing c, moved, sent⟩).toNat c.toNat s.mem)
    have inside := good.inside (by simp)
    have reads : direction = .read := good.stage
    refine touched.put current ?_ fun checked => checked.elim
    exact
      { fits := good.fits
        below := by simp only at inside ⊢; omega
        inside := fun deeper => absurd rfl deeper
        stage := trivial
        moved := by simpa [Stage.ahead] using good.moved
        sent := fun writes => by simp [reads] at writes }
  | loading =>
    cases steps
    have inside := good.inside (by simp)
    refine (ok.touch present trivial).put current ?_ fun checked => checked.elim
    exact
      { fits := good.fits
        below := good.below
        inside := fun _ => inside
        stage := good.stage
        moved := by simpa [Stage.ahead] using good.moved
        sent := fun writes => by
          have sofar := good.sent writes
          simp only [Stage.left, List.append_nil] at sofar
          simp [Stage.left, sofar] }
  | sending left =>
    have inside := good.inside (by simp)
    cases left with
    | nil =>
      cases steps
      refine ok.put current ?_ fun checked => checked.elim
      exact
        { fits := good.fits
          below := by simp only at inside ⊢; omega
          inside := fun deeper => absurd rfl deeper
          stage := trivial
          moved := good.moved
          sent := good.sent }
    | cons c left =>
      cases steps
      refine ok.put current ?_ fun checked => checked.elim
      exact
        { fits := good.fits
          below := good.below
          inside := fun _ => inside
          stage := good.stage
          moved := good.moved
          sent := fun writes => by simpa [Stage.left] using good.sent writes }

theorem UartOk.advances (ok : UartOk board s) (input : UInt8) (task : Addr)
    (call : UartCall) : ∃ s', uartAdvance board input task call s = some s' := by
  obtain ⟨a, rep, -⟩ := ok.threads
  obtain ⟨direction, buf, count, i, stage, moved, sent⟩ := call
  cases stage with
  | top =>
    simp only [uartAdvance]
    split
    · cases direction with
      | read => exact ⟨_, rfl⟩
      | write =>
        obtain ⟨passed, range⟩ :=
          rep.rangeOk board task (UartCall.place ⟨.write, buf, count, i, .top, moved, sent⟩) 1 false
        simp only [range, Option.bind_eq_bind, Option.bind_some]
        exact ⟨_, rfl⟩
    · exact ⟨_, rfl⟩
  | received c =>
    obtain ⟨passed, range⟩ :=
      rep.rangeOk board task (UartCall.place ⟨direction, buf, count, i, .received c, moved, sent⟩) 1 true
    simp only [uartAdvance, range, Option.bind_eq_bind, Option.bind_some]
    exact ⟨_, rfl⟩
  | sending left =>
    cases left with
    | nil => exact ⟨_, rfl⟩
    | cons c left => exact ⟨_, rfl⟩
  | _ => exact ⟨_, rfl⟩

theorem UartOk.step (ok : UartOk board s) {op : UartOp} (allowed : UartAllowed s op)
    (steps : uartStep board s op = some s') : UartOk board s' := by
  cases op with
  | thread op =>
    obtain ⟨k, runs, rfl⟩ := Option.map_eq_some_iff.mp steps
    exact ok.thread allowed.1 allowed.2 runs
  | exec boot fuel frame =>
    obtain ⟨⟨ret, mem, k⟩, runs, ends⟩ := Option.bind_eq_some_iff.mp steps
    cases ends
    obtain ⟨-, tc, framed⟩ := allowed
    exact (ok.exec framed runs).memory mem
  | memory mem =>
    cases steps
    exact ok.memory mem
  | enter direction buf count =>
    obtain ⟨task, current, -⟩ := allowed
    exact ok.enter current steps
  | advance input =>
    obtain ⟨task, current, rest⟩ := Option.bind_eq_some_iff.mp steps
    obtain ⟨call, present, advances⟩ := Option.bind_eq_some_iff.mp rest
    exact ok.advance current present advances

theorem UartOk.stores (ok : UartOk board s) {input : UInt8}
    (steps : uartStep board s (.advance input) = some s') {x : Nat} (changed : s'.mem.byte x ≠ s.mem.byte x) :
    ∃ t addr, threadCurrent s.kernel = some t ∧ addr.toNat = x ∧ Permitted board .read s.kernel t addr := by
  obtain ⟨task, current, rest⟩ := Option.bind_eq_some_iff.mp steps
  obtain ⟨call, present, advances⟩ := Option.bind_eq_some_iff.mp rest
  have good := ok.calls task call present
  have may := ok.checked task call present
  obtain ⟨direction, buf, count, i, stage, moved, sent⟩ := call
  cases stage with
  | storing c =>
    cases advances
    have reads : direction = .read := good.stage
    subst reads
    refine ⟨task, _, current, ?_, may trivial⟩
    by_contra elsewhere
    exact changed (store_outside (by omega))
  | top =>
    simp only [uartAdvance] at advances
    split at advances
    · cases direction with
      | read =>
        cases advances
        exact absurd rfl changed
      | write =>
        obtain ⟨passed, -, ends⟩ := Option.bind_eq_some_iff.mp advances
        cases ends
        cases passed <;> exact absurd rfl changed
    · cases advances
      exact absurd rfl changed
  | received c =>
    obtain ⟨passed, -, ends⟩ := Option.bind_eq_some_iff.mp advances
    cases ends
    cases passed <;> exact absurd rfl changed
  | sending left =>
    cases left <;>
      · cases advances
        exact absurd rfl changed
  | _ =>
    cases advances
    exact absurd rfl changed

variable {bootIdle : Addr}

theorem UartRun.ok (run : UartRun board bootIdle s) :
    UartOk board s := by
  induction run with
  | boot mem => exact .boot board bootIdle mem
  | step op _ allowed result ih => exact ih.step allowed result

theorem UartRun.quiet (run : ThreadRun board bootIdle k) (mem : Mem) :
    UartRun board bootIdle ⟨k, mem, fun _ => none, [], []⟩ := by
  induction run with
  | boot => exact .boot mem
  | step op _ allowed result ih =>
    refine .step (.thread op) ih ⟨allowed, .inr fun t call _ none => by simp at none⟩ ?_
    simp [uartStep, result, UartSystem.follow]

theorem UartRun.onward {inputs : List UInt8}
    (run : UartRun board bootIdle s)
    (steps : inputs.foldlM (fun s input => uartStep board s (.advance input)) s = some s') :
    UartRun board bootIdle s' := by
  induction inputs generalizing s with
  | nil =>
    cases steps
    exact run
  | cons input inputs ih =>
    rw [List.foldlM_cons, Option.bind_eq_bind, Option.bind_eq_some_iff] at steps
    obtain ⟨next, first, rest⟩ := steps
    exact ih (.step (.advance input) run trivial first) rest

theorem uartRun_live {board : Board} {bootIdle : Addr} {s : UartSystem} (run : UartRun board bootIdle s) :
    (∀ touch ∈ s.touched, Permitted board touch.direction touch.kernel touch.caller touch.addr) ∧
    (∀ input s', uartStep board s (.advance input) = some s' → ∀ x, s'.mem.byte x ≠ s.mem.byte x →
      ∃ t addr, threadCurrent s.kernel = some t ∧ addr.toNat = x ∧ Permitted board .read s.kernel t addr) ∧
    (∀ r ∈ s.returns, r.Honest) ∧
    (∀ task addr count writable, userRangeOk board task addr count writable s.kernel = some true →
      addr.toNat + count.toNat < 2 ^ 64) ∧
    (∀ t call, s.calls t = some call → call.buf.toNat + call.count.toUInt64.toNat < 2 ^ 64) ∧
    ∀ t call input, threadCurrent s.kernel = some t → s.calls t = some call →
      ∃ s', uartStep board s (.advance input) = some s' := by
  have ok := run.ok
  obtain ⟨a, rep, -⟩ := ok.threads
  refine ⟨ok.touched, fun input s' steps x changed => ok.stores steps changed, ok.returns,
    fun task addr count writable passed => rep.rangeOk_fits passed, fun t call found => (ok.calls t call found).fits,
    fun t call input current found => ?_⟩
  simp only [uartStep, current, found, Option.bind_eq_bind, Option.bind_some]
  exact ok.advances input t call

def sampleRunning : Option Kernel :=
  (exec .qemu (threadSystemBootstrapInit (kernelStart 0x80200000)) sampleProcess).bind fun k => exec .qemu k .schedule

def sampleRead (k : Kernel) : Option UartSystem :=
  (uartStep .qemu ⟨k, ⟨fun _ => 0⟩, fun _ => none, [], []⟩ (.enter .read 0x80310010 1)).bind fun s =>
    [0, 65, 0, 0, 0].foldlM (fun s input => uartStep .qemu s (.advance input)) s

theorem uartRun_live_sampleRead :
    ∃ k s, sampleRunning = some k ∧ sampleRead k = some s ∧ UartRun .qemu 0x80200000 s ∧
      s.touched.map Touch.addr = [0x80310010] ∧ s.returns.map Return.ret = [1] ∧
      (∀ touch ∈ s.touched, Permitted .qemu touch.direction touch.kernel touch.caller touch.addr) ∧
      ∀ r ∈ s.returns, r.Honest := by
  have ends : sampleRunning.any (fun k => decide (currentUserTask k = some 0x80300000) && (sampleRead k).any fun s =>
      s.touched.map Touch.addr = [0x80310010] ∧ s.returns.map Return.ret = [1]) = true := by
    decide +kernel
  obtain ⟨k, running, facts⟩ := (Option.any_eq_true _ _).mp ends
  obtain ⟨current, facts⟩ := Bool.and_eq_true_iff.mp facts
  obtain ⟨s, reads, facts⟩ := (Option.any_eq_true _ _).mp facts
  obtain ⟨created, creates, schedules⟩ := Option.bind_eq_some_iff.mp running
  have fresh : Allowed (threadSystemBootstrapInit (kernelStart 0x80200000)) sampleProcess :=
    Grants.fresh_of_stack (schedStart_rep 0x80200000).all (by decide) _
  have threads : ThreadRun .qemu 0x80200000 k :=
    .step .schedule (.step sampleProcess .boot fresh creates) trivial schedules
  obtain ⟨entered, enters, advances⟩ := Option.bind_eq_some_iff.mp reads
  have run : UartRun .qemu 0x80200000 s :=
    .onward
      (.step (.enter .read 0x80310010 1) (.quiet threads ⟨fun _ => 0⟩) ⟨_, of_decide_eq_true current, rfl⟩
      enters)
      advances
  obtain ⟨touched, returned⟩ := of_decide_eq_true facts
  have live := uartRun_live run
  exact ⟨k, s, running, reads, run, touched, returned, live.1, live.2.2.1⟩

end OrangeKernel.Thread
