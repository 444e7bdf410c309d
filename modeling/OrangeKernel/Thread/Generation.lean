import OrangeKernel.Thread.Rollback

set_option autoImplicit false

-- The window of user code has a generation that goes up with each image copied into it.

namespace OrangeKernel.Thread

open Function Intrusive Memory ByteMemory
open Fdt (Text)

variable {board : Board} {boot : BootInfo} {fuel : Nat} {name : Text} {mem mem' : Mem} {k : Kernel} {a : Sched}

theorem Rep.notBusy (rep : Rep k a) (idle : threadUserImageBusy (threadCurrent k) k = some false)
    {t : Addr} (member : t ∈ a.all) (user : a.kind t = .user) (live : a.state t ≠ .zombie) : t = a.current := by
  rw [rep.imageBusy, Option.some.injEq, List.any_eq_false] at idle
  have none := idle t member
  by_contra other
  exact none (decide_eq_true ⟨fun same => other ((rep.isCurrent t).mp same.symm), user, live⟩)

variable {frame : Addr}

structure Images where
  ledger : Ledger
  generation : Nat
  born : Addr → Nat

inductive ImageOp where
  | own (op : OwnOp)
  | load (boot : BootInfo) (fuel : Nat) (name : Text) (mem : Mem)
  | exec (boot : BootInfo) (fuel : Nat) (frame : Addr) (mem : Mem)

def bornAfter (born : Addr → Nat) (generation : Nat) : Option Addr → Addr → Nat
  | some t => update born t generation
  | none => born

def imageStep (board : Board) (s : Images) : ImageOp → Option Images
  | .own op => do
    let after ← ownStep board s.ledger op
    some { s with
      ledger := after
      born := bornAfter s.born s.generation (newThread board s.ledger.kernel op) }
  | .load boot fuel name mem => do
    let (image, _) ← execLoadImage board boot fuel name mem s.ledger.kernel
    some { s with generation := if image.isSome then s.generation + 1 else s.generation }
  | .exec boot fuel frame mem => do
    let (ret, _, after) ← handleUserExec board boot fuel frame mem s.ledger.kernel
    let ledger := { s.ledger with kernel := after }
    if ret < 0 then some { s with ledger := ledger }
    else
      -- the copy, and the thread that asked for it
      let generation := s.generation + 1
      some
        { ledger := ledger
          generation := generation
          born := bornAfter s.born generation (threadCurrent s.ledger.kernel) }

-- `exec_spawn` is called by kernel threads; the other promises are those of the ledger.
def ImageAllowed (s : Images) : ImageOp → Prop
  | .own op => op.IsCall ∧ OwnAllowed s.ledger op
  | .load _ _ _ _ => ∀ t, threadCurrent s.ledger.kernel = some t → s.ledger.kernel.kind t = .kernel
  | .exec _ _ _ _ => True

inductive ImageRun (board : Board) (bootIdle : Addr) : Images → Prop where
  | boot : ImageRun board bootIdle ⟨ledgerStart bootIdle, 0, fun _ => 0⟩
  | step {s s' : Images} (op : ImageOp) (run : ImageRun board bootIdle s) (allowed : ImageAllowed s op)
      (result : imageStep board s op = some s') : ImageRun board bootIdle s'

def UpToDate (born : Addr → Nat) (generation : Nat) (a : Sched) : Prop :=
  ∀ t ∈ a.all, a.kind t = .user → a.state t ≠ .zombie → born t = generation

def Served (s : Images) : Prop :=
  ∃ a, Holds s.ledger.kernel a s.ledger.held ∧ (s.ledger.held ++ s.ledger.lent).Nodup ∧
    UpToDate s.born s.generation a

theorem Holds.recontext {held : List UInt64} (holds : Holds k a held)
    (tc : Addr → Option TrapContext) (userEntry : Addr → UInt64) :
    Holds { k with tc := tc, userEntry := userEntry } a held :=
  ⟨holds.rep.recontext tc userEntry, holds.ok, holds.blocks, holds.kstack, holds.userStack⟩

theorem bornAfter_old {born : Addr → Nat} {generation : Nat} {new : Option Addr} {t : Addr} (other : new ≠ some t) :
    bornAfter born generation new t = born t := by
  cases new with
  | none => rfl
  | some u => exact update_of_ne (fun same => other (congrArg some same.symm)) _ _

theorem Holds.upToDate {s s' : Ledger} (holds : Holds s.kernel a s.held) {op : OwnOp}
    (call : op.IsCall) (allowed : OwnAllowed s op) (steps : ownStep board s op = some s') {born : Addr → Nat}
    {generation : Nat} (served : UpToDate born generation a) :
    ∃ b, Rep s'.kernel b ∧ SchedOk b ∧
      UpToDate (bornAfter born generation (newThread board s.kernel op)) generation b := by
  cases op with
  | exec => exact call.elim
  | lend stack =>
    simp only [ownStep, Option.some.injEq] at steps
    refine ⟨a, ?_, holds.ok, served⟩
    subst steps
    split <;> exact holds.rep
  | giveBack stack =>
    obtain ⟨lent, -, rfl⟩ := Option.map_eq_some_iff.mp steps
    exact ⟨a, holds.rep, holds.ok, served⟩
  | thread op =>
    obtain ⟨b, rep, ok, -, members⟩ :=
      exec_members holds.rep holds.ok (holds.allowed allowed) (ownStep_kernel steps)
    refine ⟨b, rep, ok, fun t member user live => ?_⟩
    cases members t member with
    | old inside other same _ dead =>
      have kind : a.kind t = .user := by rw [← holds.rep.kind, ← same.kind, rep.kind, user]
      rw [bornAfter_old other]
      exact served t inside kind fun was => live (dead was)
    | new isNew _ _ =>
      rw [isNew]
      exact update_self _ _ _

theorem handleUserExec_cases
    {k' : Kernel} {ret : Int} {tc : TrapContext} (framed : k.tc frame = some tc)
    (runs : handleUserExec board boot fuel frame mem k = some (ret, mem', k')) :
    (ret = -1 ∧ mem' = mem ∧
        k' = { k with
          tc := update k.tc frame (some ((tc.set .a0 (-1)).set .sepc (tc.word .sepc + 4))) }) ∨
      (ret = 1 ∧ threadUserImageBusy (threadCurrent k) k = some false ∧
        ∃ tc userEntry, k' = { k with tc := tc, userEntry := userEntry }) := by
  unfold handleUserExec at runs
  simp only [framed, Option.bind_eq_bind, Option.bind_some] at runs
  obtain ⟨⟨result, loaded, after⟩, executes, ends⟩ := Option.bind_eq_some_iff.mp runs
  simp only [Option.some.injEq, Prod.mk.injEq] at ends
  obtain ⟨rfl, rfl, rfl⟩ := ends
  obtain ⟨rfl, rfl, rfl⟩ | ⟨rfl, idle, task, contexts, -, -, rfl⟩ := sysExec_cases executes
  · refine .inl ⟨rfl, rfl, ?_⟩
    rw [framed]
    rfl
  · obtain ⟨reset, shape⟩ := userResetTrapContext_shape task { k with
      userEntry := update k.userEntry task (UInt64.ofNat (userCodeBase board)) }
    rw [shape]
    exact .inr ⟨rfl, idle, _, _, rfl⟩

theorem Rep.handleUserExec (rep : Rep k a) (board : Board) (boot : BootInfo)
    {tc : TrapContext} (framed : k.tc frame = some tc) (mem : Mem) :
    ∃ bound, ∀ fuel, bound ≤ fuel → ∃ ret mem' k',
      handleUserExec board boot fuel frame mem k = some (ret, mem', k') := by
  obtain ⟨bound, searched⟩ := searched_of_le boot mem
  refine ⟨bound, fun fuel enough => ?_⟩
  obtain ⟨ret, mem', after, executes⟩ := rep.sysExec board (searched fuel enough) (tc.word .a0) frame
  simp only [Thread.handleUserExec, framed, Option.bind_eq_bind, Option.bind_some, executes]
  exact ⟨_, _, _, rfl⟩

theorem Served.step {board : Board} {s s' : Images} (served : Served s) {op : ImageOp} (allowed : ImageAllowed s op)
    (steps : imageStep board s op = some s') : Served s' := by
  obtain ⟨a, holds, live, current⟩ := served
  cases op with
  | own op =>
    obtain ⟨call, allowed⟩ := allowed
    obtain ⟨after, result, ends⟩ := Option.bind_eq_some_iff.mp steps
    cases ends
    obtain ⟨b, rep, ok, upToDate⟩ := holds.upToDate call allowed result current
    obtain ⟨c, holdsAfter, liveAfter⟩ := Kept.after ⟨a, holds, live⟩ allowed result
    exact ⟨b, holdsAfter.relist rep ok, liveAfter, upToDate⟩
  | load boot fuel name mem =>
    obtain ⟨⟨image, mem'⟩, loads, ends⟩ := Option.bind_eq_some_iff.mp steps
    cases ends
    refine ⟨a, holds, live, fun t member user alive => ?_⟩
    obtain ⟨rfl, -⟩ | ⟨size, rfl, idle⟩ := execLoadImage_cases loads
    · exact current t member user alive
    · -- the caller is no user, and nobody else may be one
      obtain rfl := holds.rep.notBusy idle member user alive
      have kernel := allowed a.current holds.rep.current
      rw [holds.rep.kind, user] at kernel
      cases kernel
  | exec boot fuel frame mem =>
    obtain ⟨⟨ret, mem', after⟩, executes, ends⟩ := Option.bind_eq_some_iff.mp steps
    cases framed : s.ledger.kernel.tc frame with
    | none => simp [handleUserExec, framed] at executes
    | some tc =>
      obtain ⟨rfl, -, rfl⟩ | ⟨rfl, idle, contexts, entries, rfl⟩ := handleUserExec_cases framed executes
      · cases ends
        exact ⟨a, holds.recontext _ _, live, current⟩
      · cases ends
        refine ⟨a, holds.recontext _ _, live, fun t member user alive => ?_⟩
        obtain rfl := holds.rep.notBusy idle member user alive
        have running : threadCurrent s.ledger.kernel = some a.current := holds.rep.current
        rw [running]
        exact update_self _ _ _

theorem ImageRun.served {bootIdle : Addr} {s : Images} (run : ImageRun board bootIdle s) : Served s := by
  induction run with
  | boot =>
    obtain ⟨a, holds, live⟩ := ledgerStart_kept bootIdle
    refine ⟨a, holds, live, fun t member user alive => ?_⟩
    rfl
  | step op _ allowed result ih => exact ih.step allowed result

theorem ImageRun.onward {bootIdle : Addr} {s : Images} (run : ImageRun board bootIdle s)
    {May : OwnOp → Prop} {Keeps : Ledger → Prop} (calls : ∀ op, May op → op.IsCall) {l : Ledger}
    (path : OwnPath board May Keeps s.ledger l) :
    ∃ s', ImageRun board bootIdle s' ∧ s'.ledger = l ∧ s'.generation = s.generation := by
  induction path with
  | start => exact ⟨s, run, rfl, rfl⟩
  | step op _ may allowed result _ ih =>
    obtain ⟨m, sofar, rfl, same⟩ := ih
    refine ⟨{ m with
      ledger := _
      born := bornAfter m.born m.generation (newThread board m.ledger.kernel op) },
      .step (.own op) sofar ⟨calls op may, allowed⟩ ?_, rfl, same⟩
    simp only [imageStep, result, Option.bind_eq_bind, Option.bind_some]

theorem imageStep_load {s s' : Images}
    (steps : imageStep board s (.load boot fuel name mem) = some s') : s'.ledger = s.ledger := by
  obtain ⟨⟨image, mem'⟩, -, shape⟩ := Option.bind_eq_some_iff.mp steps
  rw [← Option.some.inj shape]

def firstImage : List ImageOp :=
  [.load oneProgramBoot 300 (Text.ofAscii "a") oneProgramMemory, .own (.lend 0x80310000), .own (.thread sampleProcess)]

theorem imageRun_upToDate {board : Board} {bootIdle : Addr} {s : Images} (run : ImageRun board bootIdle s) :
    (∀ all, Stack s.ledger.kernel.allNext s.ledger.kernel.allThreads all → ∀ t ∈ all,
      s.ledger.kernel.kind t = .user → s.ledger.kernel.state t ≠ .zombie → s.born t = s.generation) ∧
    (∀ boot name answers mem, (∀ t, threadCurrent s.ledger.kernel = some t → s.ledger.kernel.kind t = .kernel) →
      SpawnAllowed board (UInt64.ofNat (userCodeBase board)) answers s.ledger →
      ∃ bound, ∀ fuel, bound ≤ fuel → ∃ ret s',
        execSpawn board boot fuel name answers mem s.ledger = some (ret, s'.ledger) ∧ ImageRun board bootIdle s') ∧
    ∀ boot frame tc mem, s.ledger.kernel.tc frame = some tc →
      ∃ bound, ∀ fuel, bound ≤ fuel → ∃ ret mem' k',
        handleUserExec board boot fuel frame mem s.ledger.kernel = some (ret, mem', k') ∧
        (ret < 0 → mem' = mem ∧ k' = { s.ledger.kernel with
          tc := update s.ledger.kernel.tc frame
            (some ((tc.set .a0 (-1)).set .sepc (tc.word .sepc + 4))) }) := by
  obtain ⟨a, holds, live, current⟩ := run.served
  refine ⟨fun all listed t member user alive => ?_, fun boot name answers mem byKernel allowed => ?_,
    fun boot frame tc mem framed => ?_⟩
  · rw [← holds.rep.all.unique listed] at member
    rw [holds.rep.kind] at user
    rw [holds.rep.state] at alive
    exact current t member user alive
  · obtain ⟨bound, searched⟩ := searched_of_le boot mem
    refine ⟨bound, fun fuel enough => ?_⟩
    obtain ⟨image, mem', loads⟩ := holds.rep.loads board (searched fuel enough) name
    unfold execSpawn
    split
    · exact ⟨-1, s, rfl, run⟩
    · have loaded : ImageRun board bootIdle
          { s with generation := if image.isSome then s.generation + 1 else s.generation } :=
        run.step (.load boot fuel name mem) byKernel (by simp [imageStep, loads])
      rw [loads]
      obtain ⟨rfl, -⟩ | ⟨size, rfl, -⟩ := execLoadImage_cases loads
      · exact ⟨-1, s, rfl, run⟩
      · have started : threadSystemBootstrapInit s.ledger.kernel = s.ledger.kernel := by
          simp [threadSystemBootstrapInit, holds.rep.current]
        simp only [Option.bind_eq_bind, Option.bind_some, started]
        obtain ⟨ret, after, spawns, path, -⟩ :=
          spawnFrom_cleared ⟨a, holds, live⟩ holds answers (.first holds) allowed
        obtain ⟨s', ends, rfl, -⟩ := loaded.onward (fun _ call => call) path
        exact ⟨ret, s', spawns, ends⟩
  · obtain ⟨bound, returns⟩ := holds.rep.handleUserExec board boot framed mem
    refine ⟨bound, fun fuel enough => ?_⟩
    obtain ⟨ret, mem', k', executes⟩ := returns fuel enough
    refine ⟨ret, mem', k', executes, fun failed => ?_⟩
    obtain ⟨-, same, shape⟩ | ⟨rfl, -⟩ := handleUserExec_cases framed executes
    · exact ⟨same, shape⟩
    · exact absurd failed (by decide)

theorem imageRun_upToDate_firstImage :
    ∃ s, firstImage.foldlM (imageStep .qemu) ⟨ledgerStart 0x80200000, 0, fun _ => 0⟩ = some s ∧
      s.generation = 1 ∧
      s.ledger.kernel.kind 0x80300000 = .user ∧ s.ledger.kernel.state 0x80300000 = .runnable ∧
      s.born 0x80300000 = s.generation := by
  have ends : (firstImage.foldlM (imageStep .qemu) ⟨ledgerStart 0x80200000, 0, fun _ => 0⟩).any (fun s =>
      s.generation = 1 ∧ s.ledger.kernel.kind 0x80300000 = .user ∧ s.ledger.kernel.state 0x80300000 = .runnable ∧
        s.ledger.kernel.allThreads = some 0x80300000 ∧ s.ledger.kernel.allNext 0x80300000 = some 0x80200000 ∧
        s.ledger.kernel.allNext 0x80200000 = none) = true := by
    decide +kernel
  obtain ⟨s, result, facts⟩ := (Option.any_eq_true _ _).mp ends
  obtain ⟨generation, user, runnable, head, first, second⟩ := of_decide_eq_true facts
  refine ⟨s, result, generation, user, runnable, ?_⟩
  have run : ImageRun .qemu 0x80200000 s := by
    rw [firstImage, List.foldlM_cons, Option.bind_eq_bind, Option.bind_eq_some_iff] at result
    obtain ⟨loaded, load, result⟩ := result
    rw [List.foldlM_cons, Option.bind_eq_bind, Option.bind_eq_some_iff] at result
    obtain ⟨lent, lend, result⟩ := result
    rw [List.foldlM_cons, Option.bind_eq_bind, Option.bind_eq_some_iff] at result
    obtain ⟨created, create, result⟩ := result
    obtain rfl : created = s := by simpa using result
    have byKernel : ∀ t, (ledgerStart 0x80200000).kernel.kind t = .kernel := fun t =>
      congrFun (schedStart_rep 0x80200000).kind t
    have afterLoad : ImageRun .qemu 0x80200000 loaded :=
      .step (.load oneProgramBoot 300 (Text.ofAscii "a") oneProgramMemory) .boot (fun t _ => byKernel t) load
    have start := imageStep_load load
    have afterLend : ImageRun .qemu 0x80200000 lent :=
      .step (.own (.lend 0x80310000)) afterLoad ⟨trivial, .inr (by rw [start]; decide)⟩ lend
    have lentOne : lent.ledger = sampleLent := by
      simp only [imageStep, start, Option.bind_eq_bind, Option.bind_eq_some_iff] at lend
      obtain ⟨ledger, lends, shape⟩ := lend
      rw [← Option.some.inj shape, ← Option.some.inj lends]
      rfl
    have allowed : OwnAllowed sampleLent (.thread sampleProcess) :=
      ⟨by decide, by decide, List.mem_singleton.mpr rfl⟩
    exact .step (.own (.thread sampleProcess)) afterLend ⟨trivial, lentOne.symm ▸ allowed⟩ create
  refine (imageRun_upToDate run).1 [0x80300000, 0x80200000] ⟨⟨?_, ?_, trivial⟩, ?_⟩ _ List.mem_cons_self user ?_
  · rw [first]; rfl
  · rw [second]; rfl
  · rw [head]; rfl
  · rw [runnable]; decide

end OrangeKernel.Thread
