import Mathlib.Data.List.TakeWhile
import OrangeKernel.Thread.Ownership

set_option autoImplicit false

namespace OrangeKernel.Thread

open Function Intrusive Memory ByteMemory
open Fdt (Text)

variable {s : Ledger} {a : Sched}

theorem Holds.absent (holds : Holds s.kernel a s.held) {t : Addr} (notHeld : t ∉ s.held)
    (notBoot : t ≠ s.kernel.bootIdleThread) : t ∉ a.all := by
  intro member
  cases idle : s.kernel.isIdle t with
  | true =>
    refine notBoot ?_
    rw [holds.rep.boot]
    exact (holds.ok.table.idle_iff t member).mp (holds.rep.idle ▸ idle)
  | false => exact notHeld (holds.blocks.mem_iff.mpr (mem_ownedBlocks member idle))

variable {grants : Grants}

theorem Grants.mem_offered {t : Addr} (task : grants.task = some t) : t ∈ grants.offered := by
  simp [Grants.offered, task]

variable {op : ThreadOp}

theorem Holds.fresh (holds : Holds s.kernel a s.held)
    (allowed : OwnAllowed s (.thread op)) (offers : grants.offered ⊆ offered op) :
    grants.Fresh s.kernel := by
  intro t task all stack
  rw [stack.unique holds.rep.all]
  have member : t ∈ offered op := offers (Grants.mem_offered task)
  refine holds.absent (fun held => ?_) fun boot => allowed.2.1 (boot ▸ member)
  exact (List.nodup_append.mp allowed.1).2.2 t member t (List.mem_append_left _ held) rfl

theorem Holds.allowed (holds : Holds s.kernel a s.held)
    (allowed : OwnAllowed s (.thread op)) : Allowed s.kernel op := by
  cases op with
  | createKernel entry grants => exact holds.fresh allowed (List.Subset.refl _)
  | createProcess entry stackBase stackTop grants => exact holds.fresh allowed (List.Subset.refl _)
  | createUser entry arg returnPc stack grants => exact holds.fresh allowed (List.subset_append_right _ _)
  | fork parentTc stack grants mem => exact holds.fresh allowed (List.subset_append_right _ _)
  | finish entry => exact allowed.2.2
  | _ => trivial

theorem threadAllocTakes_sublist (grants : Grants) (k : Kernel) :
    (threadAllocTakes grants k).Sublist grants.offered := by
  unfold threadAllocTakes Grants.offered
  split
  · exact List.nil_sublist _
  · cases grants.task with
    | none => exact List.nil_sublist _
    | some t =>
      by_cases noStack : grants.kstack = 0
      · simp [noStack]
      · simp [noStack]

theorem threadPrepareUserTakes_sublist (board : Board) (entry stackBase stackTop : UInt64) (grants : Grants)
    (k : Kernel) : (threadPrepareUserTakes board entry stackBase stackTop grants k).Sublist grants.offered := by
  unfold threadPrepareUserTakes
  split
  · exact List.nil_sublist _
  · exact threadAllocTakes_sublist grants k

theorem takes_sublist (board : Board) (k : Kernel) (op : ThreadOp) : (takes board k op).Sublist (offered op) := by
  cases op with
  | createKernel entry grants =>
    simp only [takes]
    split
    · exact List.nil_sublist _
    · exact threadAllocTakes_sublist grants k
  | createProcess entry stackBase stackTop grants => exact threadPrepareUserTakes_sublist _ _ _ _ _ _
  | createUser entry arg returnPc stack grants =>
    simp only [takes, threadCreateUserTakes]
    split
    · exact List.nil_sublist _
    · split
      · exact List.nil_sublist _
      · split
        · exact List.nil_sublist _
        next granted =>
          have nonnull : stack ≠ 0 := by tauto
          simpa [offered, nonnull] using threadPrepareUserTakes_sublist _ _ _ _ _ _
  | fork parentTc stack grants mem =>
    simp only [takes, sysForkTakes]
    split
    · exact List.nil_sublist _
    · split
      · exact List.nil_sublist _
      · split
        · exact List.nil_sublist _
        · split
          · exact List.nil_sublist _
          next granted =>
            have nonnull : stack ≠ 0 := by tauto
            simpa [offered, nonnull] using threadPrepareUserTakes_sublist _ _ _ _ _ _
  | _ => exact List.nil_sublist _

variable {k k' : Kernel} {held given freed : List UInt64} {ret : Int}

theorem Holds.built {b : Sched} (holds : Holds k a held) (fresh : grants.FreshFor a) {taken : List UInt64}
    (built : Built k k' grants ret taken given freed) (rep : Rep k' b) (ok : SchedOk b) :
    ∃ left, kfreeEach freed (taken ++ held) = some left ∧ Holds k' b ((if ret < 0 then [] else given) ++ left) ∧
      (if ret < 0 then left.Perm held else left = taken ++ held) := by
  cases built with
  | failed returns undone all =>
    have parts : (taken ++ held).Perm (freed ++ held) := all.symm.append_right held
    obtain ⟨left, frees, same⟩ := kfreeEach_perm parts
    have other : ∀ u ∈ a.all, grants.task ≠ some u := fun u member task => fresh u task member
    have stack : Stack k'.allNext k'.allThreads a.all := by
      rw [undone.first]
      exact ⟨chain_congr (fun u member => ((undone.others u (other u member)).2.2.2.2)) holds.rep.all.chain,
        holds.rep.all.first⟩
    have kept := holds.kept rep ok (rep.all.unique stack) fun u member => undone.others u (other u member)
    refine ⟨left, frees, ?_, by simpa [returns] using same⟩
    rw [returns]
    exact { kept with blocks := same.trans kept.blocks }
  | made t returns task others link first worker kstack userStack blocks none =>
    have absent := fresh t task
    have agree : ∀ u ∈ a.all, AgreeAt u k k' := fun u member => others u fun same => absent (same ▸ member)
    have stack : Stack k'.allNext k'.allThreads (t :: a.all) := by
      refine ⟨⟨?_, chain_congr (fun u member => (agree u member).2.2.2.2) holds.rep.all.chain⟩, first⟩
      rw [link, holds.rep.all.first, Option.or_none]
    have all : b.all = t :: a.all := rep.all.unique stack
    have owned : ownedBlocks k' b.all = threadBlocks k' t ++ ownedBlocks k a.all := by
      rw [all, ← ownedBlocks_congr agree]
      simp [ownedBlocks, worker]
    subst none
    refine ⟨taken ++ held, rfl, ?_, by simp [returns]⟩
    rw [if_neg (by omega)]
    refine ⟨rep, ok, ?_, fun u member isWorker => ?_, fun u member isWorker user => ?_⟩
    · rw [owned, ← List.append_assoc]
      exact (List.perm_append_comm.trans blocks).append holds.blocks
    · rw [all] at member
      rcases List.mem_cons.mp member with rfl | old
      · exact kstack
      · obtain ⟨-, idle, same, -, -⟩ := agree u old
        rw [same]
        exact holds.kstack u old (idle ▸ isWorker)
    · rw [all] at member
      rcases List.mem_cons.mp member with rfl | old
      · exact userStack user
      · obtain ⟨kind, idle, -, same, -⟩ := agree u old
        rw [same]
        exact holds.userStack u old (idle ▸ isWorker) (kind ▸ user)

def Kept (s : Ledger) : Prop := ∃ a, Holds s.kernel a s.held ∧ (s.held ++ s.lent).Nodup

variable {board : Board}

theorem ownStep_thread {after : Kernel} {left : List UInt64}
    (executes : exec board s.kernel op = some after) (released : frees board s.kernel op = some freed)
    (frees : kfreeEach freed (takes board s.kernel op ++ s.held) = some left) :
    ownStep board s (.thread op) = some
      { kernel := after
        held := handed board s.kernel op ++ left
        lent := s.lent.diff (handed board s.kernel op) } := by
  simp [ownStep, executes, released, frees]

theorem ownStep_lent {s' : Ledger} (steps : ownStep board s (.thread op) = some s') :
    s'.lent = s.lent.diff (handed board s.kernel op) := by
  obtain ⟨after, -, rest⟩ := Option.bind_eq_some_iff.mp steps
  obtain ⟨freed, -, rest⟩ := Option.bind_eq_some_iff.mp rest
  obtain ⟨held, -, rest⟩ := Option.bind_eq_some_iff.mp rest
  exact Option.some.inj rest ▸ rfl

theorem Kept.built (live : (s.held ++ s.lent).Nodup) (holds : Holds s.kernel a s.held)
    (allowed : OwnAllowed s (.thread op)) (offers : grants.offered ⊆ offered op)
    (executes : exec board s.kernel op = some k') (released : frees board s.kernel op = some freed)
    (hands : handed board s.kernel op = if ret < 0 then [] else given)
    (owner : given = [] ∨ ∃ x ∈ s.lent, given = [x])
    (built : Built s.kernel k' grants ret (takes board s.kernel op) given freed) :
    ∃ s', ownStep board s (.thread op) = some s' ∧ Kept s' := by
  obtain ⟨after, b, again, rep, ok⟩ := exec_follows board holds.rep holds.ok op (holds.allowed allowed)
  obtain rfl : after = k' := Option.some.inj (again.symm.trans executes)
  obtain ⟨left, frees, now, parts⟩ := holds.built ((holds.fresh allowed offers).forSched holds.rep) built rep ok
  refine ⟨_, ownStep_thread executes released frees, b, ?_, ?_⟩
  · rw [← hands] at now
    exact now
  · dsimp only
    rw [hands]
    by_cases failed : ret < 0
    · rw [if_pos failed] at parts ⊢
      simpa using (parts.append_right s.lent).nodup_iff.mpr live
    · rw [if_neg failed] at parts ⊢
      subst parts
      have distinct : (takes board s.kernel op ++ (s.held ++ s.lent)).Nodup :=
        allowed.1.sublist ((takes_sublist board s.kernel op).append_right _)
      rcases owner with rfl | ⟨x, member, rfl⟩
      · simpa using distinct
      · -- the stack only changes sides
        have moved : ([x] ++ s.lent.erase x).Perm s.lent := (List.perm_cons_erase member).symm
        have whole : ([x] ++ (takes board s.kernel op ++ s.held) ++ s.lent.erase x).Perm
            (takes board s.kernel op ++ (s.held ++ s.lent)) := by
          rw [← List.append_assoc _ s.held]
          refine (List.perm_append_comm.append_right _).trans ?_
          rw [List.append_assoc]
          exact moved.append_left _
        simpa using whole.nodup_iff.mpr distinct

def Quiet : ThreadOp → Prop
  | .createKernel _ _ | .createProcess _ _ _ _ | .createUser _ _ _ _ _ | .fork _ _ _ _ | .reap => False
  | _ => True

theorem exec_quiet (quiet : Quiet op)
    (executes : exec board k op = some k') :
    SameTable k k' ∧ takes board k op = [] ∧ frees board k op = some [] ∧ handed board k op = [] := by
  cases op with
  | createKernel | createProcess | createUser | fork | reap => exact quiet.elim
  | schedule => exact ⟨.of_records (schedule_records executes), rfl, rfl, rfl⟩
  | yield => exact ⟨.of_records (schedule_records executes), rfl, rfl, rfl⟩
  | prepare flags queue entry =>
    cases executes
    exact ⟨.of_records (waitQueuePrepareLocked_records flags queue entry k), rfl, rfl, rfl⟩
  | wait flags =>
    obtain ⟨⟨ret, after⟩, waits, rfl⟩ := Option.map_eq_some_iff.mp executes
    exact ⟨.of_records (waitQueueWaitLocked_records waits), rfl, rfl, rfl⟩
  | finish entry => exact ⟨.of_records (waitQueueFinishLocked_records executes), rfl, rfl, rfl⟩
  | sleep flags queue entry =>
    obtain ⟨⟨ret, after⟩, sleeps, rfl⟩ := Option.map_eq_some_iff.mp executes
    exact ⟨.of_records (waitQueueSleepLocked_records sleeps), rfl, rfl, rfl⟩
  | wakeOne queue => exact ⟨.of_records (wakeOneFrom_woken executes).records, rfl, rfl, rfl⟩
  | wakeAll queue => exact ⟨.of_records (wakeAllFrom_woken executes).records, rfl, rfl, rfl⟩
  | stopTid tid status =>
    obtain ⟨⟨ret, after⟩, stops, rfl⟩ := Option.map_eq_some_iff.mp executes
    exact ⟨threadStopTid_table stops, rfl, rfl, rfl⟩
  | stopProcess tgid status =>
    obtain ⟨⟨ret, after⟩, stops, rfl⟩ := Option.map_eq_some_iff.mp executes
    obtain ⟨⟨found, stopped⟩, each, result⟩ := Option.map_eq_some_iff.mp stops
    obtain ⟨-, rfl⟩ := Prod.mk.inj result
    exact ⟨stopProcessFrom_table each, rfl, rfl, rfl⟩
  | markCurrentZombie status => exact ⟨threadMarkCurrentZombie_table executes, rfl, rfl, rfl⟩

theorem Kept.quiet (live : (s.held ++ s.lent).Nodup)
    (holds : Holds s.kernel a s.held) (allowed : OwnAllowed s (.thread op)) (quiet : Quiet op) :
    ∃ s', ownStep board s (.thread op) = some s' ∧ Kept s' := by
  obtain ⟨after, b, executes, rep, ok⟩ := exec_follows board holds.rep holds.ok op (holds.allowed allowed)
  obtain ⟨table, taken, freed, hands⟩ := exec_quiet quiet executes
  refine ⟨_, ownStep_thread executes freed rfl, b, ?_, ?_⟩
  · rw [hands, taken]
    exact holds.quiet rep ok table
  · rw [hands, taken]
    exact live

theorem Sched.reapList_all {zs : List Addr} (members : ∀ z ∈ zs, z ∈ a.all) (distinct : zs.Nodup) :
    a.all.Perm (zs.takeWhile (· ≠ a.current) ++ (a.reapList zs).all) := by
  induction zs generalizing a with
  | nil => exact .refl _
  | cons z zs ih =>
    obtain ⟨absent, distinct⟩ := List.nodup_cons.mp distinct
    unfold Sched.reapList
    by_cases isCurrent : z = a.current
    · simp [isCurrent]
    · rw [if_neg isCurrent, List.takeWhile_cons_of_pos (by simpa using isCurrent)]
      have left : ∀ y ∈ zs, y ∈ (a.reapHead z zs).all := fun y member =>
        (List.mem_erase_of_ne fun same : y = z => absent (same ▸ member)).mpr
          (members y (List.mem_cons_of_mem _ member))
      have rest := ih left distinct
      exact (List.perm_cons_erase (members z List.mem_cons_self)).trans (rest.cons z)

theorem Holds.reaps (holds : Holds k a held) :
    ∃ after left, threadReapZombies k =
        some ((a.zombies.takeWhile (· ≠ a.current)).flatMap (fun z => blocksOf z k), after) ∧
      kfreeEach ((a.zombies.takeWhile (· ≠ a.current)).flatMap (fun z => blocksOf z k)) held = some left ∧
      Holds after a.reap left := by
  obtain ⟨after, reaps, rep, same⟩ := holds.rep.reap holds.ok
  have zombie : ∀ z ∈ a.zombies, z ∈ a.all ∧ k.isIdle z = false := fun z member => by
    obtain ⟨inAll, dead⟩ := (holds.ok.queues.mem_zombies z).mp member
    refine ⟨inAll, Bool.eq_false_iff.mpr fun idle => ?_⟩
    exact holds.ok.sleep.idle_live z inAll (holds.rep.idle ▸ idle) dead
  have taken : ∀ z ∈ a.zombies.takeWhile (· ≠ a.current), z ∈ a.zombies := fun z member =>
    (List.takeWhile_sublist _).subset member
  have all : a.all.Perm (a.zombies.takeWhile (· ≠ a.current) ++ a.reap.all) :=
    Sched.reapList_all (fun z member => (zombie z member).1) holds.ok.queues.zombies_nodup
  have freed : ((a.zombies.takeWhile (· ≠ a.current)).flatMap (fun z => blocksOf z k)).Perm
      (ownedBlocks k (a.zombies.takeWhile (· ≠ a.current))) := by
    unfold ownedBlocks
    rw [List.filter_eq_self.mpr fun z member => by simp [(zombie z (taken z member)).2]]
    refine List.Perm.flatMap_left _ fun z member => ?_
    obtain ⟨inAll, worker⟩ := zombie z (taken z member)
    exact blocksOf_perm (holds.kstack z inAll worker) (holds.userStack z inAll worker)
  have parts := holds.blocks.trans (ownedBlocks_perm k all)
  rw [ownedBlocks_append] at parts
  obtain ⟨left, frees, rest⟩ := kfreeEach_perm (parts.trans (freed.symm.append_right _))
  have older : ∀ t ∈ a.reap.all, t ∈ a.all := fun t member => all.mem_iff.mpr (List.mem_append_right _ member)
  refine ⟨after, left, reaps, frees, rep, holds.ok.reap, ?_, fun t member worker => ?_,
    fun t member worker user => ?_⟩
  · have blocks : threadBlocks after = threadBlocks k := by
      funext t
      simp only [threadBlocks, same.kind, same.kstackBase, same.userStackBase]
    simpa only [ownedBlocks, blocks, same.isIdle] using rest
  · rw [same.kstackBase]
    exact holds.kstack t (older t member) (same.isIdle ▸ worker)
  · rw [same.userStackBase]
    exact holds.userStack t (older t member) (same.isIdle ▸ worker) (same.kind ▸ user)

theorem Kept.reaps (live : (s.held ++ s.lent).Nodup)
    (holds : Holds s.kernel a s.held) : ∃ s', ownStep board s (.thread .reap) = some s' ∧ Kept s' := by
  obtain ⟨after, left, reaps, frees, now⟩ := holds.reaps
  have executes : exec board s.kernel .reap = some after := by simp [exec, reaps]
  have released : Thread.frees board s.kernel .reap = some
      ((a.zombies.takeWhile (· ≠ a.current)).flatMap (fun z => blocksOf z s.kernel)) := by
    simp [Thread.frees, reaps]
  refine ⟨_, ownStep_thread executes released frees, a.reap, now, ?_⟩
  exact live.sublist ((kfreeEach_sublist frees).append_right _)

theorem Kept.threadStep (board : Board) (kept : Kept s)
    (allowed : OwnAllowed s (.thread op)) : ∃ s', ownStep board s (.thread op) = some s' ∧ Kept s' := by
  obtain ⟨a, holds, live⟩ := kept
  cases op with
  | createKernel entry grants =>
    exact Kept.built live holds allowed (List.Subset.refl _) rfl rfl (by simp [handed]) (Or.inl rfl)
      (threadCreateKernel_built entry grants s.kernel)
  | createProcess entry stackBase stackTop grants =>
    exact Kept.built live holds allowed (List.Subset.refl _) rfl rfl rfl (Or.inr ⟨stackBase, allowed.2.2, rfl⟩)
      (userProcessCreate_built board entry stackBase stackTop grants s.kernel)
  | createUser entry arg returnPc stack grants =>
    exact Kept.built live holds allowed (List.subset_append_right _ _) rfl rfl (by simp [handed]) (Or.inl rfl)
      (threadCreateUser_built board entry arg returnPc stack grants s.kernel)
  | fork parentTc stack grants mem =>
    have fresh := (holds.allowed allowed : Grants.Fresh grants s.kernel).forSched holds.rep
    obtain ⟨out, forks, -⟩ := holds.rep.fork holds.ok fresh board parentTc stack mem
    exact Kept.built live holds allowed (List.subset_append_right _ _) (by simp [exec, forks])
      (by simp [Thread.frees, forks]) (by simp [handed]) (Or.inl rfl) (sysFork_built forks)
  | reap => exact Kept.reaps live holds
  | schedule | yield | prepare | wait | finish | sleep | wakeOne | wakeAll | stopTid | stopProcess
  | markCurrentZombie => exact Kept.quiet live holds allowed trivial

theorem Rep.someThreadFrom (rep : Rep k a) (p : Addr → Bool) {l r : List Addr}
    (all : a.all = l ++ r) (fuel : Nat) (enough : r.length < fuel) :
    someThreadFrom p k fuel r.head? = some (r.any p) := by
  induction fuel, r, enough using walk_induction generalizing l with
  | nil fuel => rfl
  | cons fuel t r _ ih =>
    have stack := rep.all
    rw [all] at stack
    rw [List.head?_cons, List.any_cons]
    unfold Thread.someThreadFrom
    split
    next found => rw [found, Bool.true_or]
    next other =>
      rw [Bool.not_eq_true] at other
      rw [stack.next_eq, other, Bool.false_or]
      exact ih (l := l ++ [t]) (by simpa using all)

theorem Rep.someThread (rep : Rep k a) (p : Addr → Bool) :
    Thread.someThreadFrom p k walkLimit k.allThreads = some (a.all.any p) := by
  rw [rep.all.first]
  exact rep.someThreadFrom p (l := []) rfl walkLimit (length_lt_walkLimit rep.all.nodup)

theorem Rep.imageBusy (rep : Rep k a) (except : Option Addr) :
    threadUserImageBusy except k =
      some (a.all.any fun t => some t ≠ except ∧ a.kind t = .user ∧ a.state t ≠ .zombie) := by
  rw [threadUserImageBusy, rep.someThread, rep.kind, rep.state]

section Exec

variable {boot : BootInfo} {fuel : Nat} {mem : Mem}

theorem Rep.loads (rep : Rep k a) (board : Board) (searched : Searched boot fuel mem) (name : Text) :
    ∃ image mem', execLoadImage board boot fuel name mem k = some (image, mem') := by
  obtain ⟨program, finds⟩ := searched name
  unfold execLoadImage
  rw [finds]
  cases program with
  | none => exact ⟨none, mem, rfl⟩
  | some file =>
    simp only [Option.bind_eq_bind, Option.bind_some, rep.imageBusy]
    split <;> exact ⟨_, _, rfl⟩

theorem Rep.rangeOk (rep : Rep k a) (board : Board) (task : Addr) (addr count : UInt64)
    (writable : Bool) : ∃ ok, userRangeOk board task addr count writable k = some ok := by
  unfold userRangeOk
  split
  · exact ⟨true, rfl⟩
  · split
    · exact ⟨false, rfl⟩
    · dsimp only
      split
      · exact ⟨false, rfl⟩
      · have contains : ∃ inStack, threadUserStackContains task addr (addr + count) k = some inStack := by
          unfold threadUserStackContains
          split
          · exact ⟨_, rep.someThread _⟩
          · exact ⟨false, rfl⟩
        obtain ⟨inStack, scanned⟩ := contains
        simp only [scanned, Option.bind_eq_bind, Option.bind_some]
        split <;> exact ⟨_, rfl⟩

theorem Rep.readName (rep : Rep k a) (board : Board) (task : Addr) (path : UInt64) (mem : Mem)
    (left : Nat) (name : Text) : ∃ read, readName board task path mem k left name = some read := by
  induction left generalizing name with
  | zero => exact ⟨none, rfl⟩
  | succ left ih =>
    unfold Thread.readName
    obtain ⟨ok, checked⟩ := rep.rangeOk board task (path + UInt64.ofNat name.chars.length) 1 false
    simp only [checked, Option.bind_eq_bind, Option.bind_some]
    split
    · exact ⟨none, rfl⟩
    · split
      · exact ⟨some name, rfl⟩
      · exact ih _

theorem Rep.sysExec (rep : Rep k a) (board : Board) (searched : Searched boot fuel mem) (path : UInt64) (frame : Addr) :
    ∃ ret mem' after, sysExec board boot fuel path frame mem k = some (ret, mem', after) := by
  unfold Thread.sysExec
  split
  next task tc current framed =>
    split
    · exact ⟨_, _, _, rfl⟩
    · have user := (currentUserTask_eq current).2
      rw [rep.kind] at user
      simp only [rep.groupSize user, Option.bind_eq_bind, Option.bind_some]
      split
      · exact ⟨_, _, _, rfl⟩
      · obtain ⟨read, reads⟩ := rep.readName board task path mem 63 ⟨[], List.not_mem_nil⟩
        simp only [reads, Option.bind_some]
        cases read with
        | none => exact ⟨_, _, _, rfl⟩
        | some name =>
          dsimp only
          split
          · exact ⟨_, _, _, rfl⟩
          · obtain ⟨image, mem', loads⟩ := rep.loads board searched name
            simp only [loads, Option.bind_some]
            cases image with
            | none => exact ⟨_, _, _, rfl⟩
            | some image => exact ⟨_, _, _, rfl⟩
  · exact ⟨_, _, _, rfl⟩

theorem Rep.recontext (rep : Rep k a) (tc : Addr → Option TrapContext)
    (userEntry : Addr → UInt64) : Rep { k with tc := tc, userEntry := userEntry } a :=
  { rep with }

theorem Rep.executed {path : UInt64} {frame : Addr} {mem' : Mem} {after : Kernel} (rep : Rep k a)
    (runs : Thread.sysExec board boot fuel path frame mem k = some (ret, mem', after)) :
    Rep after a := by
  obtain ⟨-, -, rfl⟩ | ⟨-, -, task, tc, -, -, rfl⟩ := sysExec_cases runs
  · exact rep
  · obtain ⟨reset, shape⟩ := userResetTrapContext_shape task { k with
      userEntry := update k.userEntry task (UInt64.ofNat (userCodeBase board)) }
    rw [shape]
    exact rep.recontext _ _

end Exec

theorem Kept.step (board : Board) (kept : Kept s) {op : OwnOp} (allowed : OwnAllowed s op) :
    ∃ s', ownStep board s op = some s' ∧ Kept s' := by
  cases op with
  | thread op => exact kept.threadStep board allowed
  | exec boot fuel path frame mem =>
    obtain ⟨a, holds, live⟩ := kept
    obtain ⟨ret, mem', after, runs⟩ := holds.rep.sysExec board allowed path frame
    refine ⟨{ s with kernel := after }, by simp [ownStep, runs], a, ?_, live⟩
    exact holds.quiet (holds.rep.executed runs) holds.ok (sysExec_table runs)
  | lend stack =>
    obtain ⟨a, holds, live⟩ := kept
    refine ⟨_, rfl, ?_⟩
    by_cases failed : stack = 0
    · rw [if_pos failed]
      exact ⟨a, holds, live⟩
    · rw [if_neg failed]
      refine ⟨a, holds, ?_⟩
      exact List.nodup_middle.mpr (List.nodup_cons.mpr ⟨allowed.resolve_left failed, live⟩)
  | giveBack stack =>
    obtain ⟨a, holds, live⟩ := kept
    have owned : stack ∈ s.lent := allowed
    refine ⟨{ s with lent := s.lent.erase stack }, by simp [ownStep, kfreeEach, owned], a, holds, ?_⟩
    exact live.sublist (List.erase_sublist.append_left _)

theorem ledgerStart_kept (bootIdle : Addr) : Kept (ledgerStart bootIdle) := by
  refine ⟨schedStart bootIdle, ⟨schedStart_rep bootIdle, schedStart_ok bootIdle, ?_, fun t member worker => ?_,
    fun t member worker => ?_⟩, List.nodup_nil⟩
  · simp [ledgerStart, schedStart, ownedBlocks, threadSystemBootstrapInit, kernelStart, threadRegisterBoot,
      threadListAdd, Kernel.setAllNext]
  · obtain rfl : t = bootIdle := by simpa [schedStart] using member
    simp [ledgerStart, threadSystemBootstrapInit, kernelStart, threadRegisterBoot, threadListAdd,
      Kernel.setAllNext] at worker
  · obtain rfl : t = bootIdle := by simpa [schedStart] using member
    simp [ledgerStart, threadSystemBootstrapInit, kernelStart, threadRegisterBoot, threadListAdd,
      Kernel.setAllNext] at worker

variable {bootIdle : Addr}

theorem OwnRun.kept (run : OwnRun board bootIdle s) : Kept s := by
  induction run with
  | boot => exact ledgerStart_kept bootIdle
  | step op _ allowed result ih =>
    obtain ⟨s', steps, kept⟩ := ih.step board allowed
    obtain rfl := Option.some.inj (steps.symm.trans result)
    exact kept

theorem OwnRun.next (run : OwnRun board bootIdle s) {op : OwnOp}
    (allowed : OwnAllowed s op) : ∃ s', ownStep board s op = some s' ∧ OwnRun board bootIdle s' := by
  obtain ⟨s', steps, -⟩ := run.kept.step board allowed
  exact ⟨s', steps, run.step op allowed steps⟩

theorem OwnRun.live (run : OwnRun board bootIdle s) :
    (s.held ++ s.lent).Nodup := by
  obtain ⟨-, -, live⟩ := run.kept
  exact live

theorem spawnFail_run (tids : List Int)
    (run : OwnRun board bootIdle s) : ∃ s', spawnFail board tids s = some s' ∧ OwnRun board bootIdle s' := by
  induction tids generalizing s with
  | nil => exact run.next ⟨run.live, by simp [offered], trivial⟩
  | cons tid tids ih =>
    have allowed : OwnAllowed s (.thread (.stopTid tid (-1))) := ⟨run.live, by simp [offered], trivial⟩
    obtain ⟨stopped, steps, after⟩ := run.next allowed
    obtain ⟨s', rest, final⟩ := ih after
    exact ⟨s', by simp [spawnFail, steps, rest], final⟩

theorem spawnFrom_run {entry : UInt64} (answers : List (UInt64 × Grants))
    (tids : List Int) (run : OwnRun board bootIdle s) (allowed : SpawnAllowed board entry answers s) :
    ∃ ret s', spawnFrom board entry answers tids s = some (ret, s') ∧ OwnRun board bootIdle s' := by
  induction answers generalizing tids s with
  | nil => exact ⟨0, s, rfl, run⟩
  | cons answer rest ih =>
    obtain ⟨stack, grants⟩ := answer
    unfold spawnFrom
    by_cases failed : stack = 0
    · obtain ⟨s', fails, final⟩ := spawnFail_run tids run
      exact ⟨-1, s', by simp [failed, fails], final⟩
    · obtain ⟨lends, allowed⟩ := allowed.resolve_left failed
      obtain ⟨lent, lendSteps, afterLend⟩ := run.next lends
      obtain ⟨creates, allowed⟩ := allowed lent lendSteps
      obtain ⟨created, createSteps, afterCreate⟩ := afterLend.next creates
      simp only [if_neg failed, lendSteps, createSteps, Option.bind_eq_bind, Option.bind_some]
      split
      next refused =>
        -- the stack is still on the caller's side
        have owned : OwnAllowed created (.giveBack stack) := by
          have side : lent.lent = stack :: s.lent := by
            simp only [ownStep, if_neg failed, Option.some.injEq] at lendSteps
            exact lendSteps ▸ rfl
          change stack ∈ created.lent
          rw [ownStep_lent createSteps]
          simp [handed, refused, side]
        obtain ⟨returned, returnSteps, afterReturn⟩ := afterCreate.next owned
        obtain ⟨s', fails, final⟩ := spawnFail_run tids afterReturn
        exact ⟨-1, s', by simp [returnSteps, fails], final⟩
      next made => exact ih _ afterCreate (allowed created createSteps (by omega))

theorem execSpawn_run (run : OwnRun board bootIdle s) {boot : BootInfo} {fuel : Nat} {mem : Mem}
    (searched : Searched boot fuel mem) (name : Text) {answers : List (UInt64 × Grants)}
    (allowed : SpawnAllowed board (UInt64.ofNat (userCodeBase board)) answers s) :
    ∃ ret s', execSpawn board boot fuel name answers mem s = some (ret, s') ∧ OwnRun board bootIdle s' := by
  obtain ⟨a, holds, -⟩ := run.kept
  unfold execSpawn
  split
  · exact ⟨-1, s, rfl, run⟩
  · obtain ⟨image, mem', loads⟩ := holds.rep.loads board searched name
    rw [loads]
    obtain ⟨rfl, -⟩ | ⟨size, rfl, -⟩ := execLoadImage_cases loads
    · exact ⟨-1, s, rfl, run⟩
    · have started : threadSystemBootstrapInit s.kernel = s.kernel := by
        simp [threadSystemBootstrapInit, holds.rep.current]
      simp only [Option.bind_eq_bind, Option.bind_some, started]
      exact spawnFrom_run answers [] run allowed

def released (board : Board) (s : Ledger) : OwnOp → List UInt64
  | .thread op => (frees board s.kernel op).getD []
  | .giveBack stack => [stack]
  | _ => []

structure Reapable (k : Kernel) (run all : List Addr) (z : Addr) : Prop where
  member : z ∈ all
  worker : k.isIdle z = false
  zombie : k.state z = .zombie
  notCurrent : k.current ≠ some z
  notQueued : z ∉ run
  unregistered : k.waitEntries z = none
  unlinked : ∀ e, k.task e ≠ some z

def RightlyFreed (board : Board) (s : Ledger) (run all : List Addr) (block : UInt64) : OwnOp → Prop
  | .thread .reap => ∃ z, Reapable s.kernel run all z ∧ block ∈ threadBlocks s.kernel z
  | .thread op => createRet board s.kernel op = some (-1) ∧ block ∈ takes board s.kernel op
  | .giveBack stack => block = stack ∧ block ∈ s.lent
  | _ => False

theorem Holds.reapable (holds : Holds k a held) {z : Addr}
    (member : z ∈ a.zombies.takeWhile (· ≠ a.current)) : Reapable k a.run a.all z := by
  have lists := holds.rep.invariant holds.ok
  obtain ⟨inAll, dead⟩ := (lists.mem_zombies z).mp ((List.takeWhile_sublist _).subset member)
  obtain ⟨unregistered, unlinked⟩ := lists.zombie_unlinked z inAll dead
  refine ⟨inAll, Bool.eq_false_iff.mpr fun idle => ?_, dead, fun current => ?_, fun queued => ?_, unregistered,
    unlinked⟩
  · exact holds.ok.sleep.idle_live z inAll (holds.rep.idle ▸ idle) (holds.rep.state ▸ dead)
  · have away := List.mem_takeWhile_imp member
    simp [(holds.rep.isCurrent z).mp current] at away
  · simp [((lists.mem_run z).mp queued).2.2] at dead

theorem Built.rightly {taken : List UInt64} (built : Built k k' grants ret taken given freed) {block : UInt64}
    (member : block ∈ freed) :
    ret = -1 ∧ block ∈ taken := by
  cases built with
  | failed returns undone all => exact ⟨returns, all.mem_iff.mp member⟩
  | made t returns task others link first worker kstack userStack blocks none => simp [none] at member

theorem Holds.rightly (board : Board) (holds : Holds s.kernel a s.held) {op : OwnOp}
    (allowed : OwnAllowed s op) {block : UInt64} (member : block ∈ released board s op) :
    RightlyFreed board s a.run a.all block op := by
  cases op with
  | exec | lend => simp [released] at member
  | giveBack stack =>
    obtain rfl : block = stack := by simpa [released] using member
    exact ⟨rfl, allowed⟩
  | thread op =>
    cases op with
    | createKernel entry grants =>
      obtain ⟨returns, taken⟩ := (threadCreateKernel_built entry grants s.kernel).rightly member
      exact ⟨congrArg some returns, taken⟩
    | createProcess entry stackBase stackTop grants =>
      obtain ⟨returns, taken⟩ :=
        (userProcessCreate_built board entry stackBase stackTop grants s.kernel).rightly member
      exact ⟨congrArg some returns, taken⟩
    | createUser entry arg returnPc stack grants =>
      obtain ⟨returns, taken⟩ :=
        (threadCreateUser_built board entry arg returnPc stack grants s.kernel).rightly member
      exact ⟨congrArg some returns, taken⟩
    | fork parentTc stack grants mem =>
      cases forks : sysFork board parentTc stack grants mem s.kernel with
      | none => simp [released, frees, forks] at member
      | some out =>
        have freed : block ∈ out.freed := by simpa [released, frees, forks] using member
        obtain ⟨returns, taken⟩ := (sysFork_built forks).rightly freed
        exact ⟨by simp [createRet, forks, returns], taken⟩
    | reap =>
      obtain ⟨after, left, reaps, -, -⟩ := holds.reaps
      simp only [released, frees, reaps, Option.map_some, Option.getD_some, List.mem_flatMap] at member
      obtain ⟨z, reaped, inBlocks⟩ := member
      have reapable := holds.reapable reaped
      refine ⟨z, reapable, ?_⟩
      exact (blocksOf_perm (holds.kstack z reapable.member reapable.worker)
        (holds.userStack z reapable.member reapable.worker)).mem_iff.mp inBlocks
    | schedule | yield | prepare | wait | finish | sleep | wakeOne | wakeAll | stopTid | stopProcess
    | markCurrentZombie => simp [released, frees] at member

structure Owned (s : Ledger) (run zombies all : List Addr) : Prop where
  lists : ListsOk s.kernel run zombies all
  blocks : s.held.Perm (ownedBlocks s.kernel all)
  distinct : (s.held ++ s.lent).Nodup

theorem Holds.owned (holds : Holds s.kernel a s.held) (live : (s.held ++ s.lent).Nodup) :
    Owned s a.run a.zombies a.all :=
  ⟨holds.rep.invariant holds.ok, holds.blocks, live⟩

def sampleProcess : ThreadOp :=
  .createProcess (UInt64.ofNat (userCodeBase .qemu)) 0x80310000 0x80320000 ⟨some 0x80300000, 0x80304000⟩

def sampleLent : Ledger := { ledgerStart 0x80200000 with lent := [0x80310000] }

theorem ownRun_exact {board : Board} {bootIdle : Addr} {s : Ledger} (run : OwnRun board bootIdle s) :
    ∃ runnable zombies all, Owned s runnable zombies all ∧
      (∀ op, OwnAllowed s op →
        (∃ s' runnable' zombies' all', ownStep board s op = some s' ∧ Owned s' runnable' zombies' all') ∧
        ∀ block ∈ released board s op, RightlyFreed board s runnable all block op) ∧
      ∀ boot mem, ∃ bound, ∀ fuel, bound ≤ fuel →
        (∀ path frame, OwnAllowed s (.exec boot fuel path frame mem)) ∧
        ∀ name answers, SpawnAllowed board (UInt64.ofNat (userCodeBase board)) answers s →
          ∃ ret s', execSpawn board boot fuel name answers mem s = some (ret, s') ∧ OwnRun board bootIdle s' := by
  obtain ⟨a, holds, live⟩ := run.kept
  refine ⟨a.run, a.zombies, a.all, holds.owned live, fun op allowed => ⟨?_, fun block member => ?_⟩,
    fun boot mem => ?_⟩
  · obtain ⟨s', steps, b, now, distinct⟩ := run.kept.step board allowed
    exact ⟨s', b.run, b.zombies, b.all, steps, now.owned distinct⟩
  · exact holds.rightly board allowed member
  · obtain ⟨bound, searched⟩ := searched_of_le boot mem
    refine ⟨bound, fun fuel enough => ⟨fun _ _ => searched fuel enough, fun name answers allowed => ?_⟩⟩
    exact execSpawn_run run (searched fuel enough) name allowed

theorem ownRun_exact_firstProcess :
    OwnRun .qemu 0x80200000 sampleLent ∧ OwnAllowed sampleLent (.thread sampleProcess) ∧
      ∃ s' runnable zombies all, ownStep .qemu sampleLent (.thread sampleProcess) = some s' ∧
        s'.held = [0x80310000, 0x80300000, 0x80304000] ∧ s'.lent = [] ∧ Owned s' runnable zombies all := by
  have run : OwnRun .qemu 0x80200000 sampleLent := .step (.lend 0x80310000) .boot (Or.inr (by decide)) rfl
  have allowed : OwnAllowed sampleLent (.thread sampleProcess) :=
    ⟨by decide, by decide, List.mem_singleton.mpr rfl⟩
  obtain ⟨_, _, _, -, onward, -⟩ := ownRun_exact run
  obtain ⟨⟨s', runnable, zombies, all, steps, owned⟩, -⟩ := onward _ allowed
  have blocks : (ownStep .qemu sampleLent (.thread sampleProcess)).map (fun s => (s.held, s.lent)) =
      some ([0x80310000, 0x80300000, 0x80304000], []) := by decide +kernel
  rw [steps] at blocks
  obtain ⟨held, lent⟩ := Prod.mk.inj (Option.some.inj blocks)
  exact ⟨run, allowed, s', runnable, zombies, all, steps, held, lent, owned⟩

end OrangeKernel.Thread
