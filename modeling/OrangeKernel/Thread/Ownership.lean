import OrangeKernel.Thread.Table

set_option autoImplicit false

namespace OrangeKernel.Thread

open Intrusive Memory

theorem kfreeEach_perm {freed live rest : List UInt64} (parts : live.Perm (freed ++ rest)) :
    ∃ left, kfreeEach freed live = some left ∧ left.Perm rest := by
  induction freed generalizing live with
  | nil => exact ⟨live, rfl, parts⟩
  | cons block freed ih =>
    have member : block ∈ live := parts.mem_iff.mpr (by simp)
    have erased : (live.erase block).Perm (freed ++ rest) := by simpa using parts.erase block
    obtain ⟨left, frees, same⟩ := ih erased
    exact ⟨left, by simp [kfreeEach, member, frees], same⟩

theorem kfreeEach_sublist {freed live left : List UInt64} (frees : kfreeEach freed live = some left) :
    left.Sublist live := by
  induction freed generalizing live with
  | nil => exact Option.some.inj frees ▸ .refl _
  | cons block freed ih =>
    unfold kfreeEach at frees
    split at frees
    · exact (ih frees).trans List.erase_sublist
    · simp at frees

def threadBlocks (k : Kernel) (t : Addr) : List UInt64 :=
  [t, k.kstackBase t] ++ if k.kind t = .user then [k.userStackBase t] else []

def ownedBlocks (k : Kernel) (all : List Addr) : List UInt64 :=
  (all.filter fun t => !k.isIdle t).flatMap (threadBlocks k)

structure Holds (k : Kernel) (a : Sched) (held : List UInt64) : Prop where
  rep : Rep k a
  ok : SchedOk a
  blocks : held.Perm (ownedBlocks k a.all)
  kstack : ∀ t ∈ a.all, k.isIdle t = false → k.kstackBase t ≠ 0
  userStack : ∀ t ∈ a.all, k.isIdle t = false → k.kind t = .user → k.userStackBase t ≠ 0

variable {k : Kernel} {t : Addr}

theorem mem_ownedBlocks {all : List Addr} (member : t ∈ all) (worker : k.isIdle t = false) :
    t ∈ ownedBlocks k all := by
  refine List.mem_flatMap.mpr ⟨t, by simp [member, worker], ?_⟩
  simp [threadBlocks]

theorem ownedBlocks_perm (k : Kernel) {xs ys : List Addr} (same : xs.Perm ys) :
    (ownedBlocks k xs).Perm (ownedBlocks k ys) :=
  (same.filter _).flatMap_right _

theorem ownedBlocks_append (k : Kernel) (xs ys : List Addr) :
    ownedBlocks k (xs ++ ys) = ownedBlocks k xs ++ ownedBlocks k ys := by
  simp [ownedBlocks]

theorem blocksOf_perm (kstack : k.kstackBase t ≠ 0)
    (userStack : k.kind t = .user → k.userStackBase t ≠ 0) : (blocksOf t k).Perm (threadBlocks k t) := by
  unfold blocksOf threadBlocks
  by_cases user : k.kind t = .user
  · rw [if_pos ⟨user, userStack user⟩, if_pos kstack, if_pos user]
    exact List.reverse_perm [t, k.kstackBase t, k.userStackBase t]
  · rw [if_neg (fun both => user both.1), if_pos kstack, if_neg user]
    exact List.reverse_perm [t, k.kstackBase t]

def AgreeAt (u : Addr) (k k' : Kernel) : Prop :=
  k'.kind u = k.kind u ∧ k'.isIdle u = k.isIdle u ∧ k'.kstackBase u = k.kstackBase u ∧
    k'.userStackBase u = k.userStackBase u ∧ k'.allNext u = k.allNext u

variable {k' : Kernel}

theorem AgreeAt.threadBlocks {u : Addr} (agree : AgreeAt u k k') :
    threadBlocks k' u = threadBlocks k u := by
  obtain ⟨kind, -, kstack, userStack, -⟩ := agree
  simp only [Thread.threadBlocks, kind, kstack, userStack]

theorem ownedBlocks_congr {all : List Addr} (agree : ∀ u ∈ all, AgreeAt u k k') :
    ownedBlocks k' all = ownedBlocks k all := by
  induction all with
  | nil => rfl
  | cons u all ih =>
    have here := agree u List.mem_cons_self
    have rest := ih fun v member => agree v (List.mem_cons_of_mem _ member)
    have idle : k'.isIdle u = k.isIdle u := here.2.1
    unfold ownedBlocks at rest ⊢
    cases isIdle : k.isIdle u <;> simp [idle, isIdle, here.threadBlocks, rest]

theorem Holds.kept {a b : Sched} {held : List UInt64} (holds : Holds k a held) (rep : Rep k' b)
    (ok : SchedOk b) (all : b.all = a.all) (agree : ∀ u ∈ a.all, AgreeAt u k k') : Holds k' b held := by
  refine ⟨rep, ok, ?_, fun t member worker => ?_, fun t member worker user => ?_⟩
  · rw [all, ownedBlocks_congr agree]
    exact holds.blocks
  · obtain ⟨-, idle, kstack, -, -⟩ := agree t (all ▸ member)
    rw [kstack]
    exact holds.kstack t (all ▸ member) (idle ▸ worker)
  · obtain ⟨kind, idle, -, userStack, -⟩ := agree t (all ▸ member)
    rw [userStack]
    exact holds.userStack t (all ▸ member) (idle ▸ worker) (kind ▸ user)

theorem Holds.quiet {a b : Sched} {held : List UInt64} (holds : Holds k a held) (rep : Rep k' b)
    (ok : SchedOk b) (table : SameTable k k') : Holds k' b held := by
  have stack : Stack k'.allNext k'.allThreads a.all := by
    rw [table.allNext, table.allThreads]
    exact holds.rep.all
  refine holds.kept rep ok (rep.all.unique stack) fun u _ => ?_
  exact ⟨by rw [table.kind], by rw [table.isIdle], by rw [table.kstackBase], by rw [table.userStackBase],
    by rw [table.allNext]⟩

structure Undone (k k' : Kernel) (grants : Grants) : Prop where
  others : ∀ u, grants.task ≠ some u → AgreeAt u k k'
  first : k'.allThreads = k.allThreads

structure Dressed (k k' : Kernel) (grants : Grants) (t : Addr) : Prop where
  task : grants.task = some t
  others : ∀ u, u ≠ t → AgreeAt u k k'
  first : k'.allThreads = k.allThreads
  new : k'.state t = .new
  worker : k'.isIdle t = false
  kstack : k'.kstackBase t = grants.kstack
  granted : grants.kstack ≠ 0
  tid : 0 ≤ k'.tid t

theorem Undone.refl (k : Kernel) (grants : Grants) : Undone k k grants :=
  ⟨fun _ _ => ⟨rfl, rfl, rfl, rfl, rfl⟩, rfl⟩

theorem clearThread_others (t : Addr) (k : Kernel) {u : Addr} (other : u ≠ t) : AgreeAt u k (clearThread t k) := by
  simp [AgreeAt, clearThread, other]

theorem threadNextTid_agree (k : Kernel) (u : Addr) : AgreeAt u k (threadNextTid k).2 := by
  unfold threadNextTid
  split <;> exact ⟨rfl, rfl, rfl, rfl, rfl⟩

theorem threadNextTid_first (k : Kernel) : (threadNextTid k).2.allThreads = k.allThreads := by
  unfold threadNextTid
  split <;> rfl

theorem AgreeAt.trans {u : Addr} {l m : Kernel} (first : AgreeAt u k l) (second : AgreeAt u l m) : AgreeAt u k m :=
  ⟨second.1.trans first.1, second.2.1.trans first.2.1, second.2.2.1.trans first.2.2.1,
    second.2.2.2.1.trans first.2.2.2.1, second.2.2.2.2.trans first.2.2.2.2⟩

theorem threadAlloc_blocks (grants : Grants) (k : Kernel) :
    (∃ after, threadAlloc grants k = (none, threadAllocTakes grants k, after) ∧ Undone k after grants) ∨
      ∃ t after, threadAlloc grants k = (some t, [], after) ∧ threadAllocTakes grants k = [t, grants.kstack] ∧
        Dressed k after grants t ∧ after.tgid t = after.tid t ∧ after.kind t = .kernel := by
  have agree := threadNextTid_agree k
  have first := threadNextTid_first k
  unfold threadAlloc threadAllocTakes
  generalize threadNextTid k = numbered at agree first ⊢
  obtain ⟨tid, numbered⟩ := numbered
  dsimp only at agree first ⊢
  by_cases exhausted : tid < 0
  · rw [if_pos exhausted, if_pos exhausted]
    exact Or.inl ⟨numbered, rfl, fun u _ => agree u, first⟩
  · rw [if_neg exhausted, if_neg exhausted]
    cases task : grants.task with
    | none => exact Or.inl ⟨numbered, rfl, fun u _ => agree u, first⟩
    | some t =>
      dsimp only
      by_cases noStack : grants.kstack = 0
      · rw [if_pos noStack, if_pos noStack]
        refine Or.inl ⟨_, rfl, fun u other => ?_, first⟩
        exact (agree u).trans (clearThread_others t numbered fun same => other (task.trans (same ▸ rfl)))
      · rw [if_neg noStack, if_neg noStack]
        refine Or.inr ⟨t, _, rfl, rfl, ⟨task, fun u other => ?_, first, by simp, by simp [clearThread], by simp,
          noStack, ?_⟩, by simp, by simp [clearThread]⟩
        · refine (agree u).trans ?_
          simp [AgreeAt, clearThread, other]
        · simpa using exhausted

theorem threadPrepareUser_blocks (board : Board) (entry stackBase stackTop : UInt64) (grants : Grants) (k : Kernel) :
    (∃ after, threadPrepareUser board entry stackBase stackTop grants k =
        (none, threadPrepareUserTakes board entry stackBase stackTop grants k, after) ∧ Undone k after grants) ∨
      ∃ t after, threadPrepareUser board entry stackBase stackTop grants k = (some t, [], after) ∧
        threadPrepareUserTakes board entry stackBase stackTop grants k = [t, grants.kstack] ∧
        Dressed k after grants t ∧ after.tgid t = after.tid t ∧ after.kind t = .user ∧
        after.userStackBase t = stackBase ∧ stackBase ≠ 0 := by
  unfold threadPrepareUser threadPrepareUserTakes
  split
  · exact Or.inl ⟨k, rfl, Undone.refl k grants⟩
  next good =>
    have based : stackBase ≠ 0 := fun null => good (by simp [null])
    obtain ⟨after, allocs, undone⟩ | ⟨t, after, allocs, taken, dressed, leader, -⟩ :=
      threadAlloc_blocks grants k
    · rw [allocs]
      exact Or.inl ⟨after, rfl, undone⟩
    · rw [allocs]
      refine Or.inr ⟨t, _, rfl, taken, ?_, leader, by simp, by simp, based⟩
      refine { dressed with others := fun u other => (dressed.others u other).trans ?_ }
      simp [AgreeAt, other]

inductive Built (k k' : Kernel) (grants : Grants) (ret : Int) (taken given freed : List UInt64) : Prop where
  | failed (returns : ret = -1) (undone : Undone k k' grants) (all : freed.Perm taken)
  | made (t : Addr) (returns : 0 ≤ ret) (task : grants.task = some t) (others : ∀ u, u ≠ t → AgreeAt u k k')
      (link : k'.allNext t = k.allThreads) (first : k'.allThreads = some t) (worker : k'.isIdle t = false)
      (kstack : k'.kstackBase t ≠ 0) (userStack : k'.kind t = .user → k'.userStackBase t ≠ 0)
      (blocks : (taken ++ given).Perm (threadBlocks k' t)) (none : freed = [])

theorem threadPublish_table (new : k.state t = .new) :
    SameTable (threadListAdd t k) (threadPublish t k) := by
  unfold threadPublish
  rw [if_pos new]
  exact .of_records (schedEnqueue_records t (threadListAdd t (k.setState t .runnable)))

variable {grants : Grants}

theorem Dressed.published {ready : Kernel} (dressed : Dressed k ready grants t)
    {ret : Int} (returns : 0 ≤ ret) {taken given : List UInt64}
    (blocks : (taken ++ given).Perm (threadBlocks ready t))
    (userStack : ready.kind t = .user → ready.userStackBase t ≠ 0) :
    Built k (threadPublish t ready) grants ret taken given [] := by
  have table := threadPublish_table dressed.new
  have kind : (threadPublish t ready).kind = ready.kind := table.kind
  have kstack : (threadPublish t ready).kstackBase = ready.kstackBase := table.kstackBase
  have user : (threadPublish t ready).userStackBase = ready.userStackBase := table.userStackBase
  refine .made t returns dressed.task (fun u other => (dressed.others u other).trans ?_) ?_ table.allThreads ?_ ?_ ?_ ?_
    rfl
  · refine ⟨by rw [kind], by rw [table.isIdle]; rfl, by rw [kstack], by rw [user], ?_⟩
    rw [table.allNext]
    simp [threadListAdd, Kernel.setAllNext, other]
  · rw [table.allNext, ← dressed.first]
    simp [threadListAdd, Kernel.setAllNext]
  · rw [table.isIdle]
    exact dressed.worker
  · rw [kstack, dressed.kstack]
    exact dressed.granted
  · rw [kind, user]
    exact userStack
  · simpa only [threadBlocks, kind, kstack, user] using blocks

theorem Dressed.regroup {ready : Kernel} (dressed : Dressed k ready grants t)
    (tgid : Addr → Int) (tc : Addr → Option TrapContext) :
    Dressed k { ready with tgid := tgid, tc := tc } grants t :=
  ⟨dressed.task, dressed.others, dressed.first, dressed.new, dressed.worker, dressed.kstack, dressed.granted,
    dressed.tid⟩

theorem threadCreateKernel_built (entry : UInt64) (grants : Grants) (k : Kernel) :
    Built k (threadCreateKernel entry grants k).kernel grants (threadCreateKernel entry grants k).ret
      (if entry = 0 then [] else threadAllocTakes grants k) [] (threadCreateKernel entry grants k).freed := by
  unfold threadCreateKernel
  by_cases null : entry = 0
  · rw [if_pos null, if_pos null]
    exact .failed rfl (Undone.refl k grants) (.refl _)
  · rw [if_neg null, if_neg null]
    obtain ⟨after, allocs, undone⟩ | ⟨t, after, allocs, taken, dressed, -, kernelThread⟩ :=
      threadAlloc_blocks grants k
    · rw [allocs]
      exact .failed rfl undone (.refl _)
    · rw [allocs, taken]
      have same : Function.update after.kind t .kernel = after.kind := by
        rw [← kernelThread, Function.update_eq_self]
      dsimp only
      rw [same]
      refine dressed.published ?_ ?_ ?_
      · rw [(threadPublish_ids t _).1]
        exact dressed.tid
      · simp [threadBlocks, kernelThread, dressed.kstack]
      · simp [kernelThread]

theorem userProcessCreate_built (board : Board) (entry stackBase stackTop : UInt64) (grants : Grants) (k : Kernel) :
    Built k (userProcessCreate board entry stackBase stackTop grants k).kernel grants
      (userProcessCreate board entry stackBase stackTop grants k).ret
      (threadPrepareUserTakes board entry stackBase stackTop grants k) [stackBase]
      (userProcessCreate board entry stackBase stackTop grants k).freed := by
  unfold userProcessCreate
  obtain ⟨after, prepares, undone⟩ | ⟨t, after, prepares, taken, dressed, -, user, base, based⟩ :=
    threadPrepareUser_blocks board entry stackBase stackTop grants k
  · rw [prepares]
    exact .failed rfl undone (.refl _)
  · rw [prepares, taken]
    dsimp only
    refine dressed.published ?_ ?_ ?_
    · rw [(threadPublish_ids t _).1]
      exact dressed.tid
    · simp [threadBlocks, user, base, dressed.kstack]
    · exact fun _ => base ▸ based

theorem threadBlocks_user {stack kstack : UInt64} (user : k.kind t = .user)
    (base : k.userStackBase t = stack) (kbase : k.kstackBase t = kstack) :
    ([stack, t, kstack] ++ []).Perm (threadBlocks k t) := by
  simp only [threadBlocks, user, base, kbase, List.append_nil]
  exact (List.perm_append_comm : ([stack] ++ [t, kstack]).Perm ([t, kstack] ++ [stack]))

theorem threadCreateUser_built (board : Board) (entry arg returnPc stack : UInt64) (grants : Grants) (k : Kernel) :
    Built k (threadCreateUser board entry arg returnPc stack grants k).kernel grants
      (threadCreateUser board entry arg returnPc stack grants k).ret
      (threadCreateUserTakes board entry returnPc stack grants k) []
      (threadCreateUser board entry arg returnPc stack grants k).freed := by
  unfold threadCreateUser threadCreateUserTakes
  cases threadCurrent k with
  | none => exact .failed rfl (Undone.refl k grants) (.refl _)
  | some parent =>
    dsimp only
    cases k.tc parent with
    | none => exact .failed rfl (Undone.refl k grants) (.refl _)
    | some parentTc =>
      dsimp only
      split
      · exact .failed rfl (Undone.refl k grants) (.refl _)
      · obtain ⟨after, prepares, undone⟩ | ⟨t, after, prepares, taken, dressed, -, user, base, based⟩ :=
          threadPrepareUser_blocks board entry stack (stack + userStackSize) grants k
        · rw [prepares]
          exact .failed rfl undone List.perm_append_comm
        · rw [prepares, taken]
          dsimp only
          refine (dressed.regroup _ _).published ?_ (threadBlocks_user user base dressed.kstack) fun _ => base ▸ based
          rw [(threadPublish_ids t _).1]
          exact dressed.tid

theorem sysFork_built {board : Board} {parentTc : TrapContext} {stack : UInt64}
    {mem : ByteMemory.Mem} {out : ForkOutcome}
    (forks : sysFork board parentTc stack grants mem k = some out) :
    Built k out.kernel grants out.ret (sysForkTakes board parentTc stack grants k) [] out.freed := by
  unfold sysFork at forks
  unfold sysForkTakes
  cases current : threadCurrent k with
  | none =>
    rw [current] at forks
    cases forks
    exact .failed rfl (Undone.refl k grants) (.refl _)
  | some parent =>
    rw [current] at forks
    dsimp only at forks ⊢
    split at forks
    next other =>
      cases forks
      rw [if_pos other]
      exact .failed rfl (Undone.refl k grants) (.refl _)
    next isUser =>
      obtain ⟨size, counted, rest⟩ := Option.bind_eq_some_iff.mp forks
      rw [if_neg isUser, counted]
      dsimp only at rest ⊢
      split at rest
      next refused =>
        cases rest
        rw [if_pos refused]
        exact .failed rfl (Undone.refl k grants) (.refl _)
      next granted =>
        rw [if_neg granted]
        obtain ⟨after, prepares, undone⟩ | ⟨t, after, prepares, taken, dressed, leader, user, base, based⟩ :=
          threadPrepareUser_blocks board (k.userEntry parent) stack ((stack + userStackSize) &&& 0xFFFFFFFFFFFFFFF0)
            grants k
        · rw [prepares] at rest
          cases rest
          exact .failed rfl undone List.perm_append_comm
        · rw [prepares] at rest
          cases rest
          rw [taken]
          dsimp only
          refine (dressed.regroup _ _).published ?_ (threadBlocks_user user base dressed.kstack) fun _ => base ▸ based
          rw [(threadPublish_ids t _).2]
          exact leader.symm ▸ dressed.tid

end OrangeKernel.Thread
