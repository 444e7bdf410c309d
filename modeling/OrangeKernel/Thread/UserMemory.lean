import OrangeKernel.Thread.Fork

set_option autoImplicit false

namespace OrangeKernel.Thread

open Memory

def someThreadFrom (p : Addr → Bool) (k : Kernel) : (fuel : Nat) → (cur : Option Addr) → Option Bool
  | 0, _ => none
  | _ + 1, none => some false
  | fuel + 1, some cur => if p cur then some true else someThreadFrom p k fuel (k.allNext cur)

def stackHolds (task : Addr) (start stop : UInt64) (k : Kernel) (cur : Addr) : Bool :=
  k.kind cur = .user ∧ k.tgid cur = k.tgid task ∧ k.state cur ≠ .zombie ∧ k.userStackBase cur ≤ start ∧
    stop ≤ k.userStackTop cur

def threadUserStackContains (task : Addr) (start stop : UInt64) (k : Kernel) : Option Bool :=
  if k.kind task = .user ∧ start < stop then someThreadFrom (stackHolds task start stop k) k walkLimit k.allThreads
  else some false

def userRangeOk (board : Board) (task : Addr) (addr count : UInt64) (writable : Bool) (k : Kernel) : Option Bool :=
  if count = 0 then some true
  else if addr = 0 then some false
  else
    let stop := addr + count
    if stop < addr then some false
    else do
      let inStack ← threadUserStackContains task addr stop k
      if inStack then some true
      else some (!writable && userCodeBase board ≤ addr.toNat && stop.toNat ≤ userCodeBase board + userCodeSize)

def currentUserTask (k : Kernel) : Option Addr :=
  match threadCurrent k with
  | none => none
  | some task => if k.kind task = .user then some task else none

def threadUserImageBusy (except : Option Addr) (k : Kernel) : Option Bool :=
  someThreadFrom (fun t => some t ≠ except ∧ k.kind t = .user ∧ k.state t ≠ .zombie) k walkLimit k.allThreads

theorem currentUserTask_eq {k : Kernel} {task : Addr} (current : currentUserTask k = some task) :
    threadCurrent k = some task ∧ k.kind task = .user := by
  unfold currentUserTask at current
  split at current
  · simp at current
  next t running =>
    split at current
    next user =>
      cases current
      exact ⟨running, user⟩
    · simp at current

end OrangeKernel.Thread
