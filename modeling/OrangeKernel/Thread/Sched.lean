import OrangeKernel.Thread.State

set_option autoImplicit false

-- A walk that does not end is `none`.

namespace OrangeKernel.Thread

def schedEnqueue (t : Addr) (k : Kernel) : Kernel :=
  let cleared := k.setNext t none
  match cleared.runTail with
  | none =>
    { cleared with
      runHead := some t
      runTail := some t }
  | some tail => { cleared.setNext tail (some t) with runTail := some t }

def runqPop (k : Kernel) : Option Addr × Kernel :=
  match k.runHead with
  | none => (none, k)
  | some t =>
    let next := k.next t
    (some t, { k.setNext t none with
      runHead := next
      runTail := if next = none then none else k.runTail })

def schedRemoveFrom (target : Addr) : (fuel : Nat) → (prev cur : Option Addr) → Kernel → Option Kernel
  | 0, _, _, _ => none
  | _ + 1, _, none, k => some k
  | fuel + 1, prev, some cur, k =>
    if cur = target then
      let unlinked := match prev with
        | none => { k with runHead := k.next cur }
        | some p => k.setNext p (k.next cur)
      let shortened := if unlinked.runTail = some cur then { unlinked with runTail := prev } else unlinked
      some (shortened.setNext cur none)
    else schedRemoveFrom target fuel (some cur) (k.next cur) k

def schedRemove (target : Addr) (k : Kernel) : Option Kernel :=
  schedRemoveFrom target walkLimit none k.runHead k

def threadCurrent (k : Kernel) : Option Addr := k.current

def threadListAdd (t : Addr) (k : Kernel) : Kernel :=
  { k.setAllNext t k.allThreads with allThreads := some t }

def threadRegisterBoot (task : Addr) (k : Kernel) : Kernel := threadListAdd task k

def threadSystemBootstrapInit (k : Kernel) : Kernel :=
  if k.current ≠ none then k
  else
    let idle := k.bootIdleThread
    let marked := { k with
      kind := Function.update k.kind idle .kernel
      state := Function.update k.state idle .running
      isIdle := Function.update k.isIdle idle true }
    { threadRegisterBoot idle marked with current := some idle }

def popRunnable : (fuel : Nat) → Kernel → Option (Option Addr × Kernel)
  | 0, _ => none
  | fuel + 1, k =>
    match runqPop k with
    | (none, popped) => some (none, popped)
    | (some next, popped) =>
      if popped.state next = .runnable then some (some next, popped) else popRunnable fuel popped

def switchTo (prev next : Addr) (k : Kernel) : Kernel :=
  if prev = next then k.setState prev .running
  else
    let yielded := if k.state prev = .running then k.setState prev .runnable else k
    let picked := yielded.setState next .running
    let queued := if picked.state prev = .runnable ∧ picked.isIdle prev = false
      then schedEnqueue prev picked else picked
    { queued with current := some next }

def schedule (k : Kernel) : Option Kernel :=
  match threadCurrent k with
  | none => some k
  | some prev => do
    let (next, popped) ← popRunnable walkLimit { k with needResched := false }
    match next with
    | some next => some (switchTo prev next popped)
    | none =>
      if popped.isIdle prev then some popped
      else some (switchTo prev popped.bootIdleThread popped)

def threadYield (k : Kernel) : Option Kernel := schedule k

def threadRequestResched (k : Kernel) : Kernel := { k with needResched := true }

end OrangeKernel.Thread
