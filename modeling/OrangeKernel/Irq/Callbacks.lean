import OrangeKernel.Irq.CustomWork

set_option autoImplicit false

namespace OrangeKernel.Irq

open Function Intrusive

def link (c : Custom) (i : Slot) : Option Slot := (c.pool i).next

def Taken (next : Slot → Option Slot) (current batch : List Slot) : Option Cursor → Prop
  | none => current = [] ∧ batch = []
  | some .enter => current = [] ∧ batch = []
  | some (.test work) => current = [] ∧ Stack next work batch
  | some (.loaded work rest) => current = [] ∧ ∃ tail, batch = work :: tail ∧ Stack next rest tail
  | some (.inside work rest) => current = [work] ∧ Stack next rest batch
  | some (.returned work rest) => current = [work] ∧ Stack next rest batch

structure CustomOk (s : CustomState) (current batch queue : List Slot) : Prop where
  runner : s.runner.Ok
  active : s.cursor.isSome = s.runner.isActive .custom
  queued : Fifo (link s.custom) s.custom.head s.custom.tail queue
  taken : Taken (link s.custom) current batch s.cursor
  distinct : (current ++ (batch ++ queue)).Nodup
  allocated : ∀ i, (s.custom.pool i).allocated = true ↔ i ∈ current ++ (batch ++ queue)
  sequence : s.accepted = s.started ++ (batch ++ queue).map (payload s.custom)
  trigger : queue ≠ [] →
    s.runner.isPending .custom = true ∨ s.runner.isSelected .custom = true ∨ s.cursor = some .enter
  holder : ∀ i, (s.holder i).isSome = (s.custom.pool i).allocated
  held : ∀ i n, s.holder i = some n → s.accepted[n]? = some (payload s.custom i)

theorem customStart_ok (c : Custom) : CustomOk (customStart c) [] [] [] :=
  { runner := bottomHalfInit_ok
    active := rfl
    queued := ⟨trivial, rfl, rfl⟩
    taken := ⟨rfl, rfl⟩
    distinct := List.nodup_nil
    allocated := by simp [customStart, customWorkInit]
    sequence := rfl
    trigger := by simp
    holder := by simp [customStart, customWorkInit]
    held := by simp [customStart] }

variable {i : Slot}

theorem freeSlot_some {c : Custom} (free : freeSlot c = some i) : (c.pool i).allocated = false := by
  simpa using List.find?_some free

theorem freeSlot_none_iff (c : Custom) : freeSlot c = none ↔ ∀ i, (c.pool i).allocated = true := by
  simp [freeSlot, List.find?_eq_none]

theorem appendWork_link (i : Slot) (callback arg : UInt64) (c : Custom) :
    link (appendWork i callback arg c) = setAt (update (link c) i none) c.tail (some i) := by
  have filled : (fun j => (update c.pool i ⟨callback, arg, none, true⟩ j).next) =
      update (link c) i none := by
    funext j
    by_cases here : j = i
    · simp [here]
    · simp [here, link]
  funext j
  rw [← filled]
  show ((appendWork i callback arg c).pool j).next = _
  unfold appendWork
  cases c.tail with
  | none => rfl
  | some last =>
    by_cases here : j = last
    · simp [here, setAt]
    · simp [here, setAt]

theorem appendWork_heads (i : Slot) (callback arg : UInt64) (c : Custom) :
    (appendWork i callback arg c).head = (if c.tail = none then some i else c.head) ∧
      (appendWork i callback arg c).tail = some i := by
  unfold appendWork
  cases c.tail <;> simp

theorem appendWork_slot (i j : Slot) (callback arg : UInt64) (c : Custom) :
    (((appendWork i callback arg c).pool j).allocated = if j = i then true else (c.pool j).allocated) ∧
      payload (appendWork i callback arg c) j = if j = i then (callback, arg) else payload c j := by
  have filled : ∀ j, (update c.pool i ⟨callback, arg, none, true⟩ j).allocated =
      (if j = i then true else (c.pool j).allocated) ∧
      ((update c.pool i ⟨callback, arg, none, true⟩ j).callback,
        (update c.pool i ⟨callback, arg, none, true⟩ j).arg) =
      if j = i then (callback, arg) else payload c j := fun j => by
    by_cases here : j = i
    · simp [here]
    · simp [here, payload]
  unfold appendWork
  cases c.tail with
  | none => exact filled j
  | some last =>
    by_cases here : j = last
    · simpa [here, payload] using filled last
    · simpa [here, payload] using filled j

theorem Taken.congr {next next' : Slot → Option Slot} {current batch : List Slot} {cursor : Option Cursor}
    (taken : Taken next current batch cursor) (agree : ∀ i ∈ batch, next' i = next i) :
    Taken next' current batch cursor := by
  have stack : ∀ {first : Option Slot}, Stack next first batch → Stack next' first batch := fun stack =>
    ⟨chain_congr agree stack.chain, stack.first⟩
  match cursor with
  | none | some .enter => exact taken
  | some (.test work) => exact ⟨taken.1, stack taken.2⟩
  | some (.inside work rest) | some (.returned work rest) => exact ⟨taken.1, stack taken.2⟩
  | some (.loaded work rest) =>
    obtain ⟨none, tail, rfl, others⟩ := taken
    exact ⟨none, tail, rfl, chain_congr (fun i member => agree i (List.mem_cons_of_mem _ member)) others.chain,
      others.first⟩

theorem deferCallback_fails_iff {callback : UInt64} (nonnull : callback ≠ 0) (arg : UInt64)
    (c : Custom) (r : Runner) :
    (deferCallback callback arg c r).1 = -1 ↔ ∀ i, (c.pool i).allocated = true := by
  rw [← freeSlot_none_iff]
  unfold deferCallback
  rw [if_neg nonnull]
  cases freeSlot c <;> simp

variable {w : Slot}

section Steps

variable {s : CustomState} {current batch queue : List Slot} (ok : CustomOk s current batch queue)
include ok

theorem CustomOk.append {callback : UInt64} (arg : UInt64) (free : freeSlot s.custom = some i) :
    CustomOk
      { s with
        runner := raiseBottomHalf (UInt32.ofNat BottomHalf.custom.bit) s.runner
        custom := appendWork i callback arg s.custom
        accepted := s.accepted ++ [(callback, arg)]
        holder := update s.holder i (some s.accepted.length) }
      current batch (queue ++ [i]) := by
  have absent : i ∉ current ++ (batch ++ queue) := fun member => by
    simpa [freeSlot_some free] using (ok.allocated i).mpr member
  have frames := (raiseBottomHalf_frames (UInt32.ofNat BottomHalf.custom.bit) s.runner).1
  have slot := fun j => appendWork_slot i j callback arg s.custom
  have older : ∀ j ∈ current ++ (batch ++ queue), j ≠ i := fun j member same => absent (same ▸ member)
  obtain ⟨apart, both, separate⟩ := List.nodup_append.mp ok.distinct
  constructor
  · exact ok.runner.raise (UInt32.ofNat BottomHalf.custom.bit)
  · rw [ok.active]
    simp only [Runner.isActive, frames]
  · have pushed := ok.queued.push (x := i) (by simp_all)
    rw [appendWork_link, (appendWork_heads i callback arg s.custom).1, (appendWork_heads i callback arg s.custom).2]
    exact pushed
  · -- the new slot and the old tail are both outside the batch
    refine ok.taken.congr fun j member => ?_
    rw [appendWork_link, setAt_ne, update_of_ne (older j (by simp [member]))]
    intro last
    rw [ok.queued.last] at last
    exact (List.nodup_append.mp both).2.2 j member j (List.mem_of_getLast? last) rfl
  · rw [← List.append_assoc, ← List.append_assoc, List.append_assoc current]
    exact List.nodup_append.mpr ⟨ok.distinct, by simp, fun j member k last => by
      obtain rfl := List.mem_singleton.mp last
      exact older j member⟩
  · intro j
    rw [(slot j).1]
    by_cases here : j = i
    · simp [here]
    · simp [here, ok.allocated j]
  · have same : (batch ++ queue).map (payload (appendWork i callback arg s.custom)) =
        (batch ++ queue).map (payload s.custom) := List.map_congr_left fun j member => by
      rw [(slot j).2, if_neg (older j (List.mem_append_right _ member))]
    rw [← List.append_assoc batch, List.map_append, same, ← List.append_assoc, ← ok.sequence]
    simp [(slot i).2]
  · exact fun _ => Or.inl (by simp [raiseBottomHalf_pending])
  · intro j
    rw [(slot j).1]
    by_cases here : j = i
    · simp [here]
    · simp [here, ok.holder j]
  · intro j n holds
    rw [(slot j).2]
    by_cases here : j = i
    · subst here
      obtain rfl : s.accepted.length = n := by simpa using holds
      simp
    · rw [if_neg here]
      have old := ok.held j n (by simpa [here] using holds)
      obtain ⟨within, -⟩ := List.getElem?_eq_some_iff.mp old
      rw [List.getElem?_append_left within, old]

theorem CustomOk.defer (callback arg : UInt64) :
    ∃ current batch queue, CustomOk (deferStep callback arg s) current batch queue := by
  unfold deferStep deferCallback
  by_cases null : callback = 0
  · exact ⟨current, batch, queue, by simpa [null] using ok⟩
  · rw [if_neg null]
    cases free : freeSlot s.custom with
    | none => exact ⟨current, batch, queue, by simpa using ok⟩
    | some i => exact ⟨current, batch, queue ++ [i], by simpa [free] using ok.append arg free⟩

theorem CustomOk.take (enter : s.cursor = some .enter) :
    CustomOk
      { s with
        cursor := some (.test s.custom.head)
        custom := { s.custom with head := none, tail := none } }
      [] queue [] := by
  have taken := ok.taken
  rw [enter] at taken
  obtain ⟨rfl, rfl⟩ := taken
  exact
    { runner := ok.runner
      active := by
        rw [← ok.active, enter]
        rfl
      queued := ⟨trivial, rfl, rfl⟩
      taken := ⟨rfl, ok.queued.stack⟩
      distinct := by simpa using ok.distinct
      allocated := by simpa using ok.allocated
      sequence := by
        rw [List.append_nil]
        exact ok.sequence
      trigger := by simp
      holder := ok.holder
      held := ok.held }

theorem CustomOk.emptied (none : s.cursor = some (.test none)) :
    CustomOk
      { s with
        cursor := .none
        runner := handlerReturns s.runner }
      current batch queue := by
  have taken := ok.taken
  rw [none] at taken
  obtain ⟨rfl, stack⟩ := taken
  obtain rfl : batch = [] := List.head?_eq_none_iff.mp stack.first.symm
  have types := ok.runner.returns_types .custom
  exact { ok with
    runner := ok.runner.returns
    active := by rw [types.2.2]; rfl
    taken := ⟨rfl, rfl⟩
    trigger := fun some => by
      have before := ok.trigger some
      rw [none] at before
      rw [types.1, types.2.1]
      simpa using before }

theorem CustomOk.load (test : s.cursor = some (.test (some w))) :
    CustomOk { s with cursor := some (.loaded w (s.custom.pool w).next) } current batch queue := by
  have taken := ok.taken
  rw [test] at taken
  obtain ⟨rfl, stack⟩ := taken
  cases batch with
  | nil => simpa using stack.first
  | cons x rest =>
    obtain rfl : w = x := by simpa using stack.first
    exact { ok with
      active := by
        rw [← ok.active, test]
        rfl
      taken := ⟨rfl, rest, rfl, stack.pop⟩
      trigger := fun some => by
        have before := ok.trigger some
        rw [test] at before
        simpa using before }

variable {next : Option Slot}

theorem CustomOk.call (loaded : s.cursor = some (.loaded w next)) :
    ∃ rest, batch = w :: rest ∧
      CustomOk
        { s with
          cursor := some (.inside w next)
          started := s.started ++ [payload s.custom w] }
        [w] rest queue := by
  have taken := ok.taken
  rw [loaded] at taken
  obtain ⟨rfl, rest, rfl, stack⟩ := taken
  refine ⟨rest, rfl, ?_⟩
  exact { ok with
    active := by
      rw [← ok.active, loaded]
      rfl
    taken := ⟨rfl, stack⟩
    distinct := by simpa using ok.distinct
    allocated := by simpa using ok.allocated
    sequence := by simpa using ok.sequence
    trigger := fun some => by
      have before := ok.trigger some
      rw [loaded] at before
      simpa using before }

theorem CustomOk.back (inside : s.cursor = some (.inside w next)) :
    CustomOk { s with cursor := some (.returned w next) } current batch queue := by
  have taken := ok.taken
  rw [inside] at taken
  exact { ok with
    active := by
      rw [← ok.active, inside]
      rfl
    taken := taken
    trigger := fun some => by
      have before := ok.trigger some
      rw [inside] at before
      simpa using before }

theorem CustomOk.release (returned : s.cursor = some (.returned w next)) :
    CustomOk
      { s with
        cursor := some (.test next)
        custom := { s.custom with
          pool := update s.custom.pool w { s.custom.pool w with allocated := false } }
        holder := update s.holder w none }
      [] batch queue := by
  have taken := ok.taken
  rw [returned] at taken
  obtain ⟨rfl, stack⟩ := taken
  obtain ⟨absent, distinct⟩ := List.nodup_cons.mp ok.distinct
  have links : link { s.custom with
      pool := update s.custom.pool w { s.custom.pool w with allocated := false } } = link s.custom := by
    funext j
    by_cases here : j = w
    · simp [link, here]
    · simp [link, here]
  have payloads : payload { s.custom with
      pool := update s.custom.pool w { s.custom.pool w with allocated := false } } = payload s.custom := by
    funext j
    by_cases here : j = w
    · simp [payload, here]
    · simp [payload, here]
  constructor
  · exact ok.runner
  · rw [← ok.active, returned]
    rfl
  · rw [links]
    exact ok.queued
  · rw [links]
    exact ⟨rfl, stack⟩
  · exact distinct
  · intro j
    have before := ok.allocated j
    by_cases here : j = w
    · subst here
      simpa using absent
    · simpa [here] using before
  · rw [payloads]
    exact ok.sequence
  · intro some
    have before := ok.trigger some
    rw [returned] at before
    simpa using before
  · intro j
    have before := ok.holder j
    by_cases here : j = w
    · simp [here]
    · simpa [here] using before
  · intro j n holds
    rw [payloads]
    by_cases here : j = w
    · simp [here] at holds
    · exact ok.held j n (by simpa [here] using holds)

theorem CustomOk.work : ∃ current batch queue, CustomOk (workStep s) current batch queue := by
  unfold workStep
  cases cursor : s.cursor with
  | none => exact ⟨current, batch, queue, ok⟩
  | some place =>
    cases place with
    | enter => exact ⟨[], queue, [], ok.take cursor⟩
    | test work =>
      cases work with
      | none => exact ⟨current, batch, queue, ok.emptied cursor⟩
      | some w => exact ⟨current, batch, queue, ok.load cursor⟩
    | loaded w next =>
      obtain ⟨rest, -, after⟩ := ok.call cursor
      exact ⟨[w], rest, queue, after⟩
    | inside w next => exact ⟨current, batch, queue, ok.back cursor⟩
    | returned w next => exact ⟨[], batch, queue, ok.release cursor⟩

theorem CustomOk.runs {r : Runner} (okAfter : r.Ok) (active : r.isActive .custom = s.runner.isActive .custom)
    (keeps : s.runner.isPending .custom = true ∨ s.runner.isSelected .custom = true →
      r.isPending .custom = true ∨ r.isSelected .custom = true) :
    CustomOk { s with runner := r } current batch queue :=
  { ok with
    runner := okAfter
    active := ok.active.trans active.symm
    trigger := fun some => by
      rcases ok.trigger some with set | chosen | enters
      · exact (keeps (Or.inl set)).imp_right Or.inl
      · exact (keeps (Or.inr chosen)).imp_right Or.inl
      · exact Or.inr (Or.inr enters) }

theorem CustomOk.round {r : Runner} (pending : r.pending = s.runner.pending) (okAfter : (nextRound [] r).Ok)
    (idle : s.runner.isActive .custom = false) (none : s.runner.isSelected .custom = false) :
    CustomOk { s with runner := nextRound [] r } current batch queue := by
  have types := nextRound_types r .custom
  refine ok.runs okAfter (by rw [types.2.2, idle]) fun before => ?_
  rw [none] at before
  right
  rw [types.2.1, Runner.isPending, pending]
  simpa [Runner.isPending] using before

theorem CustomOk.raise (type : UInt32) :
    CustomOk { s with runner := raiseBottomHalf type s.runner } current batch queue := by
  have frames := (raiseBottomHalf_frames type s.runner).1
  refine ok.runs (ok.runner.raise type) (by simp only [Runner.isActive, frames]) fun before => ?_
  have selected : (raiseBottomHalf type s.runner).isSelected .custom = s.runner.isSelected .custom := by
    simp only [Runner.isSelected, frames]
  rw [selected]
  refine before.imp_left fun set => ?_
  obtain outside | ⟨u, rfl⟩ := type_cases type
  · rw [raiseBottomHalf_outside outside]
    exact set
  · rw [raiseBottomHalf_pending, set, Bool.true_or]

theorem CustomOk.clear {type : UInt32} (other : type ≠ UInt32.ofNat BottomHalf.custom.bit) :
    CustomOk { s with runner := clearBottomHalf type s.runner } current batch queue := by
  have frames := (clearBottomHalf_frames type s.runner).1
  refine ok.runs (ok.runner.clear type) (by simp only [Runner.isActive, frames]) fun before => ?_
  have selected : (clearBottomHalf type s.runner).isSelected .custom = s.runner.isSelected .custom := by
    simp only [Runner.isSelected, frames]
  rw [selected]
  refine before.imp_left fun set => ?_
  obtain outside | ⟨u, rfl⟩ := type_cases type
  · rw [clearBottomHalf_outside outside]
    exact set
  · have different : BottomHalf.custom ≠ u := fun same => other (same ▸ rfl)
    simp [clearBottomHalf_pending, set, different]

theorem CustomOk.run : CustomOk { s with runner := runBottomHalves s.runner } current batch queue := by
  obtain ⟨-, same⟩ | ⟨frames, takes⟩ := ok.runner.run_cases
  · rw [same]
    exact ok
  · have okAfter := ok.runner.run
    rw [takes] at okAfter ⊢
    exact ok.round rfl okAfter (by simp [Runner.isActive, frames]) (by simp [Runner.isSelected, frames])

theorem CustomOk.advance :
    CustomOk
      { s with
        runner := Irq.advance s.runner
        cursor := if s.runner.starts = some .custom then some .enter else s.cursor }
      current batch queue := by
  obtain ⟨okAfter, how⟩ := ok.runner.advance_cases
  cases how with
  | same none within pending selected active =>
    rw [none, if_neg (by simp)]
    refine ok.runs okAfter (active .custom) fun before => ?_
    rw [selected, Runner.isPending, pending]
    exact before
  | started t starts pending was selected idle active =>
    have quiet : s.cursor = none := by
      have isNone := ok.active
      rw [idle] at isNone
      simpa using isNone
    have taken := ok.taken
    rw [quiet] at taken
    rw [starts]
    by_cases custom : t = .custom
    · subst custom
      rw [if_pos rfl]
      exact { ok with
        runner := okAfter
        active := by simp [active]
        taken := taken
        trigger := fun _ => Or.inr (Or.inr rfl) }
    · rw [if_neg (by simpa using custom)]
      refine ok.runs okAfter (by rw [active, idle]; simpa [eq_comm] using custom) fun before => ?_
      rw [selected, Runner.isPending, pending]
      simpa [Runner.isPending, Ne.symm custom] using before
  | round none mask spent next =>
    rw [next] at okAfter ⊢
    rw [none, if_neg (by simp)]
    exact ok.round rfl okAfter (by simp [Runner.isActive, spent]) (by simp [Runner.isSelected, spent])

theorem CustomOk.finish (quiet : s.cursor = none) :
    CustomOk { s with runner := handlerReturns s.runner } current batch queue := by
  have types := ok.runner.returns_types .custom
  refine ok.runs ok.runner.returns ?_ fun before => by rw [types.1, types.2.1]; exact before
  rw [types.2.2, ← ok.active, quiet]
  rfl

theorem CustomOk.step (op : CustomOp) (allowed : op.allowed = true) :
    ∃ current batch queue, CustomOk (customStep s op) current batch queue := by
  cases op with
  | defer callback arg => exact ok.defer callback arg
  | raise type => exact ⟨current, batch, queue, ok.raise type⟩
  | clear type => exact ⟨current, batch, queue, ok.clear (by simpa [CustomOp.allowed] using allowed)⟩
  | run => exact ⟨current, batch, queue, ok.run⟩
  | advance => exact ⟨current, batch, queue, ok.advance⟩
  | finish =>
    unfold customStep
    dsimp only
    split
    next quiet => exact ⟨current, batch, queue, ok.finish quiet⟩
    · exact ⟨current, batch, queue, ok⟩
  | work => exact ok.work

end Steps

variable {s : CustomState}

theorem customRun_ok (run : CustomRun s) : ∃ current batch queue, CustomOk s current batch queue := by
  induction run with
  | start c => exact ⟨[], [], [], customStart_ok c⟩
  | step op _ allowed ih =>
    obtain ⟨current, batch, queue, ok⟩ := ih
    exact ok.step op allowed

theorem CustomOk.holds {current batch queue : List Slot} (ok : CustomOk s current batch queue) (op : CustomOp)
    {n : Nat} (holds : s.holder i = some n) :
    (customStep s op).holder i = some n ∨ ∃ next, s.cursor = some (.returned i next) := by
  cases op with
  | defer callback arg =>
    left
    simp only [customStep, deferStep]
    split
    · exact holds
    · cases free : freeSlot s.custom with
      | none => exact holds
      | some j =>
        have other : i ≠ j := fun same => by
          have marked := ok.holder i
          rw [holds, same, freeSlot_some free] at marked
          cases marked
        simpa [other] using holds
  | finish =>
    left
    simp only [customStep]
    split <;> exact holds
  | work =>
    simp only [customStep, workStep]
    cases cursor : s.cursor with
    | none => exact Or.inl holds
    | some place =>
      cases place with
      | returned w next =>
        by_cases here : i = w
        · exact Or.inr ⟨next, by rw [here]⟩
        · exact Or.inl (by simpa [here] using holds)
      | test work => cases work <;> exact Or.inl holds
      | enter | loaded | inside => exact Or.inl holds
  | raise | clear | run | advance => exact Or.inl holds

theorem customRun_exact {s : CustomState} (run : CustomRun s) :
    ∃ current batch queue, CustomOk s current batch queue ∧
      (∀ callback arg, callback ≠ 0 →
        ((deferCallback callback arg s.custom s.runner).1 = -1 ↔ ∀ i, ∃ n, s.holder i = some n)) ∧
      ∀ op i n, s.holder i = some n →
        (customStep s op).holder i = some n ∨ ∃ next, s.cursor = some (.returned i next) := by
  obtain ⟨current, batch, queue, ok⟩ := customRun_ok run
  refine ⟨current, batch, queue, ok, fun callback arg nonnull => ?_, fun op i n holds => ok.holds op holds⟩
  rw [deferCallback_fails_iff nonnull]
  refine forall_congr' fun i => ?_
  rw [← ok.holder i, Option.isSome_iff_exists]

def nestedDefer : List CustomOp :=
  [.defer 0x80201000 1, .run, .advance, .advance, .advance, .advance, .work, .work, .work, .defer 0x80202000 2]

theorem customRun_foldl (ops : List CustomOp) (allowed : ∀ op ∈ ops, op.allowed = true) (run : CustomRun s) :
    CustomRun (ops.foldl customStep s) := by
  induction ops generalizing s with
  | nil => exact run
  | cons op ops ih =>
    exact ih (fun op member => allowed op (List.mem_cons_of_mem _ member))
      (.step op run (allowed op List.mem_cons_self))

def emptyPool : Custom := ⟨fun _ => ⟨0, 0, none, false⟩, none, none⟩

theorem customRun_exact_nestedDefer :
    CustomRun (nestedDefer.foldl customStep (customStart emptyPool)) ∧
      (nestedDefer.foldl customStep (customStart emptyPool)).cursor = some (.inside ⟨0, by decide⟩ none) ∧
      (nestedDefer.foldl customStep (customStart emptyPool)).started = [(0x80201000, 1)] ∧
      ∃ current batch queue, CustomOk (nestedDefer.foldl customStep (customStart emptyPool)) current batch queue := by
  have run := customRun_foldl nestedDefer (by decide) (.start emptyPool)
  obtain ⟨current, batch, queue, ok, -⟩ := customRun_exact run
  exact ⟨run, by decide +kernel, by decide +kernel, current, batch, queue, ok⟩

def enteredOnce : List CustomOp := [.defer 0x80201000 1, .run, .advance, .advance, .advance, .advance]

-- `run_custom_callbacks` is called but has not yet taken the list.
theorem customRun_entered :
    ∃ s, CustomRun s ∧ s.custom.head ≠ none ∧ s.runner.isPending .custom = false ∧
      s.runner.isSelected .custom = false :=
  ⟨_, customRun_foldl enteredOnce (by decide) (.start emptyPool), by decide +kernel, by decide +kernel,
    by decide +kernel⟩

end OrangeKernel.Irq
