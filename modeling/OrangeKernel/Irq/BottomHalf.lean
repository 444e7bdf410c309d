import OrangeKernel.Shared.Mask

set_option autoImplicit false

-- `bottom_half.c`, cut at the points where interrupts are on. A call of `run_bottom_halves` that
-- got past the test of `running` is a frame; calls nest, so the innermost one is the first.

namespace OrangeKernel.Irq

open WordMask

inductive BottomHalf where
  | timer
  | uartRx
  | uartTx
  | custom
deriving DecidableEq, Repr

def BottomHalf.bit : BottomHalf → Nat
  | .timer => 0
  | .uartRx => 1
  | .uartTx => 2
  | .custom => 3

def bhCount : UInt32 := 4

def dispatchOrder : List BottomHalf := [.timer, .uartRx, .uartTx, .custom]

structure Frame where
  round : UInt32
  left : List BottomHalf
  active : Option BottomHalf
deriving DecidableEq, Repr

structure Runner where
  pending : UInt32
  running : Bool
  frames : List Frame
deriving DecidableEq, Repr

def bottomHalfInit : Runner :=
  { pending := 0
    running := false
    frames := [] }

def raiseBottomHalf (type : UInt32) (r : Runner) : Runner :=
  if bhCount ≤ type then r else { r with pending := r.pending ||| (1 <<< type) }

def clearBottomHalf (type : UInt32) (r : Runner) : Runner :=
  if bhCount ≤ type then r else { r with pending := r.pending &&& ~~~(1 <<< type) }

-- With interrupts off.
def nextRound (outer : List Frame) (r : Runner) : Runner :=
  if r.pending ≠ 0 then
    { r with
      pending := 0
      frames := ⟨r.pending, dispatchOrder, none⟩ :: outer }
  else
    { r with
      running := false
      frames := outer }

-- Up to the point where it enables interrupts or returns.
def runBottomHalves (r : Runner) : Runner :=
  if r.running then r else nextRound r.frames { r with running := true }

def advance (r : Runner) : Runner :=
  match r.frames with
  | ⟨round, t :: left, none⟩ :: outer =>
    if round &&& (1 <<< UInt32.ofNat t.bit) ≠ 0 then { r with frames := ⟨round, left, some t⟩ :: outer }
    else { r with frames := ⟨round, left, none⟩ :: outer }
  | ⟨_, [], none⟩ :: outer => nextRound outer r
  | _ => r

def handlerReturns (r : Runner) : Runner :=
  match r.frames with
  | ⟨round, left, some _⟩ :: outer => { r with frames := ⟨round, left, none⟩ :: outer }
  | _ => r

def Runner.starts (r : Runner) : Option BottomHalf :=
  match r.frames with
  | ⟨round, t :: _, none⟩ :: _ => if round &&& (1 <<< UInt32.ofNat t.bit) ≠ 0 then some t else none
  | _ => none

def Runner.isPending (r : Runner) (t : BottomHalf) : Bool := has r.pending t.bit

def Runner.isSelected (r : Runner) (t : BottomHalf) : Bool :=
  r.frames.any fun f => t ∈ f.left && has f.round t.bit

def Runner.isActive (r : Runner) (t : BottomHalf) : Bool := r.frames.any fun f => f.active = some t

structure Frame.Ok (f : Frame) : Prop where
  nodup : f.left.Nodup
  started : ∀ t, f.active = some t → t ∉ f.left

structure Runner.Ok (r : Runner) : Prop where
  types : ∀ i, 4 ≤ i → has r.pending i = false
  alone : r.frames = [] ∧ r.running = false ∨ ∃ f, r.frames = [f] ∧ r.running = true ∧ f.Ok

theorem bottomHalfInit_ok : bottomHalfInit.Ok := ⟨by simp [bottomHalfInit], Or.inl ⟨rfl, rfl⟩⟩

theorem BottomHalf.bit_lt (t : BottomHalf) : t.bit < 4 := by
  cases t <;> decide

variable {t : BottomHalf}

theorem BottomHalf.bit_inj {u : BottomHalf} (same : t.bit = u.bit) : t = u := by
  cases t <;> cases u <;> simp_all [BottomHalf.bit]

theorem BottomHalf.ofBit {i : Nat} (small : i < 4) : ∃ t : BottomHalf, t.bit = i := by
  match i, small with
  | 0, _ => exact ⟨.timer, rfl⟩
  | 1, _ => exact ⟨.uartRx, rfl⟩
  | 2, _ => exact ⟨.uartTx, rfl⟩
  | 3, _ => exact ⟨.custom, rfl⟩

theorem selects_iff (round : UInt32) (t : BottomHalf) :
    round &&& (1 <<< UInt32.ofNat t.bit) ≠ 0 ↔ has round t.bit = true := by
  have small := t.bit_lt
  rw [Ne, and_eq_zero_iff (by omega), Bool.not_eq_false]

variable {r : Runner}

theorem Runner.Ok.pending_zero (ok : r.Ok) : r.pending = 0 ↔ ∀ t, r.isPending t = false := by
  rw [eq_zero_iff]
  constructor
  · exact fun clear t => clear t.bit
  · intro clear i
    by_cases small : i < 4
    · obtain ⟨t, rfl⟩ := BottomHalf.ofBit small
      exact clear t
    · exact ok.types i (by omega)

theorem type_cases (type : UInt32) : bhCount ≤ type ∨ ∃ u : BottomHalf, type = UInt32.ofNat u.bit := by
  by_cases outside : bhCount ≤ type
  · exact Or.inl outside
  · right
    have small : type.toNat < 4 := by
      have below := UInt32.lt_iff_toNat_lt.mp (UInt32.not_le.mp outside)
      simpa [bhCount] using below
    obtain ⟨u, bit⟩ := BottomHalf.ofBit small
    exact ⟨u, by rw [bit, UInt32.ofNat_toNat]⟩

theorem bhCount_le_bit (u : BottomHalf) : ¬ bhCount ≤ UInt32.ofNat u.bit := by
  cases u <;> decide

variable {type : UInt32}

theorem raiseBottomHalf_outside (outside : bhCount ≤ type) (r : Runner) :
    raiseBottomHalf type r = r := if_pos outside

theorem clearBottomHalf_outside (outside : bhCount ≤ type) (r : Runner) :
    clearBottomHalf type r = r := if_pos outside

theorem raiseBottomHalf_bit (u : BottomHalf) (r : Runner) :
    raiseBottomHalf (UInt32.ofNat u.bit) r = { r with pending := r.pending ||| (1 <<< UInt32.ofNat u.bit) } :=
  if_neg (bhCount_le_bit u)

theorem clearBottomHalf_bit (u : BottomHalf) (r : Runner) :
    clearBottomHalf (UInt32.ofNat u.bit) r = { r with pending := r.pending &&& ~~~(1 <<< UInt32.ofNat u.bit) } :=
  if_neg (bhCount_le_bit u)

theorem raiseBottomHalf_pending (u t : BottomHalf) (r : Runner) :
    (raiseBottomHalf (UInt32.ofNat u.bit) r).isPending t = (r.isPending t || decide (t = u)) := by
  have small := u.bit_lt
  have same : (u.bit = t.bit) = (t = u) := propext ⟨fun bits => BottomHalf.bit_inj bits.symm, fun eq => eq ▸ rfl⟩
  rw [raiseBottomHalf_bit]
  simp only [Runner.isPending, has_or, has_bit (show u.bit < 32 by omega), same]

theorem clearBottomHalf_pending (u t : BottomHalf) (r : Runner) :
    (clearBottomHalf (UInt32.ofNat u.bit) r).isPending t = (r.isPending t && decide (t ≠ u)) := by
  have small := u.bit_lt
  have within := t.bit_lt
  have same : (u.bit = t.bit) = (t = u) := propext ⟨fun bits => BottomHalf.bit_inj bits.symm, fun eq => eq ▸ rfl⟩
  rw [clearBottomHalf_bit]
  simp only [Runner.isPending, has_and, has_not _ (show t.bit < 32 by omega), has_bit (show u.bit < 32 by omega), same,
    decide_not]

theorem raiseBottomHalf_frames (type : UInt32) (r : Runner) :
    (raiseBottomHalf type r).frames = r.frames ∧ (raiseBottomHalf type r).running = r.running := by
  unfold raiseBottomHalf
  split <;> exact ⟨rfl, rfl⟩

theorem clearBottomHalf_frames (type : UInt32) (r : Runner) :
    (clearBottomHalf type r).frames = r.frames ∧ (clearBottomHalf type r).running = r.running := by
  unfold clearBottomHalf
  split <;> exact ⟨rfl, rfl⟩

theorem Runner.Ok.raise (ok : r.Ok) (type : UInt32) : (raiseBottomHalf type r).Ok := by
  obtain outside | ⟨u, rfl⟩ := type_cases type
  · rw [raiseBottomHalf_outside outside]
    exact ok
  · have small := u.bit_lt
    rw [raiseBottomHalf_bit]
    refine ⟨fun i high => ?_, ok.alone⟩
    simp only [has_or, ok.types i high, has_bit (show u.bit < 32 by omega), Bool.false_or, decide_eq_false_iff_not]
    omega

theorem Runner.Ok.clear (ok : r.Ok) (type : UInt32) : (clearBottomHalf type r).Ok := by
  obtain outside | ⟨u, rfl⟩ := type_cases type
  · rw [clearBottomHalf_outside outside]
    exact ok
  · rw [clearBottomHalf_bit]
    exact ⟨fun i high => by simp [ok.types i high], ok.alone⟩

theorem dispatchOrder_mem (t : BottomHalf) : t ∈ dispatchOrder := by
  cases t <;> decide

theorem nextRound_types (r : Runner) (t : BottomHalf) :
    (nextRound [] r).isPending t = false ∧ (nextRound [] r).isSelected t = r.isPending t ∧
      (nextRound [] r).isActive t = false := by
  unfold nextRound
  split
  · simp [Runner.isPending, Runner.isSelected, Runner.isActive, dispatchOrder_mem]
  next none =>
    have zero : r.pending = 0 := by simpa using none
    simp [Runner.isPending, Runner.isSelected, Runner.isActive, zero]

theorem nextRound_ok (types : ∀ i, 4 ≤ i → has r.pending i = false) (running : r.running = true) :
    (nextRound [] r).Ok := by
  unfold nextRound
  split
  · have nodup : dispatchOrder.Nodup := by decide
    exact ⟨by simp, Or.inr ⟨_, rfl, running, nodup, by simp⟩⟩
  · exact ⟨types, Or.inl ⟨rfl, rfl⟩⟩

theorem Runner.Ok.run_cases (ok : r.Ok) :
    r.running = true ∧ runBottomHalves r = r ∨
      r.frames = [] ∧ runBottomHalves r = nextRound [] { r with running := true } := by
  unfold runBottomHalves
  cases running : r.running with
  | true => exact Or.inl ⟨rfl, rfl⟩
  | false =>
    obtain ⟨none, -⟩ | ⟨f, -, busy, -⟩ := ok.alone
    · exact Or.inr ⟨none, by simp [none]⟩
    · rw [running] at busy
      cases busy

theorem Runner.Ok.run (ok : r.Ok) : (runBottomHalves r).Ok := by
  obtain ⟨-, same⟩ | ⟨-, takes⟩ := ok.run_cases
  · rw [same]
    exact ok
  · rw [takes]
    exact nextRound_ok ok.types rfl

inductive Advanced (r : Runner) : Prop where
  | same (none : r.starts = none) (within : ∀ mask outer, r.frames ≠ ⟨mask, [], .none⟩ :: outer)
      (pending : (advance r).pending = r.pending)
      (selected : ∀ t, (advance r).isSelected t = r.isSelected t)
        (active : ∀ t, (advance r).isActive t = r.isActive t)
  | started (t : BottomHalf) (starts : r.starts = some t) (pending : (advance r).pending = r.pending)
      (was : r.isSelected t = true) (selected : ∀ u, (advance r).isSelected u = (r.isSelected u && decide (u ≠ t)))
      (idle : ∀ u, r.isActive u = false) (active : ∀ u, (advance r).isActive u = decide (u = t))
  | round (none : r.starts = none) (mask : UInt32) (spent : r.frames = [⟨mask, [], .none⟩])
      (next : advance r = nextRound [] r)

theorem Runner.Ok.advance_cases (ok : r.Ok) : (advance r).Ok ∧ Advanced r := by
  obtain ⟨frames, idle⟩ | ⟨⟨mask, left, active⟩, frames, running, okFrame⟩ := ok.alone
  · have still : advance r = r := by simp [advance, frames]
    rw [still]
    exact ⟨ok, .same (by simp [Runner.starts, frames]) (by simp [frames]) (by rw [still])
      (by simp [still]) (by simp [still])⟩
  · cases active with
    | some t =>
      have still : advance r = r := by simp [advance, frames]
      rw [still]
      exact ⟨ok, .same (by simp [Runner.starts, frames]) (by simp [frames]) (by rw [still])
        (by simp [still]) (by simp [still])⟩
    | none =>
      cases left with
      | nil =>
        have next : advance r = nextRound [] r := by simp [advance, frames]
        rw [next]
        exact ⟨nextRound_ok ok.types running, .round (by simp [Runner.starts, frames]) mask frames next⟩
      | cons t left =>
        obtain ⟨absent, nodup⟩ := List.nodup_cons.mp okFrame.nodup
        by_cases selects : mask &&& (1 <<< UInt32.ofNat t.bit) ≠ 0
        · have next : advance r = { r with frames := [⟨mask, left, some t⟩] } := by simp [advance, frames, selects]
          have bit := (selects_iff mask t).mp selects
          rw [next]
          refine ⟨⟨ok.types, Or.inr ⟨_, rfl, running, nodup, ?_⟩⟩, .started t ?_ (by rw [next]) ?_ ?_ ?_ ?_⟩
          · simpa using absent
          · simp [Runner.starts, frames, selects]
          · simp [Runner.isSelected, frames, bit]
          · intro u
            rw [next]
            by_cases here : u = t
            · subst here
              simp [Runner.isSelected, absent]
            · simp [Runner.isSelected, frames, here]
          · simp [Runner.isActive, frames]
          · intro u
            simp [next, Runner.isActive, eq_comm]
        · have next : advance r = { r with frames := [⟨mask, left, none⟩] } := by simp [advance, frames, selects]
          have bit : has mask t.bit = false := by simpa [selects_iff] using selects
          rw [next]
          refine ⟨⟨ok.types, Or.inr ⟨_, rfl, running, nodup, by simp⟩⟩,
            .same ?_ (by simp [frames]) (by rw [next]) ?_ ?_⟩
          · simp [Runner.starts, frames, selects]
          · intro u
            rw [next]
            by_cases here : u = t
            · subst here
              simp [Runner.isSelected, frames, bit]
            · simp [Runner.isSelected, frames, here]
          · intro u
            simp [next, Runner.isActive, frames]

theorem Runner.Ok.returns (ok : r.Ok) : (handlerReturns r).Ok := by
  obtain ⟨frames, idle⟩ | ⟨⟨mask, left, active⟩, frames, running, okFrame⟩ := ok.alone
  · have still : handlerReturns r = r := by simp [handlerReturns, frames]
    rw [still]
    exact ok
  · cases active with
    | none =>
      have still : handlerReturns r = r := by simp [handlerReturns, frames]
      rw [still]
      exact ok
    | some t =>
      have next : handlerReturns r = { r with frames := [⟨mask, left, none⟩] } := by simp [handlerReturns, frames]
      rw [next]
      exact ⟨ok.types, Or.inr ⟨_, rfl, running, okFrame.nodup, by simp⟩⟩

theorem Runner.Ok.returns_types (ok : r.Ok) (t : BottomHalf) :
    (handlerReturns r).isPending t = r.isPending t ∧ (handlerReturns r).isSelected t = r.isSelected t ∧
      (handlerReturns r).isActive t = false := by
  obtain ⟨frames, idle⟩ | ⟨⟨mask, left, active⟩, frames, running, okFrame⟩ := ok.alone
  · simp [handlerReturns, frames, Runner.isActive]
  · cases active <;> simp [handlerReturns, frames, Runner.isActive, Runner.isPending, Runner.isSelected]

def Runner.isAsked (r : Runner) (t : BottomHalf) : Bool := r.isPending t || r.isSelected t

theorem bottomHalfInit_asked (t : BottomHalf) : bottomHalfInit.isAsked t = false := by
  simp [Runner.isAsked, Runner.isPending, Runner.isSelected, bottomHalfInit]

theorem raiseBottomHalf_active (type : UInt32) (r : Runner) (t : BottomHalf) :
    (raiseBottomHalf type r).isActive t = r.isActive t := by
  simp only [Runner.isActive, (raiseBottomHalf_frames type r).1]

theorem clearBottomHalf_active (type : UInt32) (r : Runner) (t : BottomHalf) :
    (clearBottomHalf type r).isActive t = r.isActive t := by
  simp only [Runner.isActive, (clearBottomHalf_frames type r).1]

theorem raiseBottomHalf_asked (u : BottomHalf) (r : Runner) (t : BottomHalf) :
    (raiseBottomHalf (UInt32.ofNat u.bit) r).isAsked t = (r.isAsked t || decide (t = u)) := by
  have selected : (raiseBottomHalf (UInt32.ofNat u.bit) r).isSelected t = r.isSelected t := by
    simp only [Runner.isSelected, (raiseBottomHalf_frames _ r).1]
  simp only [Runner.isAsked, raiseBottomHalf_pending, selected, Bool.or_right_comm]

theorem raiseBottomHalf_asked_other (other : type ≠ UInt32.ofNat t.bit) (r : Runner) :
    (raiseBottomHalf type r).isAsked t = r.isAsked t := by
  obtain outside | ⟨u, rfl⟩ := type_cases type
  · rw [raiseBottomHalf_outside outside]
  · have different : t ≠ u := fun same => other (same ▸ rfl)
    simp [raiseBottomHalf_asked, different]

theorem raiseBottomHalf_asked_of (type : UInt32) (asked : r.isAsked t = true) :
    (raiseBottomHalf type r).isAsked t = true := by
  obtain outside | ⟨u, rfl⟩ := type_cases type
  · rw [raiseBottomHalf_outside outside]
    exact asked
  · rw [raiseBottomHalf_asked, asked, Bool.true_or]

theorem clearBottomHalf_asked_other (other : type ≠ UInt32.ofNat t.bit) (r : Runner) :
    (clearBottomHalf type r).isAsked t = r.isAsked t := by
  obtain outside | ⟨u, rfl⟩ := type_cases type
  · rw [clearBottomHalf_outside outside]
  · have different : t ≠ u := fun same => other (same ▸ rfl)
    have selected : (clearBottomHalf (UInt32.ofNat u.bit) r).isSelected t = r.isSelected t := by
      simp only [Runner.isSelected, (clearBottomHalf_frames _ r).1]
    simp [Runner.isAsked, clearBottomHalf_pending, selected, different]

theorem Runner.Ok.run_types (ok : r.Ok) (t : BottomHalf) :
    (runBottomHalves r).isAsked t = r.isAsked t ∧ (runBottomHalves r).isActive t = r.isActive t := by
  obtain ⟨-, same⟩ | ⟨frames, takes⟩ := ok.run_cases
  · rw [same]
    exact ⟨rfl, rfl⟩
  · have types := nextRound_types { r with running := true } t
    have none : r.isSelected t = false := by simp [Runner.isSelected, frames]
    have idle : r.isActive t = false := by simp [Runner.isActive, frames]
    rw [takes, idle, Runner.isAsked, Runner.isAsked, types.1, types.2.1, none, Bool.false_or, Bool.or_false]
    exact ⟨rfl, types.2.2⟩

theorem Runner.Ok.advance_asked (ok : r.Ok) (other : r.starts ≠ some t) :
    (advance r).isAsked t = r.isAsked t := by
  cases ok.advance_cases.2 with
  | same none within pending selected active =>
    simp only [Runner.isAsked, Runner.isPending, pending, selected]
  | started u starts pending was selected idle active =>
    have different : t ≠ u := fun same => other (same ▸ starts)
    simp [Runner.isAsked, Runner.isPending, pending, selected, different]
  | round none mask spent next =>
    have types := nextRound_types r t
    have empty : r.isSelected t = false := by simp [Runner.isSelected, spent]
    rw [next, Runner.isAsked, Runner.isAsked, types.1, types.2.1, empty, Bool.false_or, Bool.or_false]

theorem Runner.Ok.advance_active (ok : r.Ok) (t : BottomHalf) :
    (advance r).isActive t = (r.isActive t || decide (r.starts = some t)) := by
  cases ok.advance_cases.2 with
  | same none within pending selected active => simp [active, none]
  | started u starts pending was selected idle active => simp [active, idle, starts, eq_comm]
  | round none mask spent next =>
    have idle : r.isActive t = false := by simp [Runner.isActive, spent]
    simp [next, (nextRound_types r t).2.2, idle, none]

theorem Runner.Ok.starts_asked (ok : r.Ok) (starts : r.starts = some t) :
    r.isAsked t = true := by
  cases ok.advance_cases.2 with
  | same none | round none => simp [none] at starts
  | started u starts' pending was selected idle active =>
    obtain rfl : u = t := Option.some.inj (starts'.symm.trans starts)
    simp [Runner.isAsked, was]

theorem Runner.Ok.returns_asked (ok : r.Ok) (t : BottomHalf) :
    (handlerReturns r).isAsked t = r.isAsked t := by
  have types := ok.returns_types t
  rw [Runner.isAsked, Runner.isAsked, types.1, types.2.1]

theorem Runner.Ok.active_unique (ok : r.Ok) {u : BottomHalf} (first : r.isActive t = true)
    (second : r.isActive u = true) : t = u := by
  obtain ⟨frames, idle⟩ | ⟨⟨mask, left, active⟩, frames, running, okFrame⟩ := ok.alone
  · simp [Runner.isActive, frames] at first
  · have here : active = some t := by simpa [Runner.isActive, frames] using first
    have there : active = some u := by simpa [Runner.isActive, frames] using second
    exact Option.some.inj (here.symm.trans there)

end OrangeKernel.Irq
