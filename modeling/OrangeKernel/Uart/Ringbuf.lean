import Mathlib.Logic.Function.Basic
import OrangeKernel.Shared.Ring

set_option autoImplicit false

namespace OrangeKernel.Uart

def ringbufCapacity : UInt32 := 128

structure Ringbuf where
  data : UInt32 → UInt8
  head : UInt32
  tail : UInt32
  count : UInt32

def ringbufInit (rb : Ringbuf) : Ringbuf :=
  { rb with
    head := 0
    tail := 0
    count := 0 }

def ringbufIsEmpty (rb : Ringbuf) : Bool := rb.count = 0

def ringbufIsFull (rb : Ringbuf) : Bool := rb.count = ringbufCapacity

-- `none` is the answer -1.
def ringbufPush (c : UInt8) (rb : Ringbuf) : Option Ringbuf :=
  if ringbufIsFull rb then none
  else some
    { data := Function.update rb.data rb.head c
      head := (rb.head + 1) % ringbufCapacity
      tail := rb.tail
      count := rb.count + 1 }

def ringbufPop (rb : Ringbuf) : Option (UInt8 × Ringbuf) :=
  if ringbufIsEmpty rb then none
  else some (rb.data rb.tail,
    { rb with
      tail := (rb.tail + 1) % ringbufCapacity
      count := rb.count - 1 })

def Ringbuf.size (rb : Ringbuf) : Nat := rb.count.toNat

variable {c : UInt8} {rb : Ringbuf}

theorem ringbufPush_size {pushed : Ringbuf} (bounded : rb.size ≤ 128)
    (push : ringbufPush c rb = some pushed) : pushed.size = rb.size + 1 ∧ pushed.size ≤ 128 := by
  unfold ringbufPush at push
  split at push
  · cases push
  next space =>
    have notFull : rb.count ≠ ringbufCapacity := by simpa [ringbufIsFull] using space
    have below : rb.count.toNat ≠ 128 := fun same => notFull (UInt32.toNat_inj.mp same)
    cases push
    simp only [Ringbuf.size, UInt32.toNat_add, UInt32.reduceToNat] at bounded ⊢
    omega

theorem ringbufPop_size {popped : Ringbuf} (pop : ringbufPop rb = some (c, popped)) :
    popped.size + 1 = rb.size := by
  unfold ringbufPop at pop
  split at pop
  · cases pop
  next filled =>
    have notEmpty : rb.count ≠ 0 := by simpa [ringbufIsEmpty] using filled
    have positive : rb.count.toNat ≠ 0 := fun same => notEmpty (UInt32.toNat_inj.mp same)
    have bound := rb.count.toNat_lt
    cases pop
    simp only [Ringbuf.size, UInt32.toNat_sub, UInt32.reduceToNat]
    omega

theorem ringbufPop_none (pop : ringbufPop rb = none) : rb.size = 0 := by
  unfold ringbufPop at pop
  split at pop
  next empty =>
    simp only [ringbufIsEmpty, decide_eq_true_eq] at empty
    simp [Ringbuf.size, empty]
  · cases pop

open CircularWindow

structure Ringbuf.Ok (rb : Ringbuf) : Prop where
  tail_lt : rb.tail.toNat < 128
  count_le : rb.size ≤ 128
  head_eq : rb.head.toNat = (rb.tail.toNat + rb.size) % 128

def Ringbuf.cells (rb : Ringbuf) (i : Nat) : UInt8 := rb.data (UInt32.ofNat i)

def Ringbuf.contents (rb : Ringbuf) : List UInt8 := window rb.cells 128 rb.tail.toNat rb.size

theorem ringbufInit_ok (rb : Ringbuf) : (ringbufInit rb).Ok := by
  constructor <;> simp [ringbufInit, Ringbuf.size]

theorem Ringbuf.contents_eq_nil : rb.contents = [] ↔ rb.size = 0 := by
  rw [← List.length_eq_zero_iff, Ringbuf.contents, length_window]

theorem ringbufIsEmpty_iff (rb : Ringbuf) : ringbufIsEmpty rb = true ↔ rb.contents = [] := by
  rw [Ringbuf.contents_eq_nil]
  simp [ringbufIsEmpty, Ringbuf.size, ← UInt32.toNat_inj]

theorem ringbufIsFull_iff (rb : Ringbuf) : ringbufIsFull rb = true ↔ rb.size = 128 := by
  simp [ringbufIsFull, ringbufCapacity, Ringbuf.size, ← UInt32.toNat_inj]

theorem succ_mod_toNat (i : UInt32) :
    ((i + 1) % ringbufCapacity).toNat = (i.toNat + 1) % 128 := by
  simp only [ringbufCapacity, UInt32.toNat_mod, UInt32.toNat_add, UInt32.reduceToNat]
  omega

theorem ringbufPush_contents {pushed : Ringbuf} (ok : rb.Ok) (push : ringbufPush c rb = some pushed) :
    pushed.Ok ∧ pushed.contents = rb.contents ++ [c] ∧ rb.size < 128 := by
  obtain ⟨grown, bounded⟩ := ringbufPush_size ok.count_le push
  unfold ringbufPush at push
  split at push
  · cases push
  next space =>
    cases push
    refine ⟨⟨ok.tail_lt, bounded, ?_⟩, ?_, by omega⟩
    · rw [grown, succ_mod_toNat, ok.head_eq, Nat.mod_add_mod, Nat.add_assoc]
    · unfold Ringbuf.contents
      rw [grown, ← window_push rb.cells (by omega) c]
      refine window_congr (by decide) (fun i small => ?_) _ _
      rw [← ok.head_eq]
      by_cases here : i = rb.head.toNat
      · subst here
        simp [Ringbuf.cells]
      · have other : UInt32.ofNat i ≠ rb.head := fun same => here (by
          rw [← same, UInt32.toNat_ofNat']
          omega)
        simp [Ringbuf.cells, here, other]

theorem ringbufPush_none (push : ringbufPush c rb = none) : rb.size = 128 := by
  unfold ringbufPush at push
  split at push
  next full => exact (ringbufIsFull_iff rb).mp full
  · cases push

theorem ringbufPop_contents {popped : Ringbuf} (ok : rb.Ok) (pop : ringbufPop rb = some (c, popped)) :
    popped.Ok ∧ rb.contents = c :: popped.contents := by
  have shrunk := ringbufPop_size pop
  unfold ringbufPop at pop
  split at pop
  · cases pop
  next filled =>
    cases pop
    have tail := succ_mod_toNat rb.tail
    refine ⟨⟨?_, ?_, ?_⟩, ?_⟩
    · rw [tail]
      exact Nat.mod_lt _ (by decide)
    · have := ok.count_le
      omega
    · dsimp only
      rw [tail, ok.head_eq, ← shrunk, Nat.mod_add_mod]
      congr 1
      omega
    · unfold Ringbuf.contents
      rw [← shrunk, window_pop, Nat.mod_eq_of_lt ok.tail_lt]
      dsimp only
      rw [tail, Ringbuf.cells, UInt32.ofNat_toNat]
      rfl

end OrangeKernel.Uart
