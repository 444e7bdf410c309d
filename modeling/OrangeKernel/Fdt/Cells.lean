import OrangeKernel.Fdt.Blob
import OrangeKernel.Shared.Answers

set_option autoImplicit false

namespace OrangeKernel.Fdt

open ByteScan

variable {ending : Prop}

def CellIs (bytes : List UInt8) (i v : Nat) : Prop := ∀ fuel, cell bytes i fuel = .ok v

structure Terminated (bytes : List UInt8) (start n : Nat) : Prop where
  nul : bytes[start + n]? = some 0
  chars : ∀ i < n, bytes[start + i]? ≠ some 0

variable {bytes : List UInt8} {start : Nat}

theorem Terminated.inside {n : Nat} (string : Terminated bytes start n) :
    start + n < bytes.length :=
  (List.getElem?_eq_some_iff.mp string.nul).1

theorem Terminated.text {n : Nat} (string : Terminated bytes start n) :
    ∃ text : Text, text.chars.length = n ∧ Holds bytes start text.bytes := by
  have inside := string.inside
  have slice : Holds bytes start ((bytes.drop start).take n) := Holds.slice (by omega)
  have length : ((bytes.drop start).take n).length = n := by
    rw [List.length_take, List.length_drop]
    omega
  have noNul : 0 ∉ (bytes.drop start).take n := by
    intro mem
    obtain ⟨i, less, here⟩ := List.getElem_of_mem mem
    have found := slice.getElem? less
    rw [List.getElem?_eq_getElem less, here] at found
    exact string.chars i (by omega) found
  have nul : Holds bytes (start + ((bytes.drop start).take n).length) [0] :=
    Holds.byte (by rw [length]; exact string.nul)
  exact ⟨⟨_, noNul⟩, length, slice.append nul⟩

theorem Text.terminatedAt (t : Text) (holds : Holds bytes start t.bytes) :
    Terminated bytes start t.chars.length where
  nul := by
    rw [holds.getElem? (by rw [t.bytes_length]; omega)]
    simp [Text.bytes]
  chars := by
    intro i less found
    rw [holds.getElem? (by rw [t.bytes_length]; omega), Text.bytes, List.getElem?_append_left less] at found
    exact t.noNul (List.mem_of_getElem? found)

theorem Text.terminated (t : Text) : Terminated t.bytes 0 t.chars.length := t.terminatedAt (Holds.whole _)

theorem cell_runs {i : Nat} (inside : i + 4 ≤ bytes.length) :
    Runs ending (cell bytes i) (CellIs bytes i) := by
  have loads : Runs ending (load32 bytes i) fun _ => True := by
    refine (Runs.byteAt (by omega)).bind fun b0 _ => ?_
    refine (Runs.byteAt (by omega)).bind fun b1 _ => ?_
    refine (Runs.byteAt (by omega)).bind fun b2 _ => ?_
    exact (Runs.byteAt (by omega)).bind fun b3 _ => Runs.pure trivial
  have reads : Runs ending (cell bytes i) fun _ => True := loads.bind fun _ _ => Runs.pure trivial
  -- No loop is involved, so the fuel plays no part.
  refine reads.answers.weaken fun v answer later => ?_
  obtain ⟨fuel, answered⟩ := answer
  exact answered

theorem CellIs.runs {i v : Nat} (known : CellIs bytes i v) :
    Gives ending (cell bytes i) v :=
  Runs.always known rfl

theorem CellIs.unique {i v w : Nat} (left : CellIs bytes i v) (right : CellIs bytes i w) :
    v = w :=
  Except.ok.inj ((left 0).symm.trans (right 0))

theorem strLen_runs {s : List UInt8} {n : Nat} (string : Terminated s start n) (short : ending → n < 2 ^ 32) :
    Gives ending (strLen s start) n := by
  refine Runs.loop (fun i => i ≤ n) (fun i => n - i) (fun i le => ?_) (Nat.zero_le n)
  refine (Runs.byteAt (by have := string.inside; omega)).bind fun c here => ?_
  split
  next more =>
    -- The NUL is further on, so the counter is still below it, wrapped or not.
    have less : i < n := by
      rcases Nat.lt_or_eq_of_le le with less | rfl
      · exact less
      · exact absurd (Option.some.inj (here.symm.trans string.nul)) more
    refine Runs.pure ⟨(Nat.mod_le _ _).trans less, fun reached => ?_⟩
    have bound := short reached
    omega
  next found =>
    refine Runs.pure (Nat.le_antisymm (Nat.not_lt.mp fun less => ?_) le)
    exact string.chars i less (by rw [here, not_ne_iff.mp found])

theorem scanNul_finds {room : Nat} (inside : start + room ≤ bytes.length) :
    Runs ending (scanNul bytes start room) fun n =>
      (∀ i < n, bytes[start + i]? ≠ some 0) ∧ (n = room ∨ n < room ∧ bytes[start + n]? = some 0) := by
  refine Runs.loop (fun n => n ≤ room ∧ ∀ i < n, bytes[start + i]? ≠ some 0) (fun n => room - n)
    (fun n kept => ?_)
    ⟨Nat.zero_le _, fun i less => absurd less (Nat.not_lt_zero i)⟩
  split
  next less =>
    refine (Runs.byteAt (by omega)).bind fun c here => ?_
    split
    next more =>
      refine Runs.pure ⟨⟨less, fun i before => ?_⟩, fun _ => by omega⟩
      rcases Nat.lt_succ_iff_lt_or_eq.mp before with old | rfl
      · exact kept.2 i old
      · rw [here]
        exact fun same => more (Option.some.inj same)
    next found => exact Runs.pure ⟨kept.2, Or.inr ⟨less, by rw [here, not_ne_iff.mp found]⟩⟩
  next full => exact Runs.pure ⟨kept.2, Or.inl (by omega)⟩

structure BlocksOk (bytes : List UInt8) (blocks : Blocks) : Prop where
  stop : blocks.stop ≤ bytes.length
  strings : blocks.strings + blocks.stringSize ≤ bytes.length
  small : blocks.stop < 2 ^ 31

-- A buffer without a header declares nothing.
def Blob.declared (fdt : Blob) : Nat :=
  match fdt.totalsize 0 with
  | .ok total => total
  | .error _ => 0

theorem Blob.declared_eq {fdt : Blob} {total : Nat} (known : CellIs fdt.bytes 4 total) : fdt.declared = total := by
  have read : fdt.totalsize 0 = .ok total := known 0
  simp only [Blob.declared, read]

def Accepts (fdt : Blob) : Prop := ∃ fuel, fdtCheckHeader fdt fuel = .ok 0

def sampleBlob : Blob where
  addr := 0x40000000
  bytes := [0xd0, 0x0d, 0xfe, 0xed, 0, 0, 0, 86, 0, 0, 0, 56, 0, 0, 0, 84, 0, 0, 0, 40, 0, 0, 0, 17, 0, 0, 0, 16,
      0, 0, 0, 0, 0, 0, 0, 2, 0, 0, 0, 28] ++ List.replicate 16 0 ++
    [0, 0, 0, 1, 0, 0, 0, 0, 0, 0, 0, 3, 0, 0, 0, 0, 0, 0, 0, 0, 0, 0, 0, 2, 0, 0, 0, 9] ++ [97, 0]

theorem sampleBlob_accepted : Accepts sampleBlob := ⟨100, by decide +kernel⟩

def memoryBlob : Blob where
  addr := 0x40000000
  bytes := [0xd0, 0x0d, 0xfe, 0xed, 0, 0, 0, 136, 0, 0, 0, 72, 0, 0, 0, 132, 0, 0, 0, 40, 0, 0, 0, 17, 0, 0, 0, 16,
      0, 0, 0, 0, 0, 0, 0, 4, 0, 0, 0, 60] ++
    [0, 0, 0, 0, 0x80, 0, 0, 0, 0, 0, 0, 0, 0, 0, 0x10, 0] ++ List.replicate 16 0 ++
    [0, 0, 0, 1, 0, 0, 0, 0] ++ [0, 0, 0, 1, 109, 101, 109, 111, 114, 121, 0, 0] ++
    [0, 0, 0, 3, 0, 0, 0, 16, 0, 0, 0, 0, 0, 0, 0, 1, 0, 0, 0, 0, 0, 0, 0, 0, 0x40, 0, 0, 0] ++
    [0, 0, 0, 2, 0, 0, 0, 2, 0, 0, 0, 9] ++ (Text.ofAscii "reg").bytes

theorem memoryBlob_accepted : Accepts memoryBlob := ⟨300, by decide +kernel⟩

theorem memoryBlob_whole : memoryBlob.declared ≤ memoryBlob.bytes.length := by decide +kernel

end OrangeKernel.Fdt
