import Mathlib.Data.List.Basic

set_option autoImplicit false

-- The input is the list of the bytes that `uart_recv` returns. A call that waits for one more has
-- no result.

namespace OrangeKernel.Shell

def cr : UInt8 := 13

def lf : UInt8 := 10

def keyBackspace : UInt8 := 127

structure Readline where
  buffer : List UInt8
  ignoreNextLf : Bool
  sent : List UInt8
deriving DecidableEq, Repr

-- `uart_send_string` sends a carriage return before every line feed.
def stringBytes (text : List UInt8) : List UInt8 := text.flatMap fun c => if c = lf then [cr, lf] else [c]

-- The second component tells whether the function returns.
def readByte (maxLen : Int) (c : UInt8) (r : Readline) : Readline × Bool :=
  if r.ignoreNextLf = true ∧ c = lf then ({ r with ignoreNextLf := false }, false)
  else if c = cr ∨ c = lf then
    ({ r with
        ignoreNextLf := c = cr
        sent := r.sent ++ stringBytes [cr, lf] }, true)
  else if c = keyBackspace ∨ c = 8 ∨ c = 127 then
    if r.buffer ≠ [] then
      ({ buffer := r.buffer.dropLast
         ignoreNextLf := false
         sent := r.sent ++ stringBytes [8, 32, 8] }, false)
    else ({ r with ignoreNextLf := false }, false)
  else if 32 ≤ c ∧ c ≤ 126 then
    if (r.buffer.length : Int) < maxLen - 1 then
      ({ buffer := r.buffer ++ [c]
         ignoreNextLf := false
         sent := r.sent ++ [c] }, false)
    else ({ r with ignoreNextLf := false }, false)
  else ({ r with ignoreNextLf := false }, false)

def readFrom (maxLen : Int) : (input : List UInt8) → Readline → Option (Readline × List UInt8)
  | [], _ => none
  | c :: rest, r =>
    if (readByte maxLen c r).2 then some ((readByte maxLen c r).1, rest)
    else readFrom maxLen rest (readByte maxLen c r).1

-- The two shells have the same code, each with variables of its own.
def readLine (maxLen : Int) (input : List UInt8) : Option (Readline × List UInt8) :=
  readFrom maxLen input { buffer := [], ignoreNextLf := false, sent := [] }

def shellReadline := readLine

def bootShellReadline := readLine

def buffers (reader : List UInt8 → Option (Readline × List UInt8)) :
    (calls : Nat) → List UInt8 → List (List UInt8)
  | 0, _ => []
  | calls + 1, input =>
    match reader input with
    | none => []
    | some (r, rest) => r.buffer :: buffers reader calls rest

def Printable (line : List UInt8) : Prop := ∀ c ∈ line, 32 ≤ c ∧ c ≤ 126

variable {maxLen : Int}

theorem readByte_printable {c : UInt8} (low : 32 ≤ c) (high : c ≤ 126) (r : Readline)
    (room : (r.buffer.length : Int) < maxLen - 1) :
    readByte maxLen c r =
      ({ buffer := r.buffer ++ [c], ignoreNextLf := false, sent := r.sent ++ [c] }, false) := by
  have least : 32 ≤ c.toNat := UInt8.le_iff_toNat_le.mp low
  have most : c.toNat ≤ 126 := UInt8.le_iff_toNat_le.mp high
  have other (x : UInt8) (outside : x.toNat < 32 ∨ 126 < x.toNat) : c ≠ x := by
    rintro rfl
    omega
  have notCr : c ≠ cr := other cr (by decide)
  have notLf : c ≠ lf := other lf (by decide)
  have notBackspace : c ≠ keyBackspace := other keyBackspace (by decide)
  have notErase : c ≠ 8 := other 8 (by decide)
  have notDelete : c ≠ 127 := other 127 (by decide)
  simp [readByte, notCr, notLf, notBackspace, notErase, notDelete, low, high, room]

variable {line : List UInt8}

theorem readFrom_printable (printable : Printable line) (rest : List UInt8) (r : Readline)
    (room : (r.buffer.length + line.length : Int) < maxLen) (off : r.ignoreNextLf = false) :
    readFrom maxLen (line ++ rest) r =
      readFrom maxLen rest { buffer := r.buffer ++ line, ignoreNextLf := false, sent := r.sent ++ line } := by
  induction line generalizing r with
  | nil => simp [← off]
  | cons c line ih =>
    obtain ⟨⟨low, high⟩, others⟩ := List.forall_mem_cons.mp printable
    rw [List.length_cons] at room
    have step := readByte_printable low high r (by omega : (r.buffer.length : Int) < maxLen - 1)
    rw [List.cons_append, readFrom, step]
    simp only [Bool.false_eq_true, if_false]
    rw [ih others _ (by simp only [List.length_append, List.length_singleton]; omega) rfl]
    simp

variable {e : UInt8}

theorem readFrom_end (ends : e = cr ∨ e = lf) (rest : List UInt8) {r : Readline} (off : r.ignoreNextLf = false) :
    ∃ r', readFrom maxLen (e :: rest) r = some (r', rest) ∧ r'.buffer = r.buffer := by
  refine ⟨{ r with ignoreNextLf := e = cr, sent := r.sent ++ stringBytes [cr, lf] }, ?_, rfl⟩
  simp [readFrom, readByte, off, ends]

theorem readLine_line (printable : Printable line) (short : (line.length : Int) < maxLen) (ends : e = cr ∨ e = lf)
    (rest : List UInt8) :
    ∃ r, readLine maxLen (line ++ e :: rest) = some (r, rest) ∧ r.buffer = line := by
  unfold readLine
  rw [readFrom_printable printable _ _ (by simpa using short) rfl]
  exact @readFrom_end maxLen e ends rest ⟨[] ++ line, false, [] ++ line⟩ rfl

def sentWith (ending : List UInt8) (lines : List (List UInt8)) : List UInt8 := lines.flatMap (· ++ ending)

theorem buffers_line (printable : Printable line) (short : (line.length : Int) < maxLen) (ends : e = cr ∨ e = lf)
    (rest : List UInt8) (calls : Nat) :
    buffers (readLine maxLen) (calls + 1) (line ++ e :: rest) = line :: buffers (readLine maxLen) calls rest := by
  obtain ⟨r, read, rfl⟩ := readLine_line printable short ends rest
  rw [buffers, read]

section

variable {lines : List (List UInt8)}

theorem buffers_nothing (maxLen : Int) (calls : Nat) : buffers (readLine maxLen) calls [] = [] := by
  cases calls <;> rfl

theorem buffers_single (ends : e = cr ∨ e = lf) (printable : ∀ line ∈ lines, Printable line)
    (short : ∀ line ∈ lines, (line.length : Int) < maxLen) {calls : Nat} (enough : lines.length ≤ calls) :
    buffers (readLine maxLen) calls (sentWith [e] lines) = lines := by
  induction lines generalizing calls with
  | nil => exact buffers_nothing maxLen calls
  | cons line lines ih =>
    obtain ⟨first, others⟩ := List.forall_mem_cons.mp printable
    obtain ⟨fits, shorts⟩ := List.forall_mem_cons.mp short
    obtain ⟨calls, rfl⟩ := Nat.exists_eq_add_of_le' (Nat.succ_le_of_lt (Nat.lt_of_lt_of_le (Nat.succ_pos _) enough))
    have input : sentWith [e] (line :: lines) = line ++ e :: sentWith [e] lines := by simp [sentWith]
    rw [input, buffers_line first fits ends, ih others shorts (Nat.le_of_succ_le_succ enough)]

theorem buffers_pair (printable : ∀ line ∈ lines, Printable line)
    (short : ∀ line ∈ lines, (line.length : Int) < maxLen) {calls : Nat} (enough : 2 * lines.length ≤ calls) :
    buffers (readLine maxLen) calls (sentWith [cr, lf] lines) = lines.flatMap fun line => [line, []] := by
  induction lines generalizing calls with
  | nil => exact buffers_nothing maxLen calls
  | cons line lines ih =>
    obtain ⟨first, others⟩ := List.forall_mem_cons.mp printable
    obtain ⟨fits, shorts⟩ := List.forall_mem_cons.mp short
    rw [List.length_cons] at enough
    obtain ⟨calls, rfl⟩ := Nat.exists_eq_add_of_le' (by omega : 2 ≤ calls)
    have input : sentWith [cr, lf] (line :: lines) = line ++ cr :: ([] ++ lf :: sentWith [cr, lf] lines) := by
      simp [sentWith]
    have empty : Printable [] := fun c member => by cases member
    have room : (([] : List UInt8).length : Int) < maxLen := by
      rw [List.length_nil]
      omega
    rw [input, buffers_line first fits (Or.inl rfl), buffers_line empty room (Or.inr rfl),
      ih others shorts (by omega)]
    simp

end

theorem length_pairs (lines : List (List UInt8)) :
    (lines.flatMap fun line => [line, []]).length = 2 * lines.length := by
  induction lines with
  | nil => rfl
  | cons line lines ih =>
    rw [List.flatMap_cons, List.length_append, ih, List.length_cons]
    simp only [List.length_cons, List.length_nil]
    omega

theorem shellReadline_lineEndings (maxLen : Int) (lines : List (List UInt8)) (calls : Nat)
    (printable : ∀ line ∈ lines, ∀ c ∈ line, 32 ≤ c ∧ c ≤ 126)
    (short : ∀ line ∈ lines, (line.length : Int) < maxLen) (enough : 2 * lines.length ≤ calls) :
    ∀ reader, reader = shellReadline maxLen ∨ reader = bootShellReadline maxLen →
      buffers reader calls (sentWith [cr] lines) = lines ∧ buffers reader calls (sentWith [lf] lines) = lines ∧
        buffers reader calls (sentWith [cr, lf] lines) = (lines.flatMap fun line => [line, []]) ∧
        (buffers reader calls (sentWith [cr, lf] lines) = lines ↔ lines = []) := by
  intro reader which
  obtain rfl : reader = readLine maxLen := which.elim id id
  have pairs := buffers_pair printable short enough
  refine ⟨buffers_single (Or.inl rfl) printable short (by omega),
    buffers_single (Or.inr rfl) printable short (by omega),
    pairs, fun same => ?_, fun empty => ?_⟩
  · rw [pairs] at same
    have length := congrArg List.length same
    rw [length_pairs] at length
    exact List.eq_nil_of_length_eq_zero (by omega)
  · rw [pairs, empty]
    rfl

theorem shellReadline_lineEndings_one :
    buffers (shellReadline 128) 2 [97, cr] = [[97]] ∧ buffers (shellReadline 128) 2 [97, lf] = [[97]] := by
  have all := shellReadline_lineEndings 128 [[97]] 2 (by simp) (by simp) (by decide) _ (Or.inl rfl)
  exact ⟨all.1, all.2.1⟩

theorem shellReadline_crlf_twice :
    buffers (shellReadline 128) 2 [97, cr, lf] = [[97], []] ∧
      buffers (bootShellReadline 128) 2 [97, cr, lf] = [[97], []] := by
  decide

end OrangeKernel.Shell
