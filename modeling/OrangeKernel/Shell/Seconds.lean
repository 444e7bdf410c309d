import OrangeKernel.Shared.Decimal

set_option autoImplicit false

-- A string is the list of its bytes before the NUL. A loop that does not end and a 64-bit sum or
-- product that wraps are faults.

namespace OrangeKernel.Shell

open DecimalText

inductive Fault where
  | endless
  | wrapped
deriving DecidableEq, Repr

def uint64Max : UInt64 := 0xffffffffffffffff

def compute (n : Nat) : Except Fault UInt64 :=
  if n < 2 ^ 64 then pure (UInt64.ofNat n) else throw .wrapped

structure Seconds where
  whole : UInt64
  frac : UInt64
  fracScale : UInt64
  seenDot : Bool
  seenDigit : Bool
deriving DecidableEq, Repr

-- `none` is `return -1`.
def Seconds.take (c : UInt8) (p : Seconds) : Except Fault (Option Seconds) :=
  if c = point then
    if p.seenDot then pure none else pure (some { p with seenDot := true })
  else if c < 48 ∨ 57 < c then pure none
  else
    let digit := (c - 48).toUInt64
    if p.seenDot = false then
      if p.whole > (uint64Max - digit) / 10 then pure none
      else do
        let whole ← compute (p.whole.toNat * 10 + digit.toNat)
        pure (some { p with whole := whole, seenDigit := true })
    else if p.fracScale ≥ 1000 then pure none
    else do
      let frac ← compute (p.frac.toNat * 10 + digit.toNat)
      let fracScale ← compute (p.fracScale.toNat * 10)
      pure (some { p with frac := frac, fracScale := fracScale, seenDigit := true })

-- The index is an `unsigned int`.
def takeFrom (s : List UInt8) : (fuel : Nat) → (i : UInt32) → Seconds → Except Fault (Option Seconds)
  | 0, _, _ => throw .endless
  | fuel + 1, i, p =>
    if s.getD i.toNat 0 = 0 then pure (some p)
    else do
      match ← p.take (s.getD i.toNat 0) with
      | none => pure none
      | some next => takeFrom s fuel (i + 1) next

def ticksOf (timebaseFrequency : UInt32) (p : Seconds) : Except Fault (Option UInt64) := do
  let product ← compute (p.frac.toNat * timebaseFrequency.toNat)
  let fractionTicks := product / p.fracScale
  if p.whole > (uint64Max - fractionTicks) / timebaseFrequency.toUInt64 then pure none
  else some <$> compute (p.whole.toNat * timebaseFrequency.toNat + fractionTicks.toNat)

def parseSecondsToTicks (timebaseFrequency : UInt32) (s : List UInt8) (fuel : Nat) (ticksOut wholeOut : UInt64) :
    Except Fault (Int × UInt64 × UInt64) := do
  if s.getD 0 0 = 0 ∨ timebaseFrequency = 0 then return (-1, ticksOut, wholeOut)
  match ← takeFrom s fuel 0 { whole := 0, frac := 0, fracScale := 1, seenDot := false, seenDigit := false } with
  | none => return (-1, ticksOut, wholeOut)
  | some p =>
    if p.seenDigit = false then return (-1, ticksOut, wholeOut)
    match ← ticksOf timebaseFrequency p with
    | none => return (-1, ticksOut, wholeOut)
    | some ticks => return (0, ticks, p.whole)

def takeAll : List UInt8 → Seconds → Except Fault (Option Seconds)
  | [], p => pure (some p)
  | c :: rest, p => do
    match ← p.take c with
    | none => pure none
    | some next => takeAll rest next

theorem takeFrom_eq {s : List UInt8} (noNul : 0 ∉ s) (short : s.length < 2 ^ 32) (fuel : Nat) {i : UInt32}
    (inside : i.toNat ≤ s.length) (enough : s.length - i.toNat < fuel) (p : Seconds) :
    takeFrom s fuel i p = takeAll (s.drop i.toNat) p := by
  induction fuel generalizing i p with
  | zero => exact absurd enough (Nat.not_lt_zero _)
  | succ fuel ih =>
    unfold takeFrom
    rcases Nat.lt_or_ge i.toNat s.length with more | finished
    · have next : (i + 1).toNat = i.toNat + 1 := by
        simp only [UInt32.toNat_add, UInt32.reduceToNat]
        omega
      have here : s.getD i.toNat 0 = s[i.toNat] := by simp [more]
      have character : s[i.toNat] ≠ 0 := fun nul => noNul (nul ▸ List.getElem_mem more)
      rw [here, if_neg character, List.drop_eq_getElem_cons more, takeAll]
      congr 1
      funext answer
      cases answer with
      | none => rfl
      | some next' =>
        rw [← next]
        exact ih (by omega) (by omega) next'
    · have ended : s.getD i.toNat 0 = 0 := by simp [List.getD, finished]
      rw [if_pos ended, List.drop_eq_nil_of_le finished, takeAll]

variable {n : Nat}

theorem compute_of_lt (fits : n < 2 ^ 64) : compute n = .ok (UInt64.ofNat n) := if_pos fits

theorem guard_iff (w a m : UInt64) (positive : 0 < m.toNat) :
    w > (uint64Max - a) / m ↔ 2 ^ 64 ≤ w.toNat * m.toNat + a.toNat := by
  have most : uint64Max.toNat = 2 ^ 64 - 1 := rfl
  have small := a.toNat_lt
  rw [gt_iff_lt, UInt64.lt_iff_toNat_lt, UInt64.toNat_div,
    UInt64.toNat_sub_of_le _ _ (UInt64.le_iff_toNat_le.mpr (by omega)), most, Nat.div_lt_iff_lt_mul positive]
  omega

variable {c : UInt8}

theorem digit_toNat (isDigit : IsDigit c) : (c - 48).toUInt64.toNat = digit c := by
  rw [UInt8.toNat_toUInt64, UInt8.toNat_sub_of_le _ _ isDigit.1]
  rfl

def beforeDot (n : Nat) (seen : Bool) : Seconds :=
  { whole := UInt64.ofNat n, frac := 0, fracScale := 1, seenDot := false, seenDigit := seen }

def behindDot (n k j : Nat) (seen : Bool) : Seconds :=
  { whole := UInt64.ofNat n, frac := UInt64.ofNat k, fracScale := UInt64.ofNat (10 ^ j), seenDot := true,
    seenDigit := seen }

theorem take_whole (isDigit : IsDigit c) (fits : n < 2 ^ 64) (seen : Bool) :
    (beforeDot n seen).take c =
      .ok (if n * 10 + digit c < 2 ^ 64 then some (beforeDot (n * 10 + digit c) true) else none) := by
  have number := UInt64.toNat_ofNat_of_lt' fits
  have exceeds : UInt64.ofNat n > (uint64Max - (c - 48).toUInt64) / 10 ↔ 2 ^ 64 ≤ n * 10 + digit c := by
    have guard := guard_iff (UInt64.ofNat n) (c - 48).toUInt64 10 (by decide)
    rw [digit_toNat isDigit, number] at guard
    exact guard
  simp only [Seconds.take, if_neg isDigit.not_point, if_neg isDigit.in_range, beforeDot, if_true, exceeds, number,
    digit_toNat isDigit]
  split
  next wraps => rw [if_neg (Nat.not_lt.mpr wraps)]; rfl
  next room => rw [compute_of_lt (Nat.not_le.mp room), if_pos (Nat.not_le.mp room)]; rfl

variable {k j : Nat}

theorem take_frac (isDigit : IsDigit c) (below : k < 10 ^ j) (few : j ≤ 3) (n : Nat) (seen : Bool) :
    (behindDot n k j seen).take c =
      .ok (if j < 3 then some (behindDot n (k * 10 + digit c) (j + 1) true) else none) := by
  have least := isDigit.lt
  have scale : 10 ^ j ≤ 1000 := Nat.pow_le_pow_right (by decide) few
  have number : (UInt64.ofNat k).toNat = k := UInt64.toNat_ofNat_of_lt' (show k < 2 ^ 64 by omega)
  have power : (UInt64.ofNat (10 ^ j)).toNat = 10 ^ j :=
    UInt64.toNat_ofNat_of_lt' (show 10 ^ j < 2 ^ 64 by omega)
  have full : UInt64.ofNat (10 ^ j) ≥ 1000 ↔ ¬ j < 3 := by
    rw [ge_iff_le, UInt64.le_iff_toNat_le, power, Nat.not_lt]
    exact Nat.pow_le_pow_iff_right (a := 10) (n := 3) (by decide)
  simp only [Seconds.take, if_neg isDigit.not_point, if_neg isDigit.in_range, behindDot, full, number, power,
    digit_toNat isDigit, Bool.true_eq_false, if_false, ite_not]
  split
  next room =>
    rw [compute_of_lt (by omega), compute_of_lt (by omega), ← Nat.pow_succ]
    rfl
  · rfl

variable {p : Seconds}

theorem takeAll_some {next : Seconds} (rest : List UInt8) (taken : p.take c = .ok (some next)) :
    takeAll (c :: rest) p = takeAll rest next := by
  rw [takeAll, taken]
  rfl

theorem takeAll_none (rest : List UInt8) (taken : p.take c = .ok none) :
    takeAll (c :: rest) p = .ok none := by
  rw [takeAll, taken]
  rfl

theorem takeAll_whole {w : List UInt8} (digits : ∀ c ∈ w, IsDigit c) (rest : List UInt8)
    (fits : n < 2 ^ 64) (seen : Bool) :
    takeAll (w ++ rest) (beforeDot n seen) =
      if extend n w < 2 ^ 64 then takeAll rest (beforeDot (extend n w) (seen || !w.isEmpty)) else .ok none := by
  induction w generalizing n seen with
  | nil =>
    rw [extend_nil, if_pos fits, List.isEmpty_nil, Bool.not_true, Bool.or_false, List.nil_append]
  | cons c w ih =>
    obtain ⟨first, others⟩ := List.forall_mem_cons.mp digits
    have taken := take_whole first fits seen
    by_cases room : n * 10 + digit c < 2 ^ 64
    · rw [if_pos room] at taken
      rw [List.cons_append, takeAll_some _ taken, ih others room, Bool.true_or]
      simp only [extend_cons, List.isEmpty_cons, Bool.not_false, Bool.or_true]
    · rw [if_neg room] at taken
      have larger := le_extend (n * 10 + digit c) w
      rw [List.cons_append, takeAll_none _ taken, extend_cons, if_neg (by omega)]

theorem takeAll_frac {frac : List UInt8} (digits : ∀ c ∈ frac, IsDigit c) (below : k < 10 ^ j)
    (few : j + frac.length ≤ 3) (n : Nat) (seen : Bool) :
    takeAll frac (behindDot n k j seen) =
      .ok (some (behindDot n (extend k frac) (j + frac.length) (seen || !frac.isEmpty))) := by
  induction frac generalizing k j seen with
  | nil =>
    rw [List.isEmpty_nil, Bool.not_true, Bool.or_false]
    rfl
  | cons c frac ih =>
    obtain ⟨first, others⟩ := List.forall_mem_cons.mp digits
    have length : j + (c :: frac).length = j + 1 + frac.length := by
      rw [List.length_cons, Nat.add_right_comm, Nat.add_assoc]
    rw [length] at few ⊢
    have taken := take_frac first below (by omega) n seen
    rw [if_pos (by omega)] at taken
    rw [takeAll_some _ taken, ih others (first.next_lt below) few true]
    simp only [extend_cons, List.isEmpty_cons, Bool.not_false, Bool.or_true, Bool.true_or]

theorem takeAll_frac_cases (s : List UInt8) (below : k < 10 ^ j) (few : j ≤ 3) (n : Nat) (seen : Bool) :
    takeAll s (behindDot n k j seen) = .ok none ∨ (∀ c ∈ s, IsDigit c) ∧ j + s.length ≤ 3 := by
  induction s generalizing k j seen with
  | nil => exact Or.inr ⟨by simp, few⟩
  | cons c s ih =>
    by_cases isDigit : IsDigit c
    · have taken := take_frac isDigit below few n seen
      split at taken
      next room =>
        rw [takeAll_some _ taken]
        refine (ih (isDigit.next_lt below) room true).imp_right fun rest =>
          ⟨List.forall_mem_cons.mpr ⟨isDigit, rest.1⟩, ?_⟩
        rw [List.length_cons]
        omega
      · exact Or.inl (takeAll_none _ taken)
    · refine Or.inl (takeAll_none _ ?_)
      unfold Seconds.take
      split
      · rfl
      · rw [if_pos (not_digit isDigit)]; rfl

theorem takeAll_cases (s : List UInt8) (fits : n < 2 ^ 64) (seen : Bool) :
    takeAll s (beforeDot n seen) = .ok none ∨
      ∃ whole fraction, s = spelled whole fraction ∧ (∀ c ∈ whole ++ fraction.getD [], IsDigit c) ∧
        (fraction.getD []).length ≤ 3 := by
  induction s generalizing n seen with
  | nil => exact Or.inr ⟨[], none, rfl, by simp, by simp⟩
  | cons c s ih =>
    by_cases dot : c = point
    · subst dot
      have taken : (beforeDot n seen).take point = .ok (some (behindDot n 0 0 seen)) := rfl
      rw [takeAll_some _ taken]
      refine (takeAll_frac_cases s (by decide) (by decide) n seen).imp_right fun rest => ?_
      exact ⟨[], some s, rfl, rest.1, by simpa using rest.2⟩
    by_cases isDigit : IsDigit c
    · have taken := take_whole isDigit fits seen
      split at taken
      next room =>
        rw [takeAll_some _ taken]
        refine (ih room true).imp_right ?_
        rintro ⟨whole, fraction, rfl, digits, short⟩
        exact ⟨c :: whole, fraction, by cases fraction <;> rfl, List.forall_mem_cons.mpr ⟨isDigit, digits⟩,
          short⟩
      · exact Or.inl (takeAll_none _ taken)
    · refine Or.inl (takeAll_none _ ?_)
      rw [Seconds.take, if_neg dot, if_pos (not_digit isDigit)]
      rfl

def readDecimal (d : Decimal 3) (seenDot : Bool) : Seconds :=
  { whole := UInt64.ofNat (extend 0 d.whole)
    frac := UInt64.ofNat (extend 0 (d.fraction.getD []))
    fracScale := UInt64.ofNat (10 ^ (d.fraction.getD []).length)
    seenDot := seenDot
    seenDigit := true }

theorem takeAll_decimal (d : Decimal 3) :
    takeAll d.text (beforeDot 0 false) =
      if extend 0 d.whole < 2 ^ 64 then .ok (some (readDecimal d d.fraction.isSome)) else .ok none := by
  obtain ⟨whole, fraction, digits, nonempty, short⟩ := d
  obtain ⟨wholeDigits, fracDigits⟩ := List.forall_mem_append.mp digits
  cases fraction with
  | none =>
    have some : whole.isEmpty = false := by simpa using nonempty
    have walk := takeAll_whole wholeDigits [] (by decide : 0 < 2 ^ 64) false
    rw [List.append_nil, some] at walk
    exact walk
  | some frac =>
    rw [Option.getD_some] at nonempty short fracDigits
    have some : (!whole.isEmpty || !frac.isEmpty) = true := by
      cases whole <;> cases frac <;> simp_all
    have walk := takeAll_whole wholeDigits (point :: frac) (by decide : 0 < 2 ^ 64) false
    have dot : (beforeDot (extend 0 whole) (false || !whole.isEmpty)).take point =
        .ok (.some (behindDot (extend 0 whole) 0 0 (!whole.isEmpty))) := rfl
    have last := takeAll_frac fracDigits (by decide : 0 < 10 ^ 0) (by simpa using short) (extend 0 whole)
      (!whole.isEmpty)
    rw [takeAll_some _ dot, last, some, Nat.zero_add] at walk
    exact walk

variable {timebaseFrequency : UInt32}

theorem ticksOf_eq {product : UInt64} (known : compute (p.frac.toNat * timebaseFrequency.toNat) = .ok product) :
    ticksOf timebaseFrequency p =
      if p.whole > (uint64Max - product / p.fracScale) / timebaseFrequency.toUInt64 then .ok none
      else some <$> compute (p.whole.toNat * timebaseFrequency.toNat + (product / p.fracScale).toNat) := by
  simp only [ticksOf, known, bind, Except.bind, pure, Except.pure]

theorem ticksOf_decimal (timebaseFrequency : UInt32) (positive : 0 < timebaseFrequency.toNat) (d : Decimal 3)
    (fits : extend 0 d.whole < 2 ^ 64) (seenDot : Bool) :
    ticksOf timebaseFrequency (readDecimal d seenDot) =
      .ok (if ⌊d.value * timebaseFrequency.toNat⌋₊ < 2 ^ 64
        then some (UInt64.ofNat ⌊d.value * timebaseFrequency.toNat⌋₊) else none) := by
  have below := d.fraction_lt
  have scale : 10 ^ (d.fraction.getD []).length ≤ 1000 := Nat.pow_le_pow_right (by decide) d.short
  have frequency := timebaseFrequency.toNat_lt
  have whole : (readDecimal d seenDot).whole.toNat = extend 0 d.whole := UInt64.toNat_ofNat_of_lt' fits
  have frac : (readDecimal d seenDot).frac.toNat = extend 0 (d.fraction.getD []) :=
    UInt64.toNat_ofNat_of_lt' (show extend 0 (d.fraction.getD []) < 2 ^ 64 by omega)
  have power : (readDecimal d seenDot).fracScale.toNat = 10 ^ (d.fraction.getD []).length :=
    UInt64.toNat_ofNat_of_lt' (show 10 ^ (d.fraction.getD []).length < 2 ^ 64 by omega)
  rw [d.floor_mul]
  generalize readDecimal d seenDot = p at whole frac power ⊢
  generalize extend 0 d.whole = n at whole ⊢
  generalize extend 0 (d.fraction.getD []) = k at below frac ⊢
  generalize 10 ^ (d.fraction.getD []).length = q at below scale power ⊢
  have product : p.frac.toNat * timebaseFrequency.toNat < 2 ^ 64 := by
    have bound := Nat.mul_le_mul (by omega : p.frac.toNat ≤ 1000) frequency.le
    omega
  have fraction : (UInt64.ofNat (p.frac.toNat * timebaseFrequency.toNat) / p.fracScale).toNat =
      k * timebaseFrequency.toNat / q := by
    rw [UInt64.toNat_div, UInt64.toNat_ofNat_of_lt' product, power, frac]
  have exceeds := guard_iff p.whole (UInt64.ofNat (p.frac.toNat * timebaseFrequency.toNat) / p.fracScale)
    timebaseFrequency.toUInt64 (by rwa [UInt32.toNat_toUInt64])
  rw [whole, fraction, UInt32.toNat_toUInt64] at exceeds
  rw [ticksOf_eq (compute_of_lt product), whole, fraction]
  by_cases room : n * timebaseFrequency.toNat + k * timebaseFrequency.toNat / q < 2 ^ 64
  · rw [if_neg fun wraps => Nat.not_lt.mpr (exceeds.mp wraps) room, if_pos room, compute_of_lt room]
    rfl
  · rw [if_pos (exceeds.mpr (Nat.not_lt.mp room)), if_neg room]

section

variable {s : List UInt8} (first : ¬ (s.getD 0 0 = 0 ∨ timebaseFrequency = 0)) {fuel : Nat}
  (ticksOut wholeOut : UInt64)
include first

theorem parse_none (walk : takeFrom s fuel 0 (beforeDot 0 false) = .ok none) :
    parseSecondsToTicks timebaseFrequency s fuel ticksOut wholeOut = .ok (-1, ticksOut, wholeOut) := by
  have start : takeFrom s fuel 0
      { whole := 0, frac := 0, fracScale := 1, seenDot := false, seenDigit := false } = .ok none := walk
  simp only [parseSecondsToTicks, if_neg first, start, bind, Except.bind, pure, Except.pure]

theorem parse_unseen (walk : takeFrom s fuel 0 (beforeDot 0 false) = .ok (some p))
    (unseen : p.seenDigit = false) :
    parseSecondsToTicks timebaseFrequency s fuel ticksOut wholeOut = .ok (-1, ticksOut, wholeOut) := by
  have start : takeFrom s fuel 0
      { whole := 0, frac := 0, fracScale := 1, seenDot := false, seenDigit := false } = .ok (some p) := walk
  simp only [parseSecondsToTicks, if_neg first, start, unseen, bind, Except.bind, pure, Except.pure, if_true]

theorem parse_seen (walk : takeFrom s fuel 0 (beforeDot 0 false) = .ok (some p))
    (seen : p.seenDigit = true) {answer : Option UInt64} (ticks : ticksOf timebaseFrequency p = .ok answer) :
    parseSecondsToTicks timebaseFrequency s fuel ticksOut wholeOut =
      .ok (answer.elim (-1, ticksOut, wholeOut) fun t => (0, t, p.whole)) := by
  have start : takeFrom s fuel 0
      { whole := 0, frac := 0, fracScale := 1, seenDot := false, seenDigit := false } = .ok (some p) := walk
  simp only [parseSecondsToTicks, if_neg first, start, seen, ticks, bind, Except.bind, pure, Except.pure,
    Bool.true_eq_false, if_false]
  cases answer <;> rfl

end

theorem parse_decimal (positive : 0 < timebaseFrequency.toNat) (d : Decimal 3)
    (first : ¬ (d.text.getD 0 0 = 0 ∨ timebaseFrequency = 0)) {fuel : Nat}
    (walk : takeFrom d.text fuel 0 (beforeDot 0 false) = takeAll d.text (beforeDot 0 false))
    (ticksOut wholeOut : UInt64) :
    parseSecondsToTicks timebaseFrequency d.text fuel ticksOut wholeOut =
      .ok (if ⌊d.value * timebaseFrequency.toNat⌋₊ < 2 ^ 64
        then (0, UInt64.ofNat ⌊d.value * timebaseFrequency.toNat⌋₊, UInt64.ofNat (extend 0 d.whole))
        else (-1, ticksOut, wholeOut)) := by
  rw [takeAll_decimal d] at walk
  by_cases fits : extend 0 d.whole < 2 ^ 64
  · rw [if_pos fits] at walk
    rw [parse_seen first ticksOut wholeOut walk rfl (ticksOf_decimal timebaseFrequency positive d fits _)]
    split <;> rfl
  · -- a whole part that does not fit is too large at every frequency
    have large : ¬ ⌊d.value * timebaseFrequency.toNat⌋₊ < 2 ^ 64 := fun small =>
      fits ((d.whole_le_floor_mul positive).trans_lt small)
    rw [if_neg fits] at walk
    rw [parse_none first ticksOut wholeOut walk, if_neg large]

theorem parse_other {s : List UInt8} (other : ∀ d : Decimal 3, d.text ≠ s)
    (first : ¬ (s.getD 0 0 = 0 ∨ timebaseFrequency = 0)) {fuel : Nat}
    (walk : takeFrom s fuel 0 (beforeDot 0 false) = takeAll s (beforeDot 0 false)) (ticksOut wholeOut : UInt64) :
    parseSecondsToTicks timebaseFrequency s fuel ticksOut wholeOut = .ok (-1, ticksOut, wholeOut) := by
  rcases takeAll_cases s (by decide : 0 < 2 ^ 64) false with refused | ⟨whole, fraction, rfl, digits, short⟩
  · exact parse_none first ticksOut wholeOut (walk.trans refused)
  · by_cases nonempty : whole ++ fraction.getD [] = []
    · -- only a point, or nothing
      obtain ⟨rfl, noFraction⟩ := List.append_eq_nil_iff.mp nonempty
      cases fraction with
      | none => exact absurd (Or.inl rfl) first
      | some frac =>
        obtain rfl : frac = [] := noFraction
        exact parse_unseen first ticksOut wholeOut walk rfl
    · exact absurd rfl (other ⟨whole, fraction, digits, nonempty, short⟩)

theorem parseSecondsToTicks_exact (timebaseFrequency : UInt32) (s : List UInt8) (fuel : Nat)
    (ticksOut wholeOut : UInt64) (positive : 1 ≤ timebaseFrequency.toNat) (noNul : 0 ∉ s)
    (short : s.length < 2 ^ 32)
    (enough : s.length < fuel) :
    ∃ answer, parseSecondsToTicks timebaseFrequency s fuel ticksOut wholeOut = .ok answer ∧
      (answer.1 = 0 ↔ ∃ d : Decimal 3, d.text = s ∧ ⌊d.value * timebaseFrequency.toNat⌋₊ < 2 ^ 64) ∧
      (∀ d : Decimal 3, d.text = s → ⌊d.value * timebaseFrequency.toNat⌋₊ < 2 ^ 64 →
        answer.2.1.toNat = ⌊d.value * timebaseFrequency.toNat⌋₊ ∧ answer.2.2.toNat = ⌊d.value⌋₊) ∧
      (answer.1 ≠ 0 → answer = (-1, ticksOut, wholeOut)) := by
  have walk : takeFrom s fuel 0 (beforeDot 0 false) = takeAll s (beforeDot 0 false) :=
    @takeFrom_eq s noNul short fuel 0 (Nat.zero_le _) enough (beforeDot 0 false)
  have started (nonempty : s ≠ []) : ¬ (s.getD 0 0 = 0 ∨ timebaseFrequency = 0) := by
    rintro (nul | zero)
    · cases s with
      | nil => exact nonempty rfl
      | cons c rest => exact noNul (List.mem_cons.mpr (Or.inl nul.symm))
    · rw [zero] at positive
      exact absurd positive (by decide)
  by_cases accepted : ∃ d : Decimal 3, d.text = s ∧ ⌊d.value * timebaseFrequency.toNat⌋₊ < 2 ^ 64
  · have answers (d : Decimal 3) (same : d.text = s) (small : ⌊d.value * timebaseFrequency.toNat⌋₊ < 2 ^ 64) :
        parseSecondsToTicks timebaseFrequency s fuel ticksOut wholeOut =
          .ok (0, UInt64.ofNat ⌊d.value * timebaseFrequency.toNat⌋₊, UInt64.ofNat (extend 0 d.whole)) := by
      subst same
      rw [parse_decimal positive d (started d.text_ne) walk, if_pos small]
    obtain ⟨d, same, small⟩ := accepted
    refine ⟨_, answers d same small, iff_of_true rfl ⟨d, same, small⟩, fun d' same' small' => ?_,
      fun failed => absurd rfl failed⟩
    have fits := (d'.whole_le_floor_mul positive).trans_lt small'
    have equal := Except.ok.inj ((answers d same small).symm.trans (answers d' same' small'))
    rw [equal, d'.floor_value]
    exact ⟨UInt64.toNat_ofNat_of_lt' small', UInt64.toNat_ofNat_of_lt' fits⟩
  · have refused : parseSecondsToTicks timebaseFrequency s fuel ticksOut wholeOut = .ok (-1, ticksOut, wholeOut) := by
      by_cases empty : s = []
      · subst empty
        rfl
      by_cases spelled : ∃ d : Decimal 3, d.text = s
      · obtain ⟨d, rfl⟩ := spelled
        rw [parse_decimal positive d (started empty) walk, if_neg fun small => accepted ⟨d, rfl, small⟩]
      · exact parse_other (not_exists.mp spelled) (started empty) walk ticksOut wholeOut
    exact ⟨_, refused, iff_of_false (show ¬ (-1 : Int) = 0 by decide) accepted,
      fun d same small => absurd ⟨d, same, small⟩ accepted,
      fun _ => rfl⟩

theorem parseSecondsToTicks_exact_quarter :
    ∃ answer, parseSecondsToTicks 10 [49, 46, 50, 53] 5 7 7 = .ok answer ∧ answer.2.1.toNat = 12 := by
  obtain ⟨answer, parsed, -, exact', -⟩ :=
    parseSecondsToTicks_exact 10 [49, 46, 50, 53] 5 7 7 (by decide) (by decide)
    (by decide) (by decide)
  have value := exact' ⟨[49], some [50, 53], by simp [IsDigit], by decide, by decide⟩ rfl
  rw [Decimal.floor_mul] at value
  exact ⟨answer, parsed, (value (by decide)).1⟩

theorem takeFrom_zeros (long : 2 ^ 32 ≤ n) (fuel : Nat) (i : UInt32) (seen : Bool) :
    takeFrom (List.replicate n 48) fuel i (beforeDot 0 seen) = .error .endless := by
  induction fuel generalizing i seen with
  | zero => rfl
  | succ fuel ih =>
    have here : (List.replicate n (48 : UInt8)).getD i.toNat 0 = 48 := by
      rw [List.getD_eq_getElem?_getD, List.getElem?_replicate, if_pos (i.toNat_lt.trans_le long), Option.getD_some]
    have taken : (beforeDot 0 seen).take 48 = .ok (some (beforeDot 0 true)) := rfl
    unfold takeFrom
    rw [here, if_neg (by decide), taken]
    exact ih (i + 1) true

theorem extend_zeros (n : Nat) : extend 0 (List.replicate n 48) = 0 := by
  induction n with
  | zero => rfl
  | succ n ih =>
    rw [List.replicate_succ, extend_cons]
    exact ih

-- As many zeros as a string can have before the index wraps, and one more.
def zeros : Decimal 3 where
  whole := List.replicate (2 ^ 32) 48
  fraction := none
  digits := by
    rw [Option.getD_none, List.append_nil]
    intro c member
    rw [List.eq_of_mem_replicate member]
    decide
  nonempty := by
    rw [Option.getD_none, List.append_nil, ne_eq, List.replicate_eq_nil_iff]
    decide
  short := Nat.zero_le 3

theorem parseSecondsToTicks_endless :
    ⌊zeros.value * (1 : UInt32).toNat⌋₊ < 2 ^ 64 ∧
      ∀ fuel, parseSecondsToTicks 1 zeros.text fuel 0 0 = .error .endless := by
  refine ⟨?_, fun fuel => ?_⟩
  · rw [Decimal.floor_mul]
    have whole : extend 0 zeros.whole = 0 := extend_zeros (2 ^ 32)
    have fraction : extend 0 (zeros.fraction.getD []) = 0 := rfl
    rw [whole, fraction, Nat.zero_mul, Nat.zero_div]
    decide
  · have start : takeFrom zeros.text fuel 0
        { whole := 0, frac := 0, fracScale := 1, seenDot := false, seenDigit := false } = .error .endless :=
      takeFrom_zeros le_rfl fuel 0 false
    have first : ¬ (zeros.text.getD 0 0 = 0 ∨ (1 : UInt32) = 0) := by
      rw [show zeros.text = List.replicate (2 ^ 32) 48 from rfl, List.getD_eq_getElem?_getD,
        List.getElem?_replicate, if_pos (by decide), Option.getD_some]
      decide
    simp only [parseSecondsToTicks, if_neg first, start, bind, Except.bind]

end OrangeKernel.Shell
