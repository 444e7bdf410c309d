import OrangeKernel.Cpio.Newc
import OrangeKernel.Fdt.Cells

set_option autoImplicit false

namespace OrangeKernel.Cpio

open ByteScan
open Fdt (Text)

variable {ending : Prop} {bytes : List UInt8}

theorem hexDigit_written {nibble : Nat} {c : UInt8} (small : nibble < 16)
    (written : c = lowerDigit nibble ∨ c = upperDigit nibble) : hexDigit c = some (UInt32.ofNat nibble) := by
  have table : ∀ n < 16, hexDigit (lowerDigit n) = some (UInt32.ofNat n) ∧
      hexDigit (upperDigit n) = some (UInt32.ofNat n) := by decide
  cases written with
  | inl lower => rw [lower]; exact (table nibble small).1
  | inr upper => rw [upper]; exact (table nibble small).2

theorem appendDigit (v : Nat) {nibble : Nat} (small : nibble < 16) :
    (UInt32.ofNat v <<< 4) ||| UInt32.ofNat nibble = UInt32.ofNat (v * 16 + nibble) := by
  apply UInt32.toNat_inj.mp
  -- The four low bits are free after the shift, and the four high ones are lost on both sides.
  have joined := Nat.two_pow_add_eq_or_of_lt (i := 4) (b := nibble) small (v % 2 ^ 28)
  have shifted : (v % 2 ^ 32) <<< 4 % 2 ^ 32 = 2 ^ 4 * (v % 2 ^ 28) := by
    rw [Nat.shiftLeft_eq]
    omega
  have digit : nibble % 2 ^ 32 = nibble := Nat.mod_eq_of_lt (by omega)
  have four : (4 : UInt32).toNat % 32 = 4 := rfl
  rw [UInt32.toNat_or, UInt32.toNat_shiftLeft, four, UInt32.toNat_ofNat', UInt32.toNat_ofNat', UInt32.toNat_ofNat',
    shifted, digit, ← joined]
  omega

theorem hexFrom_written {s i v : Nat} {values : List Nat} {digits : List UInt8} (small : ∀ n ∈ values, n < 16)
    (written : List.Forall₂ (fun n c => c = lowerDigit n ∨ c = upperDigit n) values digits)
    (holds : Holds bytes (s + i) digits) :
    Answers (hexFrom bytes s values.length i (UInt32.ofNat v))
      (some (UInt32.ofNat (values.foldl (fun v n => v * 16 + n) v))) := by
  induction written generalizing i v with
  | nil => exact Answers.pure _
  | @cons n c values digits same written ih =>
    have digitSmall := small n (List.mem_cons_self ..)
    apply Answers.bind holds.head
    rw [hexDigit_written digitSmall same]
    dsimp only
    rw [appendDigit v digitSmall]
    exact ih (fun n mem => small n (List.mem_cons_of_mem _ mem)) holds.tail

theorem hexToU32_written {s n : Nat} {digits : List UInt8} (small : n < 2 ^ 32) (hex : HexOf n digits)
    (holds : Holds bytes s digits) : Answers (hexToU32 bytes s) (some (UInt32.ofNat n)) := by
  have answers := hexFrom_written (v := 0) (i := 0) (fun _ mem => nibbles_lt mem) hex holds
  rw [nibbles_fold small] at answers
  exact answers

variable {cur : Nat}

theorem magicFrom_written {magic : List UInt8} (holds : Holds bytes cur magic) :
    Answers (magicFrom bytes cur magic) true := by
  induction magic generalizing cur with
  | nil => exact Answers.pure true
  | cons m magic ih =>
    apply Answers.bind holds.head
    rw [if_neg (fun differs => differs rfl)]
    exact ih holds.tail

theorem nameClean_tells {name : Nat} {namesz : UInt32} (positive : 0 < namesz.toNat)
    (inside : name + namesz.toNat ≤ bytes.length) :
    Runs ending (nameClean bytes name namesz) fun clean =>
      clean = true ↔ ∀ j < namesz.toNat - 1, bytes[name + j]? ≠ some 0 := by
  have small := namesz.toNat_lt
  refine Runs.loop (fun i => i < namesz.toNat ∧ ∀ j < i, bytes[name + j]? ≠ some 0) (fun i => namesz.toNat - i)
    (fun i kept => ?_) ⟨positive, fun j less => absurd less (Nat.not_lt_zero j)⟩
  have counter : (i + 1) % 2 ^ 32 = i + 1 ∨ i + 1 = 2 ^ 32 := by omega
  split
  next more =>
    have counted : (i + 1) % 2 ^ 32 = i + 1 := counter.resolve_right fun full => by omega
    refine (Runs.byteAt (by omega)).bind fun c here => ?_
    split
    next nul =>
      refine Runs.pure ⟨fun impossible => by simp at impossible, fun none => ?_⟩
      exact absurd (nul ▸ here) (none i (by omega))
    next other =>
      refine Runs.pure ⟨⟨more, fun j before => ?_⟩, fun _ => by omega⟩
      rw [counted] at before
      rcases Nat.lt_succ_iff_lt_or_eq.mp before with old | rfl
      · exact kept.2 j old
      · rw [here]
        exact fun equal => other (Option.some.inj equal)
  next finished =>
    have position : i = namesz.toNat - 1 := by omega
    exact Runs.pure ⟨fun _ => position ▸ kept.2, fun _ => rfl⟩

theorem strEq_tells {at' : Nat} {chars other : List UInt8} (noNul : 0 ∉ chars) (otherNoNul : 0 ∉ other)
    (holds : Holds bytes at' (chars ++ [0])) :
    Runs ending (strEq bytes at' (other ++ [0])) fun same => same = true ↔ chars = other := by
  refine Runs.loop (fun i => ∃ done xs ys, chars = done ++ xs ∧ other = done ++ ys ∧ done.length = i)
    (fun i => chars.length - i) ?_ ⟨[], chars, other, rfl, rfl, rfl⟩
  rintro i ⟨done, xs, ys, rfl, rfl, rfl⟩
  have whole := Holds.whole (done ++ ys ++ [0])
  rw [List.append_assoc] at holds
  nth_rewrite 2 [List.append_assoc] at whole
  have here := holds.right
  have there := whole.right
  rw [Nat.zero_add] at there
  rw [List.append_cancel_left_eq]
  cases xs with
  | nil =>
    refine here.reads.bind (Gives.bind (a := false) (Gives.pure false) ?_)
    cases ys with
    | nil => exact Gives.bind (a := true) (there.reads.bind (Gives.pure _)) (Runs.pure (by simp [Round.Meets]))
    | cons y ys =>
      have character : y ≠ 0 := fun zero => otherNoNul (by simp [zero])
      refine Gives.bind (a := false) (there.reads.bind ?_) (Runs.pure (by simp [Round.Meets]))
      rw [decide_eq_false character]
      exact Gives.pure _
  | cons x xs =>
    have character : x ≠ 0 := fun zero => noNul (by simp [zero])
    refine here.reads.bind ?_
    rw [decide_eq_true character, decide_eq_false character]
    cases ys with
    | nil =>
      refine Gives.bind (a := false) (there.reads.bind (Gives.pure _)) ?_
      exact Gives.bind (a := false) (Gives.pure false) (Runs.pure (by simp [Round.Meets]))
    | cons y ys =>
      have otherCharacter : y ≠ 0 := fun zero => otherNoNul (by simp [zero])
      refine Gives.bind (a := true) (there.reads.bind ?_) (there.reads.bind ?_)
      · rw [decide_eq_true otherCharacter]
        exact Gives.pure _
      · split
        next differ => exact Runs.pure (by simp [Round.Meets, differ])
        next agree =>
          obtain rfl := not_ne_iff.mp agree
          exact Runs.pure ⟨⟨done ++ [x], xs, ys, by simp, by simp, by simp⟩, fun _ => by simp; omega⟩

theorem strEq_written {at' : Nat} {chars other : List UInt8} (noNul : 0 ∉ chars) (otherNoNul : 0 ∉ other)
    (holds : Holds bytes at' (chars ++ [0])) : Answers (strEq bytes at' (other ++ [0])) (decide (chars = other)) :=
  (strEq_tells noNul otherNoNul holds).decides.answer

def Newc.parsed (r : Newc) (cur : Nat) : Parsed :=
  if r.name.chars = trailerName.chars then .trailer else .entry (r.call cur) (cur + r.bytes.length)

theorem cpioBody_written {r : Newc} (holds : Holds bytes cur r.bytes) :
    Answers (cpioBody bytes bytes.length cur (UInt32.ofNat (r.name.chars.length + 1)) (UInt32.ofNat r.data.length)
      r.mode) (r.parsed cur) := by
  have namesz := UInt32.toNat_ofNat_of_lt' r.nameFits
  have filesz := UInt32.toNat_ofNat_of_lt' r.dataFits
  have fits := holds.fits
  have nameFits := holds.left.left.left.fits
  rw [r.bytes_length] at fits
  rw [List.length_append, r.header_length, Text.bytes_length] at nameFits
  have nameHolds := (Newc.call_describes holds).name
  have positive : UInt32.ofNat (r.name.chars.length + 1) ≠ 0 := by
    intro zero
    rw [zero] at namesz
    cases namesz
  have last : (UInt32.ofNat (r.name.chars.length + 1) - 1).toNat = r.name.chars.length := by
    rw [UInt32.toNat_sub_of_le _ _ (UInt32.le_iff_toNat_le.mpr (by rw [namesz]; exact Nat.le_add_left 1 _)), namesz]
    rfl
  unfold cpioBody
  dsimp only
  rw [if_neg (by rw [namesz]; rintro (zero | beyond) <;> [exact positive zero; omega]), last]
  apply Answers.bind (nameHolds.behind rfl).head
  rw [if_neg (fun differs => differs rfl)]
  have string := r.name.terminatedAt nameHolds
  have clean : Gives True (nameClean bytes (cur + headerSize) (UInt32.ofNat (r.name.chars.length + 1))) true := by
    refine (nameClean_tells (by omega) (by rw [namesz]; omega)).weaken fun clean tells => (tells.mpr ?_).symm
    rw [namesz, Nat.add_sub_cancel]
    exact string.chars
  apply Answers.bind clean.answer
  apply Answers.bind (strEq_written r.name.noNul trailerName.noNul nameHolds)
  unfold Newc.parsed
  by_cases isTrailer : r.name.chars = trailerName.chars
  · rw [if_pos isTrailer, decide_eq_true isTrailer]
    exact Answers.pure _
  · rw [if_neg isTrailer, decide_eq_false isTrailer, namesz, filesz]
    rw [if_neg (by decide)]
    rw [if_neg (by simp only [Newc.dataAt] at fits; omega), if_neg (by simp only [Newc.dataAt] at fits; omega)]
    rw [r.bytes_length, ← Nat.add_assoc cur]
    exact Answers.pure _

theorem cpioRecord_written {r : Newc} (holds : Holds bytes cur r.bytes) :
    Answers (cpioRecord bytes bytes.length cur) (r.parsed cur) := by
  have fits := holds.left.left.left.left.fits
  rw [r.header_length] at fits
  obtain ⟨magic, mode, filesize, namesize⟩ := r.header_fields holds.left.left.left.left
  unfold cpioRecord
  rw [if_neg (by omega)]
  apply Answers.bind (magicFrom_written magic)
  apply Answers.bind (hexToU32_written r.nameFits r.namesizeDigits.2 namesize)
  apply Answers.bind (hexToU32_written r.dataFits r.filesizeDigits.2 filesize)
  apply Answers.bind (hexToU32_written r.mode.toNat_lt r.modeDigits.2 mode)
  rw [UInt32.ofNat_toNat]
  exact cpioBody_written holds

variable {ret : Int} {calls : List Call}

section Archive

variable {σ : Type} {trailer : Newc} {after : List UInt8}

def Makes (bytes : List UInt8) (cur : Nat) (calls : List Call) (ret : Int) : Prop :=
  ∀ (σ : Type) (fn : Call → σ → Scan σ), ∃ bound, ∀ fuel, bound ≤ fuel →
    ∀ rounds, bound ≤ rounds → ∀ ctx,
    loopFrom (cpioRound bytes bytes.length fn) fuel rounds (cur, ctx) = (do
      let left ← calls.foldlM (fun ctx call => fn call ctx) ctx
      pure (ret, left) : Scan (Int × σ)) fuel

theorem Makes.stop {parsed : Parsed} (found : Answers (cpioRecord bytes bytes.length cur) parsed)
    (stops : parsed = .bad ∧ ret = -1 ∨ parsed = .trailer ∧ ret = 0) : Makes bytes cur [] ret := by
  intro σ fn
  obtain ⟨bound, found⟩ := found
  refine ⟨bound + 1, fun fuel enough rounds more ctx => ?_⟩
  cases rounds with
  | zero => omega
  | succ rounds =>
    apply loopFrom_done
    refine (bind_of_ok (found fuel (by omega))).trans ?_
    rcases stops with ⟨rfl, rfl⟩ | ⟨rfl, rfl⟩ <;> rfl

theorem Makes.entry {after : Nat} {call : Call}
    (found : Answers (cpioRecord bytes bytes.length cur) (.entry call after)) (rest : Makes bytes after calls ret) :
    Makes bytes cur (call :: calls) ret := by
  intro σ fn
  obtain ⟨bound, found⟩ := found
  obtain ⟨bound', turned⟩ := rest σ fn
  refine ⟨max bound bound' + 1, fun fuel enough rounds more ctx => ?_⟩
  cases rounds with
  | zero => omega
  | succ rounds =>
    have round : cpioRound bytes bytes.length fn (cur, ctx) fuel = (do
        let left ← fn call ctx
        pure (.next (after, left)) : Scan _) fuel := bind_of_ok (found fuel (by omega))
    rw [List.foldlM_cons, bind_assoc]
    -- The callback may also fail, and then the loop fails as it does.
    cases called : fn call ctx fuel with
    | error halt =>
      rw [bind_of_error called] at round ⊢
      exact loopFrom_error round
    | ok left =>
      rw [bind_of_ok called] at round ⊢
      rw [loopFrom_next round]
      exact turned fuel (by omega) rounds (by omega) left

theorem cpioRound_written {entries : List Newc} (named : ∀ e ∈ entries, e.name.chars ≠ trailerName.chars)
    (isTrailer : trailer.name.chars = trailerName.chars)
    (holds : Holds bytes cur (entries.flatMap Newc.bytes ++ (trailer.bytes ++ after))) :
    Makes bytes cur (callsFrom cur entries) 0 := by
  induction entries generalizing cur with
  | nil =>
    rw [List.flatMap_nil, List.nil_append] at holds
    have found := cpioRecord_written holds.left
    rw [Newc.parsed, if_pos isTrailer] at found
    exact Makes.stop found (.inr ⟨rfl, rfl⟩)
  | cons r rest ih =>
    rw [List.flatMap_cons, List.append_assoc] at holds
    have found := cpioRecord_written holds.left
    rw [Newc.parsed, if_neg (named r (List.mem_cons_self ..))] at found
    exact Makes.entry found (ih (fun e mem => named e (List.mem_cons_of_mem _ mem)) holds.right)

theorem accepts_range {start stop : UInt64} (nonnull : start ≠ 0) (ordered : start ≤ stop) :
    ¬ (start = 0 ∨ stop = 0 ∨ stop < start) := by
  have le := UInt64.le_iff_toNat_le.mp ordered
  rintro (null | null | below)
  · exact nonnull null
  · rw [null, UInt64.toNat_zero] at le
    exact nonnull (UInt64.toNat_inj.mp (by rw [UInt64.toNat_zero]; omega))
  · have below := UInt64.lt_iff_toNat_lt.mp below
    omega

theorem Makes.iterate {start stop : UInt64} (makes : Makes bytes 0 calls ret) (nonnull : start ≠ 0)
    (ordered : start ≤ stop) (placed : bytes.length = stop.toNat - start.toNat)
    (fn : Call → σ → Scan σ) (ctx : σ) :
    Agree (cpioIterate start stop bytes (some fn) ctx) (do
      let left ← calls.foldlM (fun ctx call => fn call ctx) ctx
      pure (ret, left)) := by
  obtain ⟨bound, turned⟩ := makes σ fn
  refine ⟨bound, fun fuel enough => ?_⟩
  simp only [cpioIterate, if_neg (accepts_range nonnull ordered), ← placed]
  exact turned fuel enough fuel enough ctx

variable {start stop : UInt64} {entries : List Newc} {trailing : List UInt8}

theorem cpioIterate_written (fn : Call → σ → Scan σ) (ctx : σ)
    (named : ∀ e ∈ entries, e.name.chars ≠ trailerName.chars) (isTrailer : trailer.name.chars = trailerName.chars)
    (nonnull : start ≠ 0) (placed : stop.toNat = start.toNat + (archive entries trailer trailing).length) :
    Agree (cpioIterate start stop (archive entries trailer trailing) (some fn) ctx) (do
      let left ← (callsFrom 0 entries).foldlM (fun ctx call => fn call ctx) ctx
      pure (0, left)) := by
  have makes := cpioRound_written named isTrailer (Holds.whole (archive entries trailer trailing))
  exact makes.iterate nonnull (UInt64.le_iff_toNat_le.mpr (by omega)) (by omega) fn ctx

end Archive

def firstNamed (name : Text) (wanted : Wanted) (st : FindCtx) (pairs : List (Call × Newc)) : Int × FindCtx :=
  match pairs.find? fun pair => pair.2.name.chars = name.chars with
  | some (call, _) => (0, st.store wanted call)
  | none => (-1, { st with found := false })

theorem firstNamed_cons (name : Text) (wanted : Wanted) (st : FindCtx) (call : Call) (r : Newc)
    (pairs : List (Call × Newc)) : firstNamed name wanted st ((call, r) :: pairs) =
      if r.name.chars = name.chars then (0, st.store wanted call) else firstNamed name wanted st pairs := by
  by_cases same : r.name.chars = name.chars
  · simp only [firstNamed, List.find?_cons_of_pos, same, decide_true, if_true]
  · simp only [firstNamed, List.find?_cons_of_neg, same, decide_false, Bool.false_eq_true, not_false_eq_true, if_false]

theorem firstNamed_ret (name : Text) (wanted : Wanted) (st : FindCtx) (pairs : List (Call × Newc)) :
    (if (firstNamed name wanted st pairs).2.found then 0 else -1) = (firstNamed name wanted st pairs).1 := by
  unfold firstNamed
  split <;> rfl

theorem cpioFindCb_found (name : Text) (wanted : Wanted) {st : FindCtx} (found : st.found = true) (calls : List Call) :
    Answers (calls.foldlM (fun ctx call => cpioFindCb bytes name wanted call ctx) st) st := by
  induction calls with
  | nil => exact Answers.pure st
  | cons call calls ih =>
    rw [List.foldlM_cons]
    refine Answers.bind ?_ ih
    simp only [cpioFindCb, if_pos found]
    exact Answers.pure st

theorem cpioFindCb_written (name : Text) (wanted : Wanted) (st : FindCtx) {entries : List Newc}
    (describe : List.Forall₂ (Describes bytes) calls entries) :
    Answers (calls.foldlM (fun ctx call => cpioFindCb bytes name wanted call ctx) { st with found := false })
      (firstNamed name wanted st (calls.zip entries)).2 := by
  induction describe with
  | nil => exact Answers.pure _
  | @cons call r calls entries described _ ih =>
    rw [List.foldlM_cons, List.zip_cons_cons, firstNamed_cons]
    have compared := strEq_written r.name.noNul name.noNul described.name
    by_cases same : r.name.chars = name.chars
    · rw [if_pos same]
      rw [decide_eq_true same] at compared
      exact Answers.bind (Answers.bind compared (Answers.pure _)) (cpioFindCb_found name wanted rfl calls)
    · rw [if_neg same]
      rw [decide_eq_false same] at compared
      exact Answers.bind (Answers.bind compared (Answers.pure _)) ih

theorem cpio_roundTrip (entries : List Newc) (trailer : Newc) (trailing : List UInt8) (start stop : UInt64)
    (named : ∀ e ∈ entries, e.name.chars ≠ trailerName.chars) (isTrailer : trailer.name.chars = trailerName.chars)
    (nonnull : start ≠ 0) (placed : stop.toNat = start.toNat + (archive entries trailer trailing).length) :
    ∃ calls : List Call, List.Forall₂ (Describes (archive entries trailer trailing)) calls entries ∧
      (∀ (σ : Type) (fn : Call → σ → Scan σ) (ctx : σ),
        Agree (cpioIterate start stop (archive entries trailer trailing) (some fn) ctx) (do
          let left ← calls.foldlM (fun ctx call => fn call ctx) ctx
          pure (0, left))) ∧
      ∀ (name : Text) (wanted : Wanted) (st : FindCtx),
        Answers (cpioFind start stop (archive entries trailer trailing) (some name) wanted st)
          (firstNamed name wanted st (calls.zip entries)) := by
  have describe := callsFrom_describe (Holds.whole (archive entries trailer trailing))
  refine ⟨callsFrom 0 entries, describe, fun σ fn ctx => cpioIterate_written fn ctx named isTrailer nonnull placed,
    ?_⟩
  intro name wanted st
  have iterated := (cpioIterate_written (cpioFindCb _ name wanted) { st with found := false } named isTrailer nonnull
    placed).answers (Answers.bind (cpioFindCb_written name wanted st describe) (Answers.pure _))
  apply Answers.bind iterated
  dsimp only
  rw [if_neg (fun failed => failed rfl), firstNamed_ret]
  exact Answers.pure _

def twoFiles : List Newc :=
  [plainRecord (Text.ofAscii "a") [0x68, 0x69] 0x81a4 (by decide) (by decide),
    plainRecord (Text.ofAscii "bc") [] 0x41ed (by decide) (by decide)]

def endOfFiles : Newc := plainRecord trailerName [] 0 (by decide) (by decide)

def countFile (_ : Call) (count : Nat) : Scan Nat := pure (count + 1)

theorem cpio_roundTrip_twoFiles :
    ∃ calls : List Call, List.Forall₂ (Describes (archive twoFiles endOfFiles [0xff])) calls twoFiles ∧
      Agree (cpioIterate 0x1000 0x1165 (archive twoFiles endOfFiles [0xff]) (some countFile) 0) (do
        let left ← calls.foldlM (fun ctx call => countFile call ctx) 0
        pure (0, left)) ∧
      Answers (cpioFind 0x1000 0x1165 (archive twoFiles endOfFiles [0xff]) (some (Text.ofAscii "bc"))
        ⟨true, true, false⟩ ⟨0, 0, 0, false⟩)
          (firstNamed (Text.ofAscii "bc") ⟨true, true, false⟩ ⟨0, 0, 0, false⟩
          (calls.zip twoFiles)) := by
  obtain ⟨calls, describe, iterate, find⟩ := cpio_roundTrip twoFiles endOfFiles [0xff] 0x1000 0x1165
    (by decide +kernel) rfl (by decide) (by decide +kernel)
  exact ⟨calls, describe, iterate Nat countFile 0, find _ _ _⟩

end OrangeKernel.Cpio
