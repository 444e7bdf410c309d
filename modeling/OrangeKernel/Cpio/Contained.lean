import OrangeKernel.Cpio.Decode

set_option autoImplicit false

namespace OrangeKernel.Cpio

open ByteScan Machine
open Fdt (Text Terminated)

variable {ending : Prop} {bytes : List UInt8}

theorem hexDigit_reads {c : UInt8} {digit : UInt32} (read : hexDigit c = some digit) :
    digit.toNat < 16 ∧ (c = lowerDigit digit.toNat ∨ c = upperDigit digit.toNat) := by
  have table : ∀ n < 256, (hexDigit (UInt8.ofNat n)).all (fun digit => digit.toNat < 16 ∧
      (UInt8.ofNat n = lowerDigit digit.toNat ∨ UInt8.ofNat n = upperDigit digit.toNat)) = true := by decide +kernel
  have row := table c.toNat c.toNat_lt
  rw [UInt8.ofNat_toNat, read, Option.all_some, decide_eq_true_iff] at row
  exact row

theorem hexFrom_runs {s : Nat} (left i v : Nat) (inside : s + i + left ≤ bytes.length) :
    Runs ending (hexFrom bytes s left i (UInt32.ofNat v)) fun read => ∀ n, read = some n →
      ∃ values digits, values.length = left ∧ (∀ m ∈ values, m < 16) ∧
        List.Forall₂ (fun m c => c = lowerDigit m ∨ c = upperDigit m) values digits ∧
        Holds bytes (s + i) digits ∧
        n = UInt32.ofNat (values.foldl (fun v m => v * 16 + m) v) := by
  induction left generalizing i v with
  | zero =>
    refine Runs.pure fun n same => ⟨[], [], rfl, by simp, .nil, Holds.slice (n := 0) (by omega), ?_⟩
    exact (Option.some.inj same).symm
  | succ left ih =>
    unfold hexFrom
    refine (Runs.byteAt (by omega)).bind fun c here => ?_
    cases found : hexDigit c with
    | none => exact Runs.pure nofun
    | some digit =>
      obtain ⟨small, written⟩ := hexDigit_reads found
      have appended := appendDigit v small
      rw [UInt32.ofNat_toNat] at appended
      dsimp only
      rw [appended]
      refine (ih (i + 1) _ (by omega)).weaken fun read known n same => ?_
      obtain ⟨values, digits, length, smalls, rest, holds, value⟩ := known n same
      exact ⟨digit.toNat :: values, c :: digits, by rw [List.length_cons, length],
        List.forall_mem_cons.mpr ⟨small, smalls⟩, .cons written rest, (Holds.byte here).append holds, value⟩

theorem hexToU32_runs {s : Nat} (inside : s + 8 ≤ bytes.length) :
    Runs ending (hexToU32 bytes s) fun read => ∀ n, read = some n →
      ∃ digits, HexOf n.toNat digits ∧ Holds bytes s digits := by
  refine (hexFrom_runs 8 0 0 (by omega)).weaken fun read known n same => ?_
  obtain ⟨values, digits, length, small, written, holds, rfl⟩ := known n same
  obtain ⟨fits, same⟩ := nibbles_of_fold length small
  refine ⟨digits, ?_, holds⟩
  rw [HexOf, UInt32.toNat_ofNat_of_lt' fits, same]
  exact written

theorem magicFrom_runs {cur : Nat} {magic : List UInt8} (inside : cur + magic.length ≤ bytes.length) :
    Runs ending (magicFrom bytes cur magic) fun same => same = true → Holds bytes cur magic := by
  induction magic generalizing cur with
  | nil => exact Runs.pure fun _ => Holds.slice (n := 0) (by simpa using inside)
  | cons m magic ih =>
    rw [List.length_cons] at inside
    unfold magicFrom
    refine (Runs.byteAt (by omega)).bind fun c here => ?_
    split
    · exact Runs.pure nofun
    next same =>
      refine (ih (by omega)).weaken fun rest holds isTrue => ?_
      exact (Holds.byte (not_ne_iff.mp same ▸ here)).append (holds isTrue)

structure EntryIn (bytes : List UInt8) (cur : Nat) (call : Call) (after : Nat) : Prop where
  name : ∃ n, Terminated bytes call.name n ∧ call.name + n < call.data
  header : call.name = cur + headerSize
  data : call.data + call.size.toNat ≤ after
  inside : after ≤ bytes.length

def ParsedIn (bytes : List UInt8) (cur : Nat) : Parsed → Prop
  | .entry call after => EntryIn bytes cur call after
  | _ => True

structure HeaderAt (bytes : List UInt8) (cur : Nat) (namesz filesz mode : UInt32) : Prop where
  inside : cur + headerSize ≤ bytes.length
  magic : Holds bytes cur cpioNewcMagic
  mode : ∃ digits, HexOf mode.toNat digits ∧ Holds bytes (cur + cMode) digits
  filesize : ∃ digits, HexOf filesz.toNat digits ∧ Holds bytes (cur + cFilesize) digits
  namesize : ∃ digits, HexOf namesz.toNat digits ∧ Holds bytes (cur + cNamesize) digits

def TrailerAt (bytes : List UInt8) (cur : Nat) : Prop :=
  ∃ r : Newc, r.name.chars = trailerName.chars ∧ Holds bytes cur (r.header ++ r.name.bytes)

def ParsedAs (bytes : List UInt8) (cur : Nat) : Parsed → Prop
  | .bad => True
  | .trailer => TrailerAt bytes cur
  | .entry call after => ∃ r : Newc, Holds bytes cur r.bytes ∧ r.name.chars ≠ trailerName.chars ∧
    call = r.call cur ∧
      after = cur + r.bytes.length

def Spans (bytes : List UInt8) (start stop : Nat) (field : List UInt8) : Prop :=
  Holds bytes start field ∧ start + field.length = stop

theorem Spans.append {start middle stop : Nat} {first rest : List UInt8} (left : Spans bytes start middle first)
    (right : Spans bytes middle stop rest) : Spans bytes start stop (first ++ rest) := by
  obtain ⟨left, rfl⟩ := left
  obtain ⟨right, rfl⟩ := right
  exact ⟨left.append right, by rw [List.length_append, Nat.add_assoc]⟩

theorem spans_slice (bytes : List UInt8) (start n : Nat) (inside : start + n ≤ bytes.length) :
    ∃ field : List UInt8, field.length = n ∧ Spans bytes start (start + n) field := by
  have length : ((bytes.drop start).take n).length = n := by
    rw [List.length_take, List.length_drop]
    omega
  exact ⟨_, length, Holds.slice inside, by rw [length]⟩

theorem spans_field (bytes : List UInt8) (start : Nat) (inside : start + 8 ≤ bytes.length) :
    ∃ field : Field, Spans bytes start (start + 8) field.1 := by
  obtain ⟨field, length, spans⟩ := spans_slice bytes start 8 inside
  exact ⟨⟨field, length⟩, spans⟩

theorem HexOf.spans {start n : Nat} {digits : List UInt8} (hex : HexOf n digits) (holds : Holds bytes start digits) :
    Spans bytes start (start + 8) digits := ⟨holds, by rw [hex.length]⟩

section Header

variable {cur : Nat} {namesz filesz mode : UInt32}

theorem HeaderAt.newc (header : HeaderAt bytes cur namesz filesz mode) {name : Text} {data namePad dataPad : List UInt8}
    (named : name.chars.length + 1 = namesz.toNat) (sized : data.length = filesz.toNat)
    (nameAligned : namePad.length = padding (headerSize + namesz.toNat))
    (dataAligned : dataPad.length = padding filesz.toNat) :
    ∃ r : Newc, Holds bytes cur r.header ∧ r.name = name ∧ r.data = data ∧ r.mode = mode ∧
      r.namePad.1 = namePad ∧
      r.dataPad.1 = dataPad := by
  obtain ⟨inside, magic, ⟨modeDigits, modeHex, modeHolds⟩, ⟨sizeDigits, sizeHex, sizeHolds⟩,
    ⟨nameDigits, nameHex, nameHolds⟩⟩ := header
  simp only [headerSize] at inside
  obtain ⟨ino, inoAt⟩ := spans_field bytes (cur + 6) (by omega)
  obtain ⟨uid, uidAt⟩ := spans_field bytes (cur + 22) (by omega)
  obtain ⟨gid, gidAt⟩ := spans_field bytes (cur + 30) (by omega)
  obtain ⟨nlink, nlinkAt⟩ := spans_field bytes (cur + 38) (by omega)
  obtain ⟨mtime, mtimeAt⟩ := spans_field bytes (cur + 46) (by omega)
  obtain ⟨devmajor, devmajorAt⟩ := spans_field bytes (cur + 62) (by omega)
  obtain ⟨devminor, devminorAt⟩ := spans_field bytes (cur + 70) (by omega)
  obtain ⟨rdevmajor, rdevmajorAt⟩ := spans_field bytes (cur + 78) (by omega)
  obtain ⟨rdevminor, rdevminorAt⟩ := spans_field bytes (cur + 86) (by omega)
  obtain ⟨check, checkAt⟩ := spans_field bytes (cur + 102) (by omega)
  refine ⟨⟨name, data, mode, named ▸ namesz.toNat_lt, sized ▸ filesz.toNat_lt, ⟨modeDigits, modeHex⟩,
    ⟨sizeDigits, sized ▸ sizeHex⟩, ⟨nameDigits, named ▸ nameHex⟩, ino, uid, gid,
    nlink, mtime, devmajor, devminor,
    rdevmajor, rdevminor, check, ⟨namePad, named ▸ nameAligned⟩, ⟨dataPad, sized ▸ dataAligned⟩⟩,
      ?_, rfl, rfl, rfl,
    rfl, rfl⟩
  -- The fields in the order of the struct, each behind the ones before it.
  have magicAt : Spans bytes cur (cur + 6) cpioNewcMagic := ⟨magic, rfl⟩
  have uptoMtime := ((((((magicAt.append inoAt).append (modeHex.spans modeHolds)).append uidAt).append gidAt).append
    nlinkAt).append mtimeAt)
  have uptoMinor := (((((uptoMtime.append (sizeHex.spans sizeHolds)).append devmajorAt).append devminorAt).append
    rdevmajorAt).append rdevminorAt)
  exact ((uptoMinor.append (nameHex.spans nameHolds)).append checkAt).1

variable {name : Text}

theorem HeaderAt.trailerAt (header : HeaderAt bytes cur namesz filesz mode)
    (string : Holds bytes (cur + headerSize) name.bytes) (named : name.chars.length + 1 = namesz.toNat)
    (isTrailer : name.chars = trailerName.chars) : TrailerAt bytes cur := by
  -- The reader stops at the name, so the rest of the record may be anything.
  have zeros : ∀ n, (List.replicate n (0 : UInt8)).length = n := fun _ => List.length_replicate
  obtain ⟨r, holds, rfl, -⟩ := header.newc named (zeros _) (zeros _) (zeros _)
  exact ⟨r, isTrailer, holds.append (r.header_length.symm ▸ string)⟩

theorem HeaderAt.entryAt (header : HeaderAt bytes cur namesz filesz mode)
    (string : Holds bytes (cur + headerSize) name.bytes) (named : name.chars.length + 1 = namesz.toNat)
    (notTrailer : name.chars ≠ trailerName.chars)
    (fits : cur + align4 (headerSize + namesz.toNat) + align4 filesz.toNat ≤ bytes.length) :
    ParsedAs bytes cur (.entry
      ⟨cur + headerSize, cur + align4 (headerSize + namesz.toNat), filesz, mode⟩
      (cur + align4 (headerSize + namesz.toNat) + align4 filesz.toNat)) := by
  have smallName := namesz.toNat_lt
  have smallFile := filesz.toNat_lt
  have nameSpan : align4 (headerSize + namesz.toNat) = _ := roundUp4_eq (by simp only [headerSize]; omega)
  have fileSpan : align4 filesz.toNat = _ := roundUp4_eq (by omega)
  obtain ⟨namePad, namePadLength, namePadAt⟩ := spans_slice bytes
    (cur + (headerSize + namesz.toNat)) (padding (headerSize + namesz.toNat)) (by omega)
  obtain ⟨data, dataLength, dataAt⟩ := spans_slice bytes
    (cur + (headerSize + namesz.toNat) + padding (headerSize + namesz.toNat)) filesz.toNat (by omega)
  obtain ⟨dataPad, dataPadLength, dataPadAt⟩ := spans_slice bytes
    (cur + (headerSize + namesz.toNat) + padding (headerSize + namesz.toNat) + filesz.toNat)
      (padding filesz.toNat) (by omega)
  obtain ⟨r, holds, rfl, rfl, rfl, rfl, rfl⟩ := header.newc named dataLength namePadLength dataPadLength
  have nameAt : Spans bytes (cur + headerSize) (cur + (headerSize + namesz.toNat)) r.name.bytes :=
    ⟨string, by rw [Text.bytes_length, named, Nat.add_assoc]⟩
  have headerAt : Spans bytes cur (cur + headerSize) r.header := ⟨holds, by rw [r.header_length]⟩
  have whole := ((((headerAt.append nameAt).append namePadAt).append dataAt).append dataPadAt).1
  have placed : r.dataAt = align4 (headerSize + namesz.toNat) := by rw [Newc.dataAt, named]
  refine ⟨r, whole, notTrailer, ?_, ?_⟩
  · rw [Newc.call, placed, dataLength, UInt32.ofNat_toNat]
  · rw [r.bytes_length, placed, dataLength, Nat.add_assoc]

theorem cpioBody_runs (header : HeaderAt bytes cur namesz filesz mode) :
    Runs ending (cpioBody bytes bytes.length cur namesz filesz mode) (ParsedAs bytes cur) := by
  have inside := header.inside
  unfold cpioBody
  dsimp only
  split
  · exact Runs.pure trivial
  next fits =>
    rw [not_or, not_lt] at fits
    obtain ⟨nonzero, fits⟩ := fits
    have positive : 0 < namesz.toNat := Nat.pos_of_ne_zero fun zero => nonzero (UInt32.toNat_inj.mp zero)
    have last : (namesz - 1).toNat = namesz.toNat - 1 :=
      UInt32.toNat_sub_of_le _ _ (UInt32.le_iff_toNat_le.mpr positive)
    refine (Runs.byteAt (by omega)).bind fun c here => ?_
    split
    · exact Runs.pure trivial
    next zero =>
      have nul := not_ne_iff.mp zero ▸ here
      refine (nameClean_tells positive (by omega)).bind fun clean tells => ?_
      split
      · exact Runs.pure trivial
      next isClean =>
        have string : Terminated bytes (cur + headerSize) (namesz.toNat - 1) :=
          ⟨last ▸ nul, tells.mp (by simpa using isClean)⟩
        obtain ⟨name, length, holds⟩ := string.text
        have named : name.chars.length + 1 = namesz.toNat := by omega
        refine (strEq_tells name.noNul trailerName.noNul holds).bind fun isTrailer compared => ?_
        split
        next isTrailer => exact Runs.pure (header.trailerAt holds named (compared.mp isTrailer))
        next other =>
          split
          · exact Runs.pure trivial
          next nameFits =>
            split
            · exact Runs.pure trivial
            next fileFits =>
              exact Runs.pure (header.entryAt holds named (fun same => other (compared.mpr same)) (by omega))

end Header

theorem cpioRecord_reads (cur : Nat) :
    Runs ending (cpioRecord bytes bytes.length cur) (ParsedAs bytes cur) := by
  have size : headerSize = 110 := rfl
  unfold cpioRecord
  split
  · exact Runs.pure trivial
  next room =>
    have inside : cur + headerSize ≤ bytes.length := by omega
    have magicSize : cpioNewcMagic.length = 6 := rfl
    refine (magicFrom_runs (by omega)).bind fun magic magicHolds => ?_
    split
    · exact Runs.pure trivial
    next isMagic =>
      -- the three numbers lie in the header
      refine (hexToU32_runs (by simp only [cNamesize]; omega)).bind fun namesz namesize => ?_
      cases namesz with
      | none => exact Runs.pure trivial
      | some namesz =>
        refine (hexToU32_runs (by simp only [cFilesize]; omega)).bind fun filesz filesize => ?_
        cases filesz with
        | none => exact Runs.pure trivial
        | some filesz =>
          refine (hexToU32_runs (by simp only [cMode]; omega)).bind fun mode modeRead => ?_
          cases mode with
          | none => exact Runs.pure trivial
          | some mode =>
            exact cpioBody_runs ⟨inside, magicHolds (by simpa using isMagic), modeRead mode rfl, filesize filesz rfl,
              namesize namesz rfl⟩

theorem Newc.entryIn {r : Newc} {cur : Nat} (holds : Holds bytes cur r.bytes) :
    EntryIn bytes cur (r.call cur) (cur + r.bytes.length) := by
  have described := Newc.call_describes holds
  have length := r.bytes_length
  have small := r.nameFits
  have nameSpan : _ ≤ align4 _ ∧ align4 (headerSize + (r.name.chars.length + 1)) < _ :=
    roundUp4_bounds (by simp only [headerSize]; omega)
  have fileSpan : _ ≤ align4 _ ∧ align4 r.data.length < _ := roundUp4_bounds (by have := r.dataFits; omega)
  refine ⟨⟨_, r.name.terminatedAt described.name, ?_⟩, rfl, ?_, holds.fits⟩
  · simp only [Newc.call, Newc.dataAt]
    omega
  · rw [described.size]
    simp only [Newc.call]
    omega

theorem ParsedAs.parsedIn {cur : Nat} {parsed : Parsed} (parsedAs : ParsedAs bytes cur parsed) :
    ParsedIn bytes cur parsed := by
  cases parsed with
  | bad => trivial
  | trailer => trivial
  | entry call after =>
    obtain ⟨r, holds, -, called, ends⟩ := parsedAs
    rw [ParsedIn, called, ends]
    exact Newc.entryIn holds

theorem cpioRecord_runs (cur : Nat) : Runs ending (cpioRecord bytes bytes.length cur) (ParsedIn bytes cur) :=
  (cpioRecord_reads cur).weaken fun _ => ParsedAs.parsedIn

theorem EntryIn.advances {cur after : Nat} {call : Call} (entry : EntryIn bytes cur call after) : cur < after := by
  obtain ⟨n, -, before⟩ := entry.name
  have size : headerSize = 110 := rfl
  have header := entry.header
  have data := entry.data
  omega

theorem cpioIterate_runs {σ : Type} {start stop : UInt64} (placed : bytes.length = stop.toNat - start.toNat)
    {fn : Call → σ → Scan σ} (ctx : σ)
    (calls : ∀ cur call after ctx, EntryIn bytes cur call after → Runs ending (fn call ctx) fun _ => True) :
    Runs ending (cpioIterate start stop bytes (some fn) ctx) fun _ => True := by
  unfold cpioIterate
  dsimp only
  split
  · exact Runs.pure trivial
  · rw [← placed]
    refine Runs.loop (fun _ => True) (fun s => bytes.length - s.1) (fun s _ => ?_) trivial
    unfold cpioRound
    refine (cpioRecord_runs s.1).bind fun parsed place => ?_
    cases parsed with
    | bad => exact Runs.pure trivial
    | trailer => exact Runs.pure trivial
    | entry call after =>
      refine (calls s.1 call after s.2 place).bind fun ctx _ => Runs.pure ⟨trivial, fun _ => ?_⟩
      have advances := EntryIn.advances place
      have inside := EntryIn.inside place
      dsimp only
      omega

theorem cpioFind_runs {start stop : UInt64} (placed : bytes.length = stop.toNat - start.toNat) (name : Option Text)
    (wanted : Wanted) (st : FindCtx) : Runs ending (cpioFind start stop bytes name wanted st) fun _ => True := by
  cases name with
  | none => exact Runs.pure trivial
  | some name =>
    refine (cpioIterate_runs placed _ fun cur call after ctx entry => ?_).bind fun result _ => ?_
    · unfold cpioFindCb
      split
      · exact Runs.pure trivial
      · obtain ⟨n, string, -⟩ := entry.name
        obtain ⟨own, -, holds⟩ := string.text
        refine (strEq_tells own.noNul name.noNul holds).bind fun same _ => ?_
        split <;> exact Runs.pure trivial
    · obtain ⟨ret, after⟩ := result
      dsimp only
      split <;> exact Runs.pure trivial

end OrangeKernel.Cpio
