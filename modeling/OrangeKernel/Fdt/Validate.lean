import OrangeKernel.Fdt.Grammar
import OrangeKernel.Fdt.Cells

set_option autoImplicit false

namespace OrangeKernel.Fdt

open ByteScan BigEndian Machine

variable {ending : Prop} {bytes : List UInt8} {blocks : Blocks}

theorem fdt32ToCpu_toNat (v : UInt32) : (fdt32ToCpu v).toNat =
    v.toNat % 256 * 2 ^ 24 + v.toNat / 2 ^ 8 % 256 * 2 ^ 16 + v.toNat / 2 ^ 16 % 256 * 2 ^ 8 + v.toNat / 2 ^ 24 := by
  have bound := v.toNat_lt
  have masked : ∀ (k : Nat) (mask : UInt32), mask.toNat = 255 * 2 ^ k →
      (v &&& mask).toNat = v.toNat / 2 ^ k % 256 * 2 ^ k := by
    intro k mask is
    rw [UInt32.toNat_and, is, and_byteMask]
  have low := masked 0 0x000000ff (by decide)
  have second := masked 8 0x0000ff00 (by decide)
  have third := masked 16 0x00ff0000 (by decide)
  have high := masked 24 0xff000000 (by decide)
  rw [Nat.pow_zero, Nat.div_one, Nat.mul_one] at low
  have eight : (8 : UInt32).toNat % 32 = 8 := rfl
  have most : (24 : UInt32).toNat % 32 = 24 := rfl
  unfold fdt32ToCpu
  simp only [UInt32.toNat_or, UInt32.toNat_shiftLeft, UInt32.toNat_shiftRight, low, second, third, high, eight, most,
    Nat.shiftLeft_eq, Nat.shiftRight_eq_div_pow]
  have top : v.toNat / 2 ^ 24 < 256 := by omega
  have digit : ∀ n : Nat, n % 256 < 256 := fun n => Nat.mod_lt n (by decide)
  have first : ∀ a < 256, a * 2 ^ 24 % 2 ^ 32 = 2 ^ 24 * a := by omega
  have next : ∀ b < 256, b * 2 ^ 8 * 2 ^ 8 % 2 ^ 32 = 2 ^ 16 * b := by
    intro b small
    rw [Nat.mul_assoc, ← Nat.pow_add]
    omega
  have after : ∀ c : Nat, c * 2 ^ 16 / 2 ^ 8 = 2 ^ 8 * c := by omega
  rw [first _ (digit _), next _ (digit _), after, Nat.mod_eq_of_lt top, Nat.mul_div_cancel _ (by decide)]
  exact or_bytes (digit _) (digit _) top

theorem be32_load (b0 b1 b2 b3 : UInt8) : be32 (fdt32ToCpu
    (UInt32.ofNat (b0.toNat + 256 * (b1.toNat + 256 * (b2.toNat + 256 * b3.toNat))))) = [b0, b1, b2, b3] := by
  have bound0 := b0.toNat_lt
  have bound1 := b1.toNat_lt
  have bound2 := b2.toNat_lt
  have bound3 := b3.toNat_lt
  apply be32_of_bytes
  rw [fdt32ToCpu_toNat, UInt32.toNat_ofNat_of_lt' (by unfold UInt32.size; omega)]
  generalize number : b0.toNat + 256 * (b1.toNat + 256 * (b2.toNat + 256 * b3.toNat)) = n
  have digit0 : n % 256 = b0.toNat := by omega
  have digit1 : n / 2 ^ 8 % 256 = b1.toNat := by omega
  have digit2 : n / 2 ^ 16 % 256 = b2.toNat := by omega
  have digit3 : n / 2 ^ 24 = b3.toNat := by omega
  rw [digit0, digit1, digit2, digit3]
  omega

theorem cell_word {i : Nat} (inside : i + 4 ≤ bytes.length) :
    Runs ending (cell bytes i) fun v => ∃ u : UInt32, u.toNat = v ∧ Holds bytes i (be32 u) := by
  have loads : Runs ending (load32 bytes i) fun v => Holds bytes i (be32 (fdt32ToCpu v)) := by
    refine (Runs.byteAt (by omega)).bind fun b0 at0 => ?_
    refine (Runs.byteAt (by omega)).bind fun b1 at1 => ?_
    refine (Runs.byteAt (by omega)).bind fun b2 at2 => ?_
    refine (Runs.byteAt (by omega)).bind fun b3 at3 => Runs.pure ?_
    rw [be32_load]
    refine ⟨bytes.take i, bytes.drop (i + 4), ?_, by rw [List.length_take]; omega⟩
    have word : (bytes.drop i).take 4 = [b0, b1, b2, b3] := by
      apply List.ext_getElem?
      intro j
      match j with
      | 0 => simpa using at0
      | 1 => simpa using at1
      | 2 => simpa using at2
      | 3 => simpa using at3
      | j + 4 => simp
    rw [← word, ← List.drop_drop, List.append_assoc, List.take_append_drop, List.take_append_drop]
  exact loads.bind fun v holds => Runs.pure ⟨_, rfl, holds⟩

def remaining (bytes : List UInt8) (blocks : Blocks) (cur : Nat) : List UInt8 := (bytes.take blocks.stop).drop cur

def stringsOf (bytes : List UInt8) (blocks : Blocks) : List UInt8 := (bytes.drop blocks.strings).take blocks.stringSize

theorem remaining_drop (cur n : Nat) : (remaining bytes blocks cur).drop n = remaining bytes blocks (cur + n) := by
  rw [remaining, List.drop_drop, remaining]

theorem remaining_length (stop : blocks.stop ≤ bytes.length) (cur : Nat) :
    (remaining bytes blocks cur).length = blocks.stop - cur := by
  rw [remaining, List.length_drop, List.length_take, Nat.min_eq_left stop]

theorem remaining_get {cur i : Nat} (inside : cur + i < blocks.stop) :
    (remaining bytes blocks cur)[i]? = bytes[cur + i]? := by
  rw [remaining, List.getElem?_drop, List.getElem?_take_of_lt inside]

theorem remaining_of_holds {cur : Nat} {field : List UInt8} (holds : Holds bytes cur field)
    (room : cur + field.length ≤ blocks.stop) :
    remaining bytes blocks cur = field ++ remaining bytes blocks (cur + field.length) := by
  obtain ⟨before, after, rfl, rfl⟩ := holds
  have taken : ((before ++ field ++ after).take blocks.stop) =
      before ++ (field ++ after.take (blocks.stop - (before ++ field).length)) := by
    rw [List.take_append, List.take_of_length_le (by simpa using room), List.append_assoc]
  rw [remaining, remaining, taken, List.drop_left, ← List.drop_drop, List.drop_left, List.drop_left]

def CheckState.Good (bytes : List UInt8) (blocks : Blocks) (s : CheckState) : Prop :=
  Recognized (stringsOf bytes blocks) (remaining bytes blocks s.cur) s.depth s.rootSeen

def Decides (bytes : List UInt8) (blocks : Blocks) (s : CheckState) : Round CheckState Int → Prop :=
  Round.Meets
    (fun after => s.cur < after.cur ∧ after.cur ≤ blocks.stop ∧ (s.Good bytes blocks ↔ after.Good bytes blocks))
    fun result => result = 0 ∧ s.Good bytes blocks ∨ result = -1 ∧ ¬ s.Good bytes blocks

section Check

variable {s : CheckState}

theorem Decides.reject (bad : ¬ s.Good bytes blocks) : Decides bytes blocks s (.done (-1)) := Or.inr ⟨rfl, bad⟩

structure Word (bytes : List UInt8) (blocks : Blocks) (cur token : Nat) : Prop where
  room : cur + 4 ≤ blocks.stop
  small : token < 2 ^ 32
  shape : remaining bytes blocks cur = tokenWord token ++ remaining bytes blocks (cur + 4)

theorem Word.good_iff {token : Nat} (word : Word bytes blocks s.cur token) : s.Good bytes blocks ↔
    After (stringsOf bytes blocks) token (remaining bytes blocks (s.cur + 4)) s.depth s.rootSeen := by
  rw [CheckState.Good, word.shape]
  exact recognized_token word.small

theorem checkBegin_decides (ok : BlocksOk bytes blocks) (word : Word bytes blocks s.cur fdtBeginNode) :
    Runs ending (checkBegin bytes blocks { s with cur := s.cur + 4 }) (Decides bytes blocks s) := by
  have room := word.room
  have inBlob := ok.stop
  have small := ok.small
  have good := word.good_iff.trans after_begin
  have left := remaining_length inBlob (s.cur + 4)
  unfold checkBegin
  split
  next second => exact Runs.pure (.reject fun is => (good.mp is).1 second)
  split
  next deep =>
    refine Runs.pure (.reject fun is => ?_)
    have shallow := (good.mp is).2.1
    dsimp only at deep
    omega
  next first shallow =>
  dsimp only at first shallow ⊢
  refine (scanNul_finds (by omega)).bind fun n scanned => ?_
  obtain ⟨before, full | ⟨less, nul⟩⟩ := scanned
  · -- No NUL up to the end of the block: there is no name.
    rw [if_pos (Or.inl (by omega))]
    refine Runs.pure (.reject fun is => ?_)
    obtain ⟨-, -, name, rest, named, shape, -⟩ := good.mp is
    refine not_paddedName (fun i inside => ?_) shape named
    rw [left] at inside
    rw [remaining_get (by omega)]
    exact before i (by omega)
  · have nul' : (remaining bytes blocks (s.cur + 4))[n]? = some 0 := by rw [remaining_get (by omega), nul]
    have before' : ∀ i < n, (remaining bytes blocks (s.cur + 4))[i]? ≠ some 0 := by
      intro i inside
      rw [remaining_get (by omega)]
      exact before i inside
    have named := paddedName_iff nul' before' fun rest =>
      Recognized (stringsOf bytes blocks) rest (s.depth + 1) true
    have aligned : align4 (n + 1) = n + 1 + padding (n + 1) := roundUp4_eq (by omega)
    rw [remaining_drop, left, ← aligned] at named
    rw [named] at good
    split
    next over' =>
      refine Runs.pure (.reject fun is => ?_)
      have fits := (good.mp is).2.2.1
      omega
    next fits =>
      have step : n < align4 (n + 1) := (roundUp4_bounds (by omega)).1
      refine Runs.pure ⟨by dsimp only; omega, by dsimp only; omega, ?_⟩
      rw [good]
      exact ⟨fun all => all.2.2.2, fun rest => ⟨first, by omega, by omega, rest⟩⟩

theorem checkProp_decides (ok : BlocksOk bytes blocks) (word : Word bytes blocks s.cur fdtProp) :
    Runs ending (checkProp bytes blocks { s with cur := s.cur + 4 }) (Decides bytes blocks s) := by
  have room := word.room
  have inBlob := ok.stop
  have inStrings := ok.strings
  have small := ok.small
  have good := word.good_iff.trans after_prop
  have left := remaining_length inBlob (s.cur + 4)
  unfold checkProp
  split
  next short =>
    refine Runs.pure (.reject fun is => ?_)
    obtain ⟨nested, body, rest, property, shape, -⟩ := good.mp is
    have length := property.length
    rw [shape, List.length_append] at left
    dsimp only at short
    omega
  next enough =>
  dsimp only at enough ⊢
  refine (cell_word (by omega)).bind fun len lenCell => ?_
  refine (cell_word (by omega)).bind fun nameoff nameCell => ?_
  obtain ⟨len, rfl, lenHolds⟩ := lenCell
  obtain ⟨nameoff, rfl, nameHolds⟩ := nameCell
  have cells : remaining bytes blocks (s.cur + 4) =
      be32 len ++ (be32 nameoff ++ remaining bytes blocks (s.cur + 4 + 8)) := by
    rw [remaining_of_holds lenHolds (by rw [be32_length]; omega), be32_length,
      remaining_of_holds nameHolds (by rw [be32_length]; omega), be32_length]
  rw [cells, propertyBody_iff fun rest => Recognized (stringsOf bytes blocks) rest s.depth s.rootSeen,
    remaining_length inBlob, remaining_drop, stringIn_iff] at good
  have payload : align4 len.toNat ≤ blocks.stop - (s.cur + 4 + 8) ∧ len.toNat < 2 ^ 31 ↔
      len.toNat + padding len.toNat ≤ blocks.stop - (s.cur + 4 + 8) := by
    by_cases huge : len.toNat < 2 ^ 31
    · rw [align4, roundUp4_eq (by omega)]
      exact and_iff_left huge
    · exact ⟨fun both => absurd both.2 huge, fun fits => by omega⟩
  split
  next bad =>
    refine Runs.pure (.reject fun is => ?_)
    obtain ⟨-, fits, string, -⟩ := good.mp is
    have fits := payload.mpr fits
    have inside := List.length_pos_of_mem string
    rw [List.length_drop, stringsOf, List.length_take] at inside
    omega
  next fine =>
  refine (scanNul_finds (by omega)).bind fun n scanned => ?_
  have byte : ∀ i < blocks.stringSize - nameoff.toNat,
      ((stringsOf bytes blocks).drop nameoff.toNat)[i]? = bytes[blocks.strings + nameoff.toNat + i]? := by
    intro i inside
    rw [List.getElem?_drop, stringsOf, List.getElem?_take_of_lt (by omega), List.getElem?_drop, Nat.add_assoc]
  obtain ⟨before, full | ⟨less, nul⟩⟩ := scanned
  · rw [if_pos full]
    refine Runs.pure (.reject fun is => ?_)
    obtain ⟨-, -, string, -⟩ := good.mp is
    obtain ⟨i, found⟩ := List.mem_iff_getElem?.mp string
    have inside := (List.getElem?_eq_some_iff.mp found).1
    rw [List.length_drop, stringsOf, List.length_take] at inside
    rw [byte i (by omega)] at found
    exact before i (by omega) found
  · have string : 0 ∈ (stringsOf bytes blocks).drop nameoff.toNat :=
      List.mem_of_getElem? ((byte n less).trans nul)
    have fits := payload.mp (by omega)
    rw [if_neg (by omega), align4, roundUp4_eq (by omega)]
    refine Runs.pure ⟨by dsimp only; omega, by dsimp only; omega, ?_⟩
    rw [good]
    exact ⟨fun all => all.2.2.2, fun rest => ⟨by omega, fits, string, rest⟩⟩

theorem checkToken_decides (ok : BlocksOk bytes blocks) (inside : s.cur ≤ blocks.stop) :
    Runs ending (checkToken bytes blocks s) (Decides bytes blocks s) := by
  have inBlob := ok.stop
  unfold checkToken
  split
  next room =>
    refine (cell_word (by omega)).bind fun token cell => ?_
    obtain ⟨u, rfl, holds⟩ := cell
    have word : Word bytes blocks s.cur u.toNat := by
      refine ⟨by omega, u.toNat_lt, ?_⟩
      rw [tokenWord, UInt32.ofNat_toNat]
      exact remaining_of_holds holds (by rw [be32_length]; omega)
    have good := word.good_iff
    dsimp only
    split
    next begins =>
      rw [begins] at word
      exact checkBegin_decides ok word
    next notBegin =>
    split
    next ends =>
      rw [ends, after_endNode] at good
      split
      next outermost =>
        refine Runs.pure (.reject fun is => ?_)
        obtain ⟨outer, depth, -⟩ := good.mp is
        omega
      next nested =>
        refine Runs.pure ⟨Nat.lt_add_of_pos_right (by decide), word.room, ?_⟩
        rw [good]
        constructor
        · rintro ⟨outer, depth, rest⟩
          have below : s.depth - 1 = outer := by omega
          rw [CheckState.Good]
          dsimp only
          rwa [below]
        · exact fun rest => ⟨s.depth - 1, (Nat.succ_pred_eq_of_ne_zero nested).symm, rest⟩
    next notEndNode =>
    split
    next property =>
      rw [property] at word
      exact checkProp_decides ok word
    next notProp =>
    split
    next nop =>
      rw [nop, after_nop] at good
      exact Runs.pure ⟨Nat.lt_add_of_pos_right (by decide), word.room, good⟩
    next notNop =>
    split
    next ends =>
      rw [ends, after_end] at good
      refine Runs.pure ?_
      split
      next whole => exact Or.inl ⟨rfl, good.mpr ⟨whole.2, whole.1⟩⟩
      next early => exact .reject fun is => early (good.mp is).symm
    next notEnd =>
      refine Runs.pure (.reject fun is => ?_)
      rcases good.mp is with begins | ends | property | nop | finish
      · exact notBegin begins.1
      · exact notEndNode ends.1
      · exact notProp property.1
      · exact notNop nop.1
      · exact notEnd finish.1
  next short =>
    refine Runs.pure (.reject fun is => ?_)
    have length := Recognized.length is
    rw [remaining_length inBlob] at length
    omega

end Check

theorem tokens_decide {offset : Nat} (ok : BlocksOk bytes blocks) (inside : offset ≤ blocks.stop) :
    Runs ending (loop (checkToken bytes blocks) { cur := offset, depth := 0, rootSeen := false }) fun result =>
      result = 0 ∧ IsTree (stringsOf bytes blocks) (remaining bytes blocks offset) ∨
        result = -1 ∧ ¬ IsTree (stringsOf bytes blocks) (remaining bytes blocks offset) := by
  let start : CheckState := { cur := offset, depth := 0, rootSeen := false }
  have tree : start.Good bytes blocks ↔ IsTree (stringsOf bytes blocks) (remaining bytes blocks offset) :=
    recognized_iff
  rw [← tree]
  refine Runs.loop (fun s => s.cur ≤ blocks.stop ∧ (start.Good bytes blocks ↔ s.Good bytes blocks))
    (fun s => blocks.stop - s.cur) (fun s kept => ?_) ⟨inside, Iff.rfl⟩
  refine (checkToken_decides ok kept.1).weaken fun round decides => ?_
  cases round with
  | done result =>
    rw [Decides, ← kept.2] at decides
    exact decides
  | next after =>
    obtain ⟨moved, within, same⟩ := decides
    exact ⟨⟨within, kept.2.trans same⟩, fun _ => by omega⟩

theorem badBlocks_iff {total offset size stringOffset stringSize reserveOffset : Nat} :
    badBlocks total offset size stringOffset stringSize reserveOffset = false ↔
      (40 ≤ total ∧ total ≤ 2 ^ 31 - 1) ∧ (40 ≤ offset ∧ offset % 4 = 0 ∧ offset + size ≤ total) ∧
      (40 ≤ stringOffset ∧ stringOffset + stringSize ≤ total) ∧
      (40 ≤ reserveOffset ∧ reserveOffset % 8 = 0 ∧ reserveOffset + 16 ≤ total) := by
  have header : headerSize = 40 := rfl
  simp only [badBlocks, Bool.or_eq_false_iff, decide_eq_false_iff_not]
  omega

theorem fdtCheckHeader_decides {fdt : Blob} (placed : fdt.addr ≠ 0) (aligned : fdt.addr &&& 3 = 0)
    (long : headerSize ≤ fdt.bytes.length)
    (whole : ∀ total, Holds fdt.bytes 4 (be32 total) → total.toNat ≤ fdt.bytes.length) :
    Runs ending (fdtCheckHeader fdt) fun result =>
      result = 0 ∧ (∃ h, WellFormed fdt.bytes h) ∨ result = -1 ∧ ¬ ∃ h, WellFormed fdt.bytes h := by
  have header : headerSize = 40 := rfl
  unfold fdtCheckHeader
  rw [if_neg (by simp [placed, aligned])]
  refine (cell_word (by omega)).bind fun magic magicCell => ?_
  obtain ⟨magic, rfl, magicAt⟩ := magicCell
  split
  next wrong =>
    refine Runs.pure (Or.inr ⟨rfl, ?_⟩)
    rintro ⟨h, formed⟩
    obtain rfl := be32_inj (magicAt.unique formed.magic rfl)
    exact wrong rfl
  next right =>
  have isMagic : magic = 0xd00dfeed := UInt32.toNat_inj.mp (not_ne_iff.mp right)
  subst isMagic
  refine (cell_word (by omega)).bind fun total totalCell => ?_
  refine (cell_word (by omega)).bind fun offset offsetCell => ?_
  refine (cell_word (by omega)).bind fun size sizeCell => ?_
  refine (cell_word (by omega)).bind fun stringOffset stringOffsetCell => ?_
  refine (cell_word (by omega)).bind fun stringSize stringSizeCell => ?_
  refine (cell_word (by omega)).bind fun reserveOffset reserveCell => ?_
  obtain ⟨total, rfl, totalAt⟩ := totalCell
  obtain ⟨offset, rfl, offsetAt⟩ := offsetCell
  obtain ⟨size, rfl, sizeAt⟩ := sizeCell
  obtain ⟨stringOffset, rfl, stringOffsetAt⟩ := stringOffsetCell
  obtain ⟨stringSize, rfl, stringSizeAt⟩ := stringSizeCell
  obtain ⟨reserveOffset, rfl, reserveAt⟩ := reserveCell
  -- The header that was read is the only one.
  have only : ∀ h, WellFormed fdt.bytes h →
    h = ⟨total, offset, size, stringOffset, stringSize, reserveOffset⟩ := by
    rintro ⟨total', offset', size', stringOffset', stringSize', reserveOffset'⟩ formed
    obtain rfl := be32_inj (totalAt.unique formed.total rfl)
    obtain rfl := be32_inj (offsetAt.unique formed.offset rfl)
    obtain rfl := be32_inj (sizeAt.unique formed.size rfl)
    obtain rfl := be32_inj (stringOffsetAt.unique formed.stringOffset rfl)
    obtain rfl := be32_inj (stringSizeAt.unique formed.stringSize rfl)
    obtain rfl := be32_inj (reserveAt.unique formed.reserveOffset rfl)
    rfl
  split
  next bad =>
    refine Runs.pure (Or.inr ⟨rfl, ?_⟩)
    rintro ⟨h, formed⟩
    obtain rfl := only h formed
    have bounds := badBlocks_iff.mpr
      ⟨formed.totalBounds, formed.structBlock, formed.stringsBlock, formed.reserveBlock⟩
    exact absurd bad (by simp [bounds])
  next good =>
    obtain ⟨totalBounds, structBlock, stringsBlock, reserveBlock⟩ := badBlocks_iff.mp (Bool.not_eq_true _ ▸ good)
    have inBlob := whole total totalAt
    have ok : BlocksOk fdt.bytes ⟨offset.toNat + size.toNat, stringOffset.toNat, stringSize.toNat⟩ :=
      ⟨by dsimp only; omega, by dsimp only; omega, by dsimp only; omega⟩
    refine (tokens_decide ok (Nat.le_add_right _ _)).weaken fun result decided => ?_
    have block : remaining fdt.bytes ⟨offset.toNat + size.toNat, stringOffset.toNat, stringSize.toNat⟩
      offset.toNat =
        (fdt.bytes.drop offset.toNat).take size.toNat := by
      rw [remaining, List.drop_take, Nat.add_sub_cancel_left]
    rw [block] at decided
    refine decided.imp (And.imp_right fun tree => ?_) (And.imp_right fun noTree formed => ?_)
    · exact ⟨⟨total, offset, size, stringOffset, stringSize, reserveOffset⟩,
        { magic := magicAt, total := totalAt, offset := offsetAt, stringOffset := stringOffsetAt
          reserveOffset := reserveAt, stringSize := stringSizeAt, size := sizeAt, totalBounds := totalBounds
          structBlock := structBlock, stringsBlock := stringsBlock, reserveBlock := reserveBlock, tree := tree }⟩
    · obtain ⟨h, formed⟩ := formed
      obtain rfl := only h formed
      exact noTree formed.tree

theorem cell_inside {i fuel v : Nat} (answered : cell bytes i fuel = .ok v) : i + 4 ≤ bytes.length := by
  obtain ⟨word, loaded, -⟩ := bind_ok answered
  obtain ⟨b0, -, behind0⟩ := bind_ok loaded
  obtain ⟨b1, -, behind1⟩ := bind_ok behind0
  obtain ⟨b2, -, behind2⟩ := bind_ok behind1
  obtain ⟨b3, last, -⟩ := bind_ok behind2
  by_contra outside
  rw [byteAt, List.getElem?_eq_none (by omega)] at last
  cases last

theorem cellIs_of_holds {i : Nat} {u : UInt32} (holds : Holds bytes i (be32 u)) : CellIs bytes i u.toNat := by
  have inside := holds.fits
  rw [be32_length] at inside
  have reads : Runs True (cell bytes i) (CellIs bytes i) := cell_runs inside
  have words : Runs True (cell bytes i) fun v => ∃ u : UInt32, u.toNat = v ∧ Holds bytes i (be32 u) :=
    cell_word inside
  obtain ⟨v, -, known⟩ := reads.answered
  obtain ⟨w, rfl, same⟩ := words.post 0 v (known 0)
  rwa [be32_inj (holds.unique same rfl)]

theorem Blob.declared_holds {fdt : Blob} {total : UInt32} (holds : Holds fdt.bytes 4 (be32 total)) :
    fdt.declared = total.toNat :=
  Blob.declared_eq (cellIs_of_holds holds)

theorem Accepts.long {fdt : Blob} (accepts : Accepts fdt) : headerSize ≤ fdt.bytes.length := by
  obtain ⟨fuel, answered⟩ := accepts
  unfold fdtCheckHeader at answered
  split at answered
  · cases answered
  obtain ⟨magic, -, afterMagic⟩ := bind_ok answered
  split at afterMagic
  · cases afterMagic
  obtain ⟨total, -, afterTotal⟩ := bind_ok afterMagic
  obtain ⟨offset, -, afterOffset⟩ := bind_ok afterTotal
  obtain ⟨size, read, -⟩ := bind_ok afterOffset
  exact cell_inside read

theorem fdtCheckHeader_exact (fdt : Blob) (placed : fdt.addr ≠ 0) (aligned : fdt.addr &&& 3 = 0)
    (whole : fdt.declared ≤ fdt.bytes.length) :
    (Accepts fdt ↔ ∃ h, WellFormed fdt.bytes h) ∧
      (headerSize ≤ fdt.bytes.length → Answers (fdtCheckHeader fdt) 0 ∨ Answers (fdtCheckHeader fdt) (-1)) := by
  have size : ∀ total, Holds fdt.bytes 4 (be32 total) → total.toNat ≤ fdt.bytes.length := by
    intro total holds
    rw [← Blob.declared_holds holds]
    exact whole
  by_cases long : headerSize ≤ fdt.bytes.length
  · have decides : Runs True (fdtCheckHeader fdt) _ := fdtCheckHeader_decides placed aligned long size
    obtain ⟨result, answers, decided⟩ := decides.answered
    constructor
    · constructor
      · rintro ⟨fuel, answered⟩
        rcases decides.post fuel 0 answered with ⟨-, formed⟩ | ⟨other, -⟩
        · exact formed
        · cases other
      · intro formed
        rcases decided with ⟨rfl, -⟩ | ⟨-, not⟩
        · obtain ⟨fuel, answered⟩ := answers
          exact ⟨fuel, answered fuel (Nat.le_refl _)⟩
        · exact absurd formed not
    · intro _
      rcases decided with ⟨rfl, -⟩ | ⟨rfl, -⟩
      · exact Or.inl answers
      · exact Or.inr answers
  · refine ⟨iff_of_false (fun accepts => long accepts.long) ?_, fun enough => absurd enough long⟩
    rintro ⟨h, formed⟩
    exact long formed.size.fits

theorem fdtCheckHeader_exact_memory : Accepts memoryBlob ∧ ∃ h, WellFormed memoryBlob.bytes h :=
  ⟨memoryBlob_accepted,
    (fdtCheckHeader_exact memoryBlob (by decide) (by decide) memoryBlob_whole).1.mp memoryBlob_accepted⟩

end OrangeKernel.Fdt
