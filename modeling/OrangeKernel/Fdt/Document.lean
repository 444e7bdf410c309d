import OrangeKernel.Fdt.Validate
import OrangeKernel.Shared.Forest

set_option autoImplicit false

namespace OrangeKernel.Fdt

open ByteScan BigEndian Machine

structure Heading where
  offset : Nat
  name : Text

structure Property where
  name : Text
  data : Nat
  payload : List UInt8

abbrev Items := Forest Heading Property

structure Document where
  root : Heading
  items : Items

def Document.forest (doc : Document) : Items := .node doc.root doc.items .nil

def Document.places (doc : Document) : List (Forest.Place Heading Property) := doc.forest.places []

def Document.properties (doc : Document) : List (Heading × Property) := doc.items.owned doc.root

def Heading.width (x : Heading) : Nat := 4 + (x.name.chars.length + 1 + padding (x.name.chars.length + 1))

def Property.width (p : Property) : Nat := 12 + (p.payload.length + padding p.payload.length)

structure BeginAt (bytes : List UInt8) (base cur : Nat) (x : Heading) : Prop where
  token : Holds bytes cur (tokenWord fdtBeginNode)
  offset : cur = base + x.offset
  name : Holds bytes (cur + 4) x.name.bytes

structure PropAt (bytes : List UInt8) (blocks : Blocks) (cur : Nat) (p : Property) : Prop where
  token : Holds bytes cur (tokenWord fdtProp)
  len : ∃ len : UInt32, len.toNat = p.payload.length ∧ Holds bytes (cur + 4) (be32 len)
  name : ∃ nameoff : UInt32, Holds bytes (cur + 8) (be32 nameoff) ∧
    Holds bytes (blocks.strings + nameoff.toNat) p.name.bytes
  nameFits : p.name.chars.length < blocks.stringSize
  data : p.data = cur + 12
  payload : Holds bytes p.data p.payload

inductive Lays (bytes : List UInt8) (blocks : Blocks) (base : Nat) :
    (cur level : Nat) → Items → (after : Nat) → Prop
  | done {cur level : Nat} : Lays bytes blocks base cur level .nil cur
  | nop {cur level after : Nat} {f : Items} (token : Holds bytes cur (tokenWord fdtNop))
      (rest : Lays bytes blocks base (cur + 4) level f after) : Lays bytes blocks base cur level f after
  | prop {cur level after : Nat} {p : Property} {f : Items} (property : PropAt bytes blocks cur p)
      (rest : Lays bytes blocks base (cur + p.width) level f after) : Lays bytes blocks base cur level (.leaf p f) after
  | node {cur level middle after : Nat} {x : Heading} {inner f : Items} (heading : BeginAt bytes base cur x)
      (shallow : level < fdtMaxDepth) (content : Lays bytes blocks base (cur + x.width) (level + 1) inner middle)
      (token : Holds bytes middle (tokenWord fdtEndNode))
      (rest : Lays bytes blocks base (middle + 4) level f after) :
      Lays bytes blocks base cur level (.node x inner f) after

variable {cur level after : Nat} {bytes : List UInt8} {base : Nat} {f : Items}

theorem Lays.le {blocks : Blocks} (lays : Lays bytes blocks base cur level f after) : cur ≤ after := by
  induction lays with
  | done => exact Nat.le_refl _
  | nop _ _ ih => omega
  | prop _ _ ih => omega
  | node _ _ _ _ _ contentIh restIh => omega

theorem Lays.aligned {blocks : Blocks} (lays : Lays bytes blocks base cur level f after) : after % 4 = cur % 4 := by
  induction lays with
  | done => rfl
  | nop _ _ ih => omega
  | @prop _ _ _ p _ _ _ ih =>
    have aligned := padding_aligns p.payload.length
    rw [Property.width] at ih
    omega
  | @node _ _ _ _ x _ _ _ _ _ _ _ contentIh restIh =>
    have aligned := padding_aligns (x.name.chars.length + 1)
    rw [Heading.width] at contentIh
    omega

structure NodeAt (bytes : List UInt8) (blocks : Blocks) (base start middle : Nat)
    (place : Forest.Place Heading Property) : Prop where
  heading : BeginAt bytes base start place.node
  shallow : place.above.length < fdtMaxDepth
  content : Lays bytes blocks base (start + place.node.width) (place.above.length + 1) place.inner middle
  token : Holds bytes middle (tokenWord fdtEndNode)

theorem Lays.place {blocks : Blocks} (lays : Lays bytes blocks base cur level f after) {above : List Heading}
    (depth : above.length = level) {place : Forest.Place Heading Property} (member : place ∈ f.places above) :
    ∃ start middle, NodeAt bytes blocks base start middle place ∧ cur ≤ start ∧ start % 4 = cur % 4 ∧
      middle + 4 ≤ after := by
  induction lays generalizing above with
  | done => cases member
  | nop _ _ ih =>
    obtain ⟨start, middle, at', low, aligned, high⟩ := ih depth member
    exact ⟨start, middle, at', by omega, by omega, high⟩
  | @prop _ _ _ p _ _ _ ih =>
    obtain ⟨start, middle, at', low, aligned, high⟩ := ih depth member
    have width := padding_aligns p.payload.length
    rw [Property.width] at low aligned
    exact ⟨start, middle, at', by omega, by omega, high⟩
  | @node cur level middle after x inner f heading shallow content token rest contentIh restIh =>
    have width := padding_aligns (x.name.chars.length + 1)
    have behind := rest.le
    rcases List.mem_cons.mp member with rfl | member
    · subst depth
      exact ⟨cur, middle, ⟨heading, shallow, content, token⟩, Nat.le_refl _, rfl, behind⟩
    rcases List.mem_append.mp member with inside | beside
    · obtain ⟨start, last, at', low, aligned, high⟩ := contentIh (by simp [depth]) inside
      rw [Heading.width] at low aligned
      exact ⟨start, last, at', by omega, by omega, by omega⟩
    · obtain ⟨start, last, at', low, aligned, high⟩ := restIh depth beside
      have before := content.le
      have contentAligned := content.aligned
      rw [Heading.width] at before contentAligned
      exact ⟨start, last, at', by omega, by omega, high⟩

theorem Lays.property {blocks : Blocks} (lays : Lays bytes blocks base cur level f after) {p : Property}
    (member : p ∈ f.leaves) :
    ∃ start, PropAt bytes blocks start p ∧ start + p.width ≤ after := by
  induction lays with
  | done => cases member
  | nop _ _ ih => exact ih member
  | prop property rest ih =>
    rcases List.mem_cons.mp member with rfl | member
    · exact ⟨_, property, rest.le⟩
    · exact ih member
  | node _ _ _ _ _ _ restIh => exact restIh member

def BlobHeader.blocks (h : BlobHeader) : Blocks where
  stop := h.offset.toNat + h.size.toNat
  strings := h.stringOffset.toNat
  stringSize := h.stringSize.toNat

structure Describes (fdt : Blob) (h : BlobHeader) (doc : Document) : Prop where
  formed : WellFormed fdt.bytes h
  whole : h.total.toNat ≤ fdt.bytes.length
  checked : Answers (fdtCheckHeader fdt) 0
  tree : ∃ after, Lays fdt.bytes h.blocks h.offset.toNat h.offset.toNat 0 doc.forest after ∧
    Holds fdt.bytes after (tokenWord fdtEnd) ∧ after + 4 ≤ h.blocks.stop

section Reading

variable {blocks : Blocks}

theorem remaining_split (stop : blocks.stop ≤ bytes.length) {field rest : List UInt8}
    (shape : remaining bytes blocks cur = field ++ rest) (some : field ≠ []) :
    Holds bytes cur field ∧ cur + field.length ≤ blocks.stop ∧
    rest = remaining bytes blocks (cur + field.length) := by
  have length : (remaining bytes blocks cur).length = blocks.stop - cur := remaining_length stop cur
  have positive := List.length_pos_iff.mpr some
  rw [shape, List.length_append] at length
  refine ⟨⟨bytes.take cur, rest ++ bytes.drop blocks.stop, ?_, by rw [List.length_take]; omega⟩, by omega, ?_⟩
  · have front : (bytes.take blocks.stop).take cur = bytes.take cur := by
      rw [List.take_take, Nat.min_eq_left (by omega)]
    calc bytes = bytes.take blocks.stop ++ bytes.drop blocks.stop := (List.take_append_drop _ _).symm
      _ = ((bytes.take blocks.stop).take cur ++ remaining bytes blocks cur) ++ bytes.drop blocks.stop := by
        simp only [remaining, List.take_append_drop]
      _ = bytes.take cur ++ field ++ (rest ++ bytes.drop blocks.stop) := by
        rw [front, shape]
        simp only [List.append_assoc]
  · rw [← remaining_drop, shape, List.drop_left]

def Pending (bytes : List UInt8) (blocks : Blocks) (base : Nat) : (depth cur : Nat) → Prop
  | 0, cur => ∃ after, Lays bytes blocks base cur 0 .nil after ∧ Holds bytes after (tokenWord fdtEnd) ∧
      after + 4 ≤ blocks.stop
  | depth + 1, cur => ∃ f middle, Lays bytes blocks base cur (depth + 1) f middle ∧
      Holds bytes middle (tokenWord fdtEndNode) ∧ Pending bytes blocks base depth (middle + 4)

def Upcoming (bytes : List UInt8) (blocks : Blocks) (base cur : Nat) : Prop :=
  ∃ (doc : Document) (after : Nat), Lays bytes blocks base cur 0 doc.forest after ∧
    Holds bytes after (tokenWord fdtEnd) ∧ after + 4 ≤ blocks.stop

theorem Pending.nop {depth : Nat} (token : Holds bytes cur (tokenWord fdtNop))
    (pending : Pending bytes blocks base depth (cur + 4)) : Pending bytes blocks base depth cur := by
  cases depth with
  | zero =>
    obtain ⟨after, lays, finish⟩ := pending
    exact ⟨after, .nop token lays, finish⟩
  | succ depth =>
    obtain ⟨f, middle, lays, ends⟩ := pending
    exact ⟨f, middle, .nop token lays, ends⟩

theorem PaddedName.beginAt {name : List UInt8} (named : PaddedName name) (behind : base ≤ cur)
    (token : Holds bytes cur (tokenWord fdtBeginNode)) (holds : Holds bytes (cur + 4) name) :
    ∃ x, BeginAt bytes base cur x ∧ x.width = 4 + name.length := by
  obtain ⟨chars, pad, noNul, padded, rfl⟩ := named
  have string : Holds bytes (cur + 4) (chars ++ [0] ++ pad) := by simpa using holds
  refine ⟨⟨cur - base, ⟨chars, noNul⟩⟩, ⟨token, by dsimp only; omega, string.left⟩, ?_⟩
  simp only [Heading.width, List.length_append, List.length_cons, padded]
  omega

theorem StringIn.text {offset : Nat} (string : StringIn (stringsOf bytes blocks) offset) :
    ∃ name : Text, name.chars.length < blocks.stringSize ∧ Holds bytes (blocks.strings + offset) name.bytes := by
  obtain ⟨before, chars, after, noNul, rfl, shape⟩ := string
  have inside : (stringsOf bytes blocks).length = min blocks.stringSize (bytes.length - blocks.strings) := by
    rw [stringsOf, List.length_take, List.length_drop]
  have length := congrArg List.length shape
  simp only [List.length_append, List.length_cons] at length
  have block : Holds bytes blocks.strings (stringsOf bytes blocks) := by
    refine ⟨bytes.take blocks.strings, (bytes.drop blocks.strings).drop blocks.stringSize, ?_, ?_⟩
    · rw [List.append_assoc, stringsOf, List.take_append_drop, List.take_append_drop]
    · rw [List.length_take]
      omega
  rw [shape, List.append_assoc] at block
  have string : Holds bytes (blocks.strings + before.length) (chars ++ [0] ++ after) := by simpa using block.right
  exact ⟨⟨chars, noNul⟩, by dsimp only; omega, string.left⟩

theorem PropertyBody.propAt {body : List UInt8} (property : PropertyBody (stringsOf bytes blocks) body)
    (token : Holds bytes cur (tokenWord fdtProp)) (holds : Holds bytes (cur + 4) body) :
    ∃ p, PropAt bytes blocks cur p ∧ p.width = 4 + body.length := by
  obtain ⟨len, nameoff, payload, pad, length, padded, string, rfl⟩ := property
  obtain ⟨name, fits, named⟩ := string.text
  have parts : Holds bytes (cur + 4) (be32 len ++ (be32 nameoff ++ (payload ++ pad))) := by simpa using holds
  have behind := parts.behind (be32_length len)
  have value := behind.behind (be32_length nameoff)
  refine ⟨⟨name, cur + 12, payload⟩,
    ⟨token, ⟨len, length.symm, parts.left⟩, ⟨nameoff, behind.left, named⟩, fits, rfl, ?_⟩, ?_⟩
  · exact value.left
  · simp only [Property.width, List.length_append, be32_length, padded, length]
    omega

theorem Recognized.tree (stop : blocks.stop ≤ bytes.length) {w : List UInt8} {depth : Nat} {seen : Bool}
    (recognized : Recognized (stringsOf bytes blocks) w depth seen) (behind : base ≤ cur)
    (rest : remaining bytes blocks cur = w) :
    if seen then Pending bytes blocks base depth cur else depth = 0 → Upcoming bytes blocks base cur := by
  induction recognized generalizing cur with
  | finish =>
    obtain ⟨token, room, -⟩ := remaining_split stop rest (by simp [tokenWord, be32])
    exact ⟨cur, .done, token, room⟩
  | @begin name w depth seen first shallow named _ ih =>
    obtain ⟨token, -, behindToken⟩ := remaining_split stop rest (by simp [tokenWord, be32])
    obtain ⟨holds, -, behindName⟩ := remaining_split stop behindToken.symm (by
      obtain ⟨chars, pad, -, -, rfl⟩ := named
      simp)
    obtain ⟨x, heading, width⟩ := named.beginAt behind token holds
    have here : cur + x.width = cur + (tokenWord fdtBeginNode).length + name.length := by
      rw [width, tokenWord, be32_length]
      omega
    obtain ⟨inner, middle, content, ends, outer⟩ := ih (by omega) (here ▸ behindName.symm)
    cases seen with
    | false =>
      intro root
      subst root
      obtain ⟨after, lays, finish⟩ := outer
      exact ⟨⟨x, inner⟩, after, .node heading shallow content ends lays, finish⟩
    | true =>
      obtain ⟨outside, rfl⟩ := Nat.exists_eq_succ_of_ne_zero (fun zero => first ⟨zero, rfl⟩)
      obtain ⟨f, after, lays, outer⟩ := outer
      exact ⟨.node x inner f, after, .node heading shallow content ends lays, outer⟩
  | @close w depth seen _ ih =>
    obtain ⟨token, -, behindToken⟩ := remaining_split stop rest (by simp [tokenWord, be32])
    cases seen with
    | false => exact fun zero => absurd zero (Nat.succ_ne_zero _)
    | true => exact ⟨.nil, cur, .done, token, ih (by omega) behindToken.symm⟩
  | @prop body w depth seen nested property _ ih =>
    obtain ⟨token, -, behindToken⟩ := remaining_split stop rest (by simp [tokenWord, be32])
    obtain ⟨holds, -, behindBody⟩ := remaining_split stop behindToken.symm (by
      have length := property.length
      rintro rfl
      simp at length)
    obtain ⟨p, propAt, width⟩ := property.propAt token holds
    have here : cur + p.width = cur + (tokenWord fdtProp).length + body.length := by
      rw [width, tokenWord, be32_length]
      omega
    obtain ⟨outside, rfl⟩ := Nat.exists_eq_succ_of_ne_zero nested.ne'
    cases seen with
    | false => exact fun zero => absurd zero (Nat.succ_ne_zero _)
    | true =>
      obtain ⟨f, middle, lays, outer⟩ := ih (by omega) (here ▸ behindBody.symm)
      exact ⟨.leaf p f, middle, .prop propAt lays, outer⟩
  | @nop w depth seen _ ih =>
    obtain ⟨token, -, behindToken⟩ := remaining_split stop rest (by simp [tokenWord, be32])
    have later := ih (by omega) behindToken.symm
    cases seen with
    | false =>
      intro root
      obtain ⟨doc, after, lays, finish⟩ := later root
      exact ⟨doc, after, .nop token lays, finish⟩
    | true => exact Pending.nop token later

end Reading

theorem Accepts.placed {fdt : Blob} (accepts : Accepts fdt) : fdt.addr ≠ 0 ∧ fdt.addr &&& 3 = 0 := by
  obtain ⟨fuel, answered⟩ := accepts
  unfold fdtCheckHeader at answered
  split at answered
  · cases answered
  next fine => simpa using fine

theorem Accepts.describes {fdt : Blob} (accepts : Accepts fdt) (whole : fdt.declared ≤ fdt.bytes.length) :
    ∃ h doc, Describes fdt h doc := by
  have decides : Runs True (fdtCheckHeader fdt) _ :=
    fdtCheckHeader_decides accepts.placed.1 accepts.placed.2 accepts.long fun total holds =>
    Blob.declared_holds holds ▸ whole
  obtain ⟨fuel, answered⟩ := accepts
  rcases decides.post fuel 0 answered with ⟨-, h, formed⟩ | ⟨other, -⟩
  · have fits : h.total.toNat ≤ fdt.bytes.length := Blob.declared_holds formed.total ▸ whole
    have stop : h.blocks.stop ≤ fdt.bytes.length := formed.structBlock.2.2.trans fits
    have block : remaining fdt.bytes h.blocks h.offset.toNat = (fdt.bytes.drop h.offset.toNat).take h.size.toNat := by
      rw [remaining, List.drop_take, BlobHeader.blocks, Nat.add_sub_cancel_left]
    obtain ⟨doc, tree⟩ := (recognized_iff.mpr formed.tree).tree stop (Nat.le_refl _) block rfl
    exact ⟨h, doc, formed, fits, ⟨fuel, fun later enough => decides.steady enough answered⟩, tree⟩
  · cases other

end OrangeKernel.Fdt
