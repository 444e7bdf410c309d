import OrangeKernel.Fdt.Getprop
import OrangeKernel.Fdt.Path

set_option autoImplicit false

namespace OrangeKernel.Fdt

open Function ByteScan

variable {ending : Prop}

def lists (want : Text) (p : Property) : Bool :=
  p.name.chars = (Text.ofAscii "compatible").chars ∧ want.chars ∈ stringList p.payload

def Document.compatible (doc : Document) (want : Text) : Option (Heading × Property) :=
  doc.properties.find? fun owned => lists want owned.2

def ownerOf : Option (Heading × Property) → Int
  | some (owner, _) => owner.offset
  | none => -1

def findVisitor (want : Text) : Forest.Visitor Heading Property (Nat → Int) Int where
  enter level x _ nodes := .ok (update nodes level x.offset)
  leave _ nodes := .ok nodes
  leaf level p nodes := if 0 < level ∧ lists want p then .error (nodes (level - 1)) else .ok nodes

theorem visit_owned (want : Text) (f : Items) {owner : Heading} {level : Nat} (nested : 0 < level) {nodes : Nat → Int}
    (opened : nodes (level - 1) = owner.offset) :
    (∀ found, (f.owned owner).find? (fun owned => lists want owned.2) = some found →
      f.visit (findVisitor want) level nodes = .error (found.1.offset : Int)) ∧
    ((f.owned owner).find? (fun owned => lists want owned.2) = none →
      ∃ after, f.visit (findVisitor want) level nodes = .ok after ∧ ∀ i < level, after i = nodes i) := by
  induction f generalizing owner level nodes with
  | nil => exact ⟨fun found none => (by cases none), fun _ => ⟨nodes, rfl, fun _ _ => rfl⟩⟩
  | leaf p rest ih =>
    rw [Forest.owned, List.find?_cons, Forest.visit]
    by_cases here : lists want p = true
    · have leaf : (findVisitor want).leaf level p nodes = .error (nodes (level - 1)) := if_pos ⟨nested, here⟩
      rw [leaf, here, opened]
      exact ⟨fun found same => (by cases same; rfl), fun none => (by cases none)⟩
    · have leaf : (findVisitor want).leaf level p nodes = .ok nodes := if_neg fun both => here both.2
      rw [leaf, Bool.eq_false_iff.mpr here]
      exact ih nested opened
  | node x inner rest innerIh restIh =>
    have enters : (findVisitor want).enter level x inner nodes = .ok (update nodes level x.offset) := rfl
    have deeper := innerIh (Nat.succ_pos level) (update_self level (x.offset : Int) nodes)
    rw [Forest.owned, List.find?_append]
    cases within : (inner.owned x).find? fun owned => lists want owned.2 with
    | some found =>
      refine ⟨fun other same => ?_, fun none => (by cases none)⟩
      cases same
      exact Forest.visit_node_inside enters (deeper.1 found within)
    | none =>
      obtain ⟨middle, visited, kept⟩ := deeper.2 within
      have below : ∀ i < level, middle i = nodes i := fun i less => by
        rw [kept i (by omega), update_of_ne (by omega)]
      have behind := restIh nested ((below (level - 1) (by omega)).trans opened)
      rw [Forest.visit_node enters visited rfl, Option.none_or]
      refine ⟨behind.1, fun none => ?_⟩
      obtain ⟨after, ends, keeps⟩ := behind.2 none
      exact ⟨after, ends, fun i less => (keeps i less).trans (below i less)⟩

theorem visit_compatible (doc : Document) (want : Text) (nodes : Nat → Int) :
    outcome (fun _ => -1) (doc.forest.visit (findVisitor want) 0 nodes) = ownerOf (doc.compatible want) := by
  have enters : (findVisitor want).enter 0 doc.root doc.items nodes = .ok (update nodes 0 doc.root.offset) := rfl
  have below := visit_owned want doc.items Nat.one_pos (update_self 0 (doc.root.offset : Int) nodes)
  rw [Document.forest, Document.compatible, Document.properties]
  cases found : (doc.items.owned doc.root).find? fun owned => lists want owned.2 with
  | some owned =>
    rw [Forest.visit_node_inside enters (below.1 owned found)]
    rfl
  | none =>
    obtain ⟨after, visited, -⟩ := below.2 found
    rw [Forest.visit_node enters visited rfl]
    rfl

variable {want : Text}

section Code

variable {fdt : Blob} {h : BlobHeader} {doc : Document}

def findState (cur level : Nat) (nodes : Nat → Int) : FindState :=
  { cur := cur, depth := (level : Int) - 1, currentNode := (List.range fdtMaxDepth).map nodes }

theorem range_set (nodes : Nat → Int) (n i : Nat) (x : Int) :
    ((List.range n).map nodes).set i x = (List.range n).map (update nodes i x) := by
  refine List.ext_getElem (by simp) fun j left right => ?_
  by_cases same : i = j
  · subst same
    simp
  · rw [List.getElem_set_ne same]
    simp [update_of_ne (Ne.symm same)]

theorem compatibleName_gives {bytes : List UInt8} (level : Nat) (name : Text) {start : Nat}
    (named : Holds bytes start name.bytes) :
    Gives ending (andAlso ((level : Int) - 1 ≥ 0) (nameEq bytes start (Text.ofAscii "compatible").bytes 0 10))
      (decide (0 < level ∧ name.chars = (Text.ofAscii "compatible").chars)) := by
  have ten : 10 = (Text.ofAscii "compatible").chars.length := by decide
  by_cases nested : 0 < level
  · rw [decide_eq_true (by omega : (level : Int) - 1 ≥ 0), ten]
    have tells : Runs ending _ _ :=
      name.nameEq_tells (Text.ofAscii "compatible").noNul named (Holds.whole (Text.ofAscii "compatible").bytes).left
    exact (tells.weaken fun same iff => iff.trans (and_iff_right nested).symm).decides
  · rw [decide_eq_false (by omega : ¬ (level : Int) - 1 ≥ 0), decide_eq_false fun both => nested both.1]
    exact Gives.pure _

theorem listed_gives {bytes : List UInt8} {p : Property} (payload : Holds bytes p.data p.payload)
    (short : ending → want.chars.length < 2 ^ 32) (level : Nat) :
    Gives ending (andAlso (decide (0 < level ∧ p.name.chars = (Text.ofAscii "compatible").chars))
      (propHasCompatible bytes p.data p.payload.length want)) (decide (0 < level ∧ lists want p = true)) := by
  have unfolded : 0 < level ∧ lists want p = true ↔
      (0 < level ∧ p.name.chars = (Text.ofAscii "compatible").chars) ∧ want.chars ∈ stringList p.payload := by
    rw [lists, decide_eq_true_iff, and_assoc]
  by_cases named : 0 < level ∧ p.name.chars = (Text.ofAscii "compatible").chars
  · rw [decide_eq_true named]
    have tells : Runs ending _ _ := propHasCompatible_tells payload short
    exact (tells.weaken fun found iff => iff.trans ((and_iff_right named).symm.trans unfolded.symm)).decides
  · rw [decide_eq_false named, decide_eq_false fun both => named (unfolded.mp both).1]
    exact Gives.pure _

theorem find_simulates (describes : Describes fdt h doc) (short : ending → want.chars.length < 2 ^ 32) :
    Simulates ending fdt.bytes h.blocks h.offset.toNat doc.Has
      (findToken fdt h.offset.toNat h.blocks.stop want) findState
      (findVisitor want) 0 where
  enter := by
    intro cur level x inner nodes _ shallow heading fits _
    have inside := Heading.width_le fits
    have small := describes.small
    obtain ⟨measured, width⟩ := heading.measured (by omega)
    have depth : (level : Int) - 1 + 1 = level := by omega
    have next : ((level + 1 : Nat) : Int) - 1 = level := by omega
    refine tokenRound_begin (x.inside fits) heading.token ?_
    simp only [findState, heading.nodeOffset, depth]
    rw [if_neg (by omega)]
    refine (Gives.storeEntry (by simpa using shallow) _).bind (measured.bind ?_)
    rw [range_set, width]
    have enters : (findVisitor want).enter level x inner nodes = .ok (update nodes level x.offset) := rfl
    rw [enters, Round.of, findState, next]
    exact Gives.pure _
  leave := by
    intro cur level nodes _ inside token
    refine tokenRound_end inside token ?_
    have depth : ((level + 1 : Nat) : Int) - 1 - 1 = (level : Int) - 1 := by omega
    simp only [findState, depth]
    exact Gives.pure _
  leaf := by
    intro cur level p nodes _ shallow property fits
    have small := p.short describes.small fits
    obtain ⟨nameoff, nameCell, named⟩ := property.nameCell
    have data : cur + 4 + 4 + 4 = p.data := by rw [property.data]
    refine tokenRound_prop (p.inside fits) property.token
      (property.lenCell.bind (nameCell.bind (describes.offDtStrings.bind ?_)))
    simp only [findState, toInt_small small, data]
    refine (compatibleName_gives level p.name named).bind ?_
    refine (listed_gives property.payload short level).bind ?_
    by_cases found : 0 < level ∧ lists want p = true
    · have leaf : (findVisitor want).leaf level p nodes = .error (nodes (level - 1)) := if_pos found
      have index : (level : Int) - 1 = ((level - 1 : Nat) : Int) := by omega
      rw [leaf, if_pos (decide_eq_true found), index]
      refine (Gives.entryAt ?_).bind (Gives.pure _)
      rw [List.getElem?_map, List.getElem?_range (by omega)]
      rfl
    · have leaf : (findVisitor want).leaf level p nodes = .ok nodes := if_neg found
      rw [leaf, if_neg (by simpa using found)]
      simp only [← data, p.align small]
      exact Gives.pure _
  nop := fun cur level nodes inside token => tokenRound_nop inside token (Gives.pure _)

theorem find_finish {want : Text} (cur : Nat) (nodes : Nat → Int) (room : cur < h.blocks.stop)
    (token : Holds fdt.bytes cur (tokenWord fdtEnd)) :
    Gives ending (findToken fdt h.offset.toNat h.blocks.stop want (findState cur 0 nodes)) (.done (-1)) :=
  tokenRound_other room token (Gives.pure _)

theorem Describes.findCompatible (describes : Describes fdt h doc) (short : ending → want.chars.length < 2 ^ 32) :
    Gives ending (fdtFindCompatible fdt (some want)) (ownerOf (doc.compatible want)) := by
  have walk : Gives ending _ _ :=
    describes.walk (find_simulates describes short) (@find_finish ending fdt h want) fun _ => 0
  rw [visit_compatible] at walk
  unfold fdtFindCompatible
  refine describes.check.bind ?_
  rw [if_neg (not_not.mpr rfl)]
  refine describes.offDtStruct.bind (describes.sizeDtStruct.bind ?_)
  exact walk

theorem Describes.compatible_node (describes : Describes fdt h doc) {owner : Heading} {p : Property}
    (found : doc.compatible want = some (owner, p)) :
    (∃ place ∈ doc.places, place.node = owner ∧ p ∈ place.inner.leaves) ∧
      ∃ ref, Answers (fdtGetprop fdt owner.offset (some (Text.ofAscii "compatible"))) (some ref) := by
  rw [Document.compatible] at found
  have named : lists want p = true := by
    have hit := List.find?_some found
    simpa using hit
  have member : (owner, p) ∈ doc.items.owned doc.root := List.mem_of_find?_eq_some found
  obtain ⟨place, within, rfl, own⟩ : ∃ place ∈ doc.places, place.node = owner ∧ p ∈ place.inner.leaves := by
    rcases Forest.owned_place [doc.root] member with ⟨rfl, own⟩ | ⟨place, within, owns⟩
    · exact ⟨⟨[], doc.root, doc.items⟩, List.mem_cons_self, rfl, own⟩
    · exact ⟨place, List.mem_cons_of_mem _ (List.mem_append_left _ within), owns⟩
  refine ⟨⟨place, within, rfl, own⟩, ?_⟩
  have gives := @Describes.getprop_at True (Text.ofAscii "compatible") _ _ _ describes _ within fun _ => by decide
  have some : (ownProperty place.inner (Text.ofAscii "compatible")).isSome = true := by
    rw [ownProperty, List.find?_isSome]
    exact ⟨p, own, decide_eq_true (of_decide_eq_true named).1⟩
  obtain ⟨first, here⟩ := Option.isSome_iff_exists.mp some
  rw [here] at gives
  exact ⟨first.ref, gives.answer⟩

end Code

theorem fdtFindCompatible_owner (fdt : Blob) (accepts : Accepts fdt) (whole : fdt.declared ≤ fdt.bytes.length) :
    (∃ h doc, Describes fdt h doc) ∧ ∀ h doc, Describes fdt h doc →
      ∀ want : Text, want.chars.length < 2 ^ 32 →
        Answers (fdtFindCompatible fdt (some want)) (ownerOf (doc.compatible want)) ∧
        ∀ owner p, doc.compatible want = some (owner, p) →
          (∃ place ∈ doc.places, place.node = owner ∧ p ∈ place.inner.leaves) ∧
            ∃ ref, Answers (fdtGetprop fdt owner.offset (some (Text.ofAscii "compatible"))) (some ref) :=
  ⟨accepts.describes whole, fun _ _ describes _ short =>
    ⟨(describes.findCompatible fun _ => short).answer, fun _ _ found => describes.compatible_node found⟩⟩

theorem fdtFindCompatible_owner_tree : ∃ h doc, Describes treeBlob h doc ∧
    Answers (fdtFindCompatible treeBlob (some (Text.ofAscii "x"))) (ownerOf (doc.compatible (Text.ofAscii "x"))) := by
  obtain ⟨⟨h, doc, describes⟩, all⟩ := fdtFindCompatible_owner treeBlob treeBlob_accepted treeBlob_whole
  exact ⟨h, doc, describes, (all h doc describes (Text.ofAscii "x") (by decide)).1⟩

theorem findToken_endless {fdt : Blob} {structBase stop len nameoff strings : Nat} {s : FindState}
    (below : s.cur < stop) (token : CellIs fdt.bytes s.cur fdtProp) (lenCell : CellIs fdt.bytes (s.cur + 4) len)
    (nameCell : CellIs fdt.bytes (s.cur + 8) nameoff) (stringsCell : CellIs fdt.bytes 12 strings)
    (named : Holds fdt.bytes (strings + nameoff) (Text.ofAscii "compatible").bytes) (nested : 0 ≤ s.depth)
    (some : 0 < toInt len) (endless : Endless (strLen want.bytes 0)) :
    Endless (findToken fdt structBase stop want s) := by
  unfold findToken
  rw [if_pos below]
  refine Endless.bind fun fuel t answered => ?_
  obtain rfl : t = fdtProp := Except.ok.inj (answered.symm.trans (token fuel))
  rw [if_neg (by decide), if_neg (by decide), if_pos rfl]
  refine Endless.bind fun fuel l answered => ?_
  obtain rfl : l = len := Except.ok.inj (answered.symm.trans (lenCell fuel))
  refine Endless.bind fun fuel off answered => ?_
  obtain rfl : off = nameoff := Except.ok.inj (answered.symm.trans (nameCell fuel))
  refine Endless.bind fun fuel base answered => ?_
  obtain rfl : base = strings := Except.ok.inj (answered.symm.trans (stringsCell fuel))
  rw [decide_eq_true (by exact nested)]
  have ten : 10 = (Text.ofAscii "compatible").chars.length := by decide
  have tells : Runs True _ _ := (Text.ofAscii "compatible").nameEq_tells (Text.ofAscii "compatible").noNul named
    (Holds.whole (Text.ofAscii "compatible").bytes).left
  refine Endless.bind fun fuel same answered => ?_
  rw [ten] at answered
  obtain rfl : same = true := (tells.post fuel same answered).mpr rfl
  refine Endless.left ?_
  change Endless (propHasCompatible fdt.bytes _ (toInt l) want)
  rw [propHasCompatible, if_neg (by omega)]
  exact Endless.left endless

theorem treeBlob_endless (endless : Endless (strLen want.bytes 0)) :
    Endless (fdtFindCompatible treeBlob (some want)) := by
  obtain ⟨h, doc, describes⟩ := treeBlob_accepted.describes treeBlob_whole
  have checks : Gives True (fdtCheckHeader treeBlob) 0 := describes.check
  have rootName : Terminated treeBlob.bytes 60 0 := ⟨rfl, fun i less => absurd less (Nat.not_lt_zero i)⟩
  have measured : Gives True (strLen treeBlob.bytes 60) 0 := strLen_runs rootName fun _ => by decide
  refine Endless.bind fun fuel checked answered => ?_
  obtain rfl := checks.post fuel checked answered
  rw [if_neg (by decide)]
  refine Endless.bind fun fuel structBase answered => ?_
  obtain rfl : structBase = 56 := Except.ok.inj (answered.symm.trans rfl)
  refine Endless.bind fun fuel size answered => ?_
  obtain rfl : size = 44 := Except.ok.inj (answered.symm.trans rfl)
  -- The first round enters the root node, the second never ends.
  refine Endless.loop
    (fun s => s = ⟨56, -1, List.replicate fdtMaxDepth 0⟩ ∨ s = ⟨64, 0, List.replicate fdtMaxDepth 0⟩)
    (fun s kept fuel round answered => ?_) (Or.inl rfl)
  rcases kept with rfl | rfl
  · unfold findToken at answered
    rw [if_pos (by decide)] at answered
    obtain ⟨token, read, answered⟩ := bind_ok answered
    obtain rfl : token = fdtBeginNode := Except.ok.inj (read.symm.trans rfl)
    rw [if_pos rfl] at answered
    dsimp only at answered
    rw [if_neg (by decide)] at answered
    obtain ⟨nodes, stored, answered⟩ := bind_ok answered
    obtain rfl : nodes = List.replicate fdtMaxDepth 0 := Except.ok.inj (stored.symm.trans rfl)
    obtain ⟨len, scanned, answered⟩ := bind_ok answered
    obtain rfl := measured.post fuel len scanned
    cases answered
    exact ⟨_, rfl, Or.inr rfl⟩
  · have named : Holds treeBlob.bytes (100 + 0) (Text.ofAscii "compatible").bytes :=
      ⟨treeBlob.bytes.take 100, [], by decide +kernel, by decide +kernel⟩
    exact absurd answered (findToken_endless (by decide) (fun _ => rfl) (fun _ => rfl) (fun _ => rfl) (fun _ => rfl)
      named (by decide) (by decide) endless fuel round)

theorem fdtFindCompatible_endless : Accepts treeBlob ∧ treeBlob.declared ≤ treeBlob.bytes.length ∧
    ¬ Terminates (fdtFindCompatible treeBlob (some (repeated (2 ^ 32)))) :=
  ⟨treeBlob_accepted, treeBlob_whole, (treeBlob_endless (repeated_strLen (Nat.le_refl _))).not_terminates⟩

end OrangeKernel.Fdt
