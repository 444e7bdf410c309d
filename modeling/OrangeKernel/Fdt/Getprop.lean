import OrangeKernel.Fdt.Strings

set_option autoImplicit false

namespace OrangeKernel.Fdt

open ByteScan Machine

variable {ending : Prop} {after : Nat} {above : List Heading}

section Scan

variable {bytes : List UInt8} {blocks : Blocks} {base size target cur : Nat} {token : Nat}

theorem isNodeRound_here (room : cur < base + size) (read : Gives ending (cell bytes cur) token)
    (here : cur = base + target) :
    Gives ending (isNodeRound bytes base size target cur) (.done (token = fdtBeginNode)) := by
  rw [isNodeRound, if_pos room]
  refine read.bind ?_
  rw [if_pos (by omega)]
  exact Gives.pure _

theorem isNodeRound_passed (room : cur < base + size) (read : Gives ending (cell bytes cur) token)
    (passed : base + target < cur) : Gives ending (isNodeRound bytes base size target cur) (.done false) := by
  rw [isNodeRound, if_pos room]
  refine read.bind ?_
  rw [if_neg (by omega), if_pos (by omega)]
  exact Gives.pure _

theorem isNodeRound_before {round : Round Nat Bool} (room : cur < base + size)
    (read : Gives ending (cell bytes cur) token) (behind : base ≤ cur) (before : cur < base + target)
    (decides : Gives ending (if token = fdtBeginNode then do
        let len ← strLen bytes (cur + 4)
        pure (.next (cur + 4 + align4 (len + 1)))
      else if token = fdtProp then do
        let len ← cell bytes (cur + 4)
        pure (.next (cur + 4 + (8 + align4 len)))
      else if token = fdtEnd then pure (.done false)
      else pure (.next (cur + 4))) round) : Gives ending (isNodeRound bytes base size target cur) round := by
  rw [isNodeRound, if_pos room]
  refine read.bind ?_
  rw [if_neg (by omega), if_neg (by omega)]
  exact decides

def hasOffset (target : Nat) (places : List (Forest.Place Heading Property)) : Bool :=
  places.any fun place => place.node.offset = target

theorem hasOffset_eq_false {places : List (Forest.Place Heading Property)}
    (other : ∀ place ∈ places, place.node.offset ≠ target) : hasOffset target places = false := by
  simpa [hasOffset] using other

structure Finds (ending : Prop) (bytes : List UInt8) (base size target cur after : Nat)
    (places : List (Forest.Place Heading Property)) : Prop where
  passes : after ≤ base + target → ∀ found, Leads ending (isNodeRound bytes base size target) after found →
    Leads ending (isNodeRound bytes base size target) cur found
  decides : base + target < after → Leads ending (isNodeRound bytes base size target) cur (hasOffset target places)

theorem Finds.skip {next : Nat} {places : List (Forest.Place Heading Property)} (room : cur < base + size)
    (read : Gives ending (cell bytes cur) token) (other : token ≠ fdtBeginNode) (moved : cur < next)
    (le : next ≤ after)
    (step : cur < base + target → Gives ending (isNodeRound bytes base size target cur) (.next next))
    (behind : ∀ place ∈ places, next ≤ base + place.node.offset)
    (rest : Finds ending bytes base size target next after places) :
    Finds ending bytes base size target cur after places where
  passes := fun high found leads => Leads.next (step (by omega)) (rest.passes high found leads)
  decides := by
    intro inside
    rcases Nat.lt_or_ge cur (base + target) with before | reached
    · exact Leads.next (step before) (rest.decides inside)
    · have none : hasOffset target places = false := by
        refine hasOffset_eq_false fun place member same => ?_
        have low := behind place member
        omega
      rw [none]
      rcases Nat.eq_or_lt_of_le reached with here | passed
      · have answers := isNodeRound_here room read here.symm
        rw [decide_eq_false other] at answers
        exact Leads.done answers
      · exact Leads.done (isNodeRound_passed room read passed)

theorem Finds.node {x : Heading} {inner : Items} {first middle : Nat}
    {within beside : List (Forest.Place Heading Property)} (room : cur < base + size)
    (read : Gives ending (cell bytes cur) fdtBeginNode) (offset : cur = base + x.offset)
    (step : cur < base + target → Gives ending (isNodeRound bytes base size target cur) (.next first))
    (moved : cur < first) (le : first ≤ middle ∧ middle + 4 ≤ after)
    (innerBounds : ∀ place ∈ within, first ≤ base + place.node.offset ∧ base + place.node.offset < middle)
    (restLow : ∀ place ∈ beside, middle + 4 ≤ base + place.node.offset)
    (inside : Finds ending bytes base size target first middle within)
    (beyond : Finds ending bytes base size target middle after beside) :
    Finds ending bytes base size target cur after (⟨above, x, inner⟩ :: (within ++ beside)) where
  passes := fun high found leads =>
    Leads.next (step (by omega)) (inside.passes (by omega) found (beyond.passes high found leads))
  decides := by
    intro less
    have split : hasOffset target (⟨above, x, inner⟩ :: (within ++ beside)) =
        (decide (x.offset = target) || (hasOffset target within || hasOffset target beside)) := by simp [hasOffset]
    have innerNone : base + target < first ∨ middle ≤ base + target → hasOffset target within = false :=
      fun outside =>
      hasOffset_eq_false fun place member same => by
        have bounds := innerBounds place member
        omega
    have restNone : base + target < middle + 4 → hasOffset target beside = false := fun small =>
      hasOffset_eq_false fun place member same => by
        have low := restLow place member
        omega
    rw [split]
    rcases Nat.lt_trichotomy cur (base + target) with before | here | passed
    · rw [decide_eq_false (by omega : x.offset ≠ target), Bool.false_or]
      refine Leads.next (step before) ?_
      rcases Nat.lt_or_ge (base + target) middle with deep | reached
      · rw [restNone (by omega), Bool.or_false]
        exact inside.decides deep
      · rw [innerNone (Or.inr reached), Bool.false_or]
        exact inside.passes reached _ (beyond.decides less)
    · rw [decide_eq_true (by omega : x.offset = target), Bool.true_or]
      exact Leads.done (isNodeRound_here room read here)
    · rw [decide_eq_false (by omega : x.offset ≠ target), innerNone (Or.inl (by omega)), restNone (by omega)]
      exact Leads.done (isNodeRound_passed room read passed)

theorem Lays.offsets {level : Nat} {f : Items} (lays : Lays bytes blocks base cur level f after)
    (depth : above.length = level) {place : Forest.Place Heading Property} (member : place ∈ f.places above) :
    cur ≤ base + place.node.offset ∧ base + place.node.offset < after := by
  obtain ⟨start, middle, at', low, -, high⟩ := lays.place depth member
  have start' := at'.heading.offset
  have inside := at'.content.le
  omega

theorem Lays.finds {level : Nat} {f : Items} (lays : Lays bytes blocks base cur level f after)
    (small : base + size < 2 ^ 31) (low : base ≤ cur) (room : after + 4 ≤ base + size)
    (inBlob : base + size ≤ bytes.length) (depth : above.length = level) :
    Finds ending bytes base size target cur after (f.places above) := by
  induction lays generalizing above with
  | @done cur level =>
    have reads : Runs True (cell bytes cur) _ := cell_runs (by omega)
    obtain ⟨token, -, known⟩ := reads.answered
    exact ⟨fun _ found leads => leads, fun passed => Leads.done (isNodeRound_passed (by omega) known.runs passed)⟩
  | @nop cur level after f token rest ih =>
    have behind := rest.le
    have read : Gives ending _ _ := token_gives (by decide) token
    refine Finds.skip (by omega) read (by decide) (Nat.lt_add_of_pos_right (by decide)) behind (fun before => ?_)
      (fun place member => (rest.offsets depth member).1) (ih (by omega) room depth)
    refine isNodeRound_before (by omega) read low before ?_
    rw [if_neg (by decide), if_neg (by decide), if_neg (by decide)]
    exact Gives.pure _
  | @prop cur level after p f property rest ih =>
    have behind := rest.le
    have width : p.width = 12 + (p.payload.length + padding p.payload.length) := rfl
    have read : Gives ending _ _ := token_gives (by decide) property.token
    refine Finds.skip (by omega) read (by decide) (by omega) behind (fun before => ?_)
      (fun place member => (rest.offsets depth member).1) (ih (by omega) room depth)
    refine isNodeRound_before (by omega) read low before ?_
    rw [if_neg (by decide), if_pos rfl]
    refine property.lenCell.bind ?_
    have next : cur + 4 + (8 + align4 p.payload.length) = cur + p.width := by
      rw [align4, roundUp4_eq (by omega), width]
      omega
    rw [next]
    exact Gives.pure _
  | @node cur level middle after x inner f heading shallow content token rest contentIh restIh =>
    have behind := rest.le
    have before := content.le
    have width : x.width = 4 + (x.name.chars.length + 1 + padding (x.name.chars.length + 1)) := rfl
    have offset := heading.offset
    have inside := contentIh (by omega) (by omega) (by simp [depth] : (above ++ [x]).length = level + 1)
    -- Behind the content the end of the node is passed, and the siblings follow.
    have beyond : Finds ending bytes base size target middle after (f.places above) := by
      have read : Gives ending _ _ := token_gives (by decide) token
      refine Finds.skip (by omega) read (by decide) (Nat.lt_add_of_pos_right (by decide)) behind (fun before => ?_)
        (fun place member => (rest.offsets depth member).1) (restIh (by omega) room depth)
      refine isNodeRound_before (by omega) read (by omega) before ?_
      rw [if_neg (by decide), if_neg (by decide), if_neg (by decide)]
      exact Gives.pure _
    have read : Gives ending _ _ := token_gives (by decide) heading.token
    have step : cur < base + target →
      Gives ending (isNodeRound bytes base size target cur) (.next (cur + x.width)) := by
      intro before
      obtain ⟨measured, next⟩ := heading.measured (by omega)
      refine isNodeRound_before (by omega) read low before ?_
      rw [if_pos rfl]
      refine measured.bind ?_
      rw [next]
      exact Gives.pure _
    exact Finds.node (by omega) read heading.offset step (by omega) ⟨before, behind⟩
      (fun place member => (content.offsets (by simp [depth]) member))
        (fun place member => (rest.offsets depth member).1)
      inside beyond

end Scan

variable {name : Text}

section Described

variable {fdt : Blob} {h : BlobHeader} {doc : Document}

theorem Describes.isNode (describes : Describes fdt h doc) (offset : Int) :
    Gives ending (fdtIsNodeOffset fdt.bytes h.offset.toNat h.size.toNat offset)
      (hasOffset (offset % 2 ^ 32).toNat doc.places) := by
  obtain ⟨after, lays, token, room⟩ := describes.tree
  have small : h.offset.toNat + h.size.toNat < 2 ^ 31 := describes.small
  have room : after + 4 ≤ h.offset.toNat + h.size.toNat := room
  rw [fdtIsNodeOffset]
  generalize (offset % 2 ^ 32).toNat = target
  have finds := @Lays.finds ending _ [] fdt.bytes h.blocks h.offset.toNat h.size.toNat target _ _ _ lays small
    (Nat.le_refl _) room describes.stop rfl
  refine Leads.gives ?_
  rcases Nat.lt_or_ge (h.offset.toNat + target) after with inside | reached
  · exact finds.decides inside
  · -- The target is at or behind `FDT_END`, where no node begins.
    have none : hasOffset target doc.places = false := hasOffset_eq_false fun place member same => by
      have high := (lays.offsets rfl member).2
      omega
    have read : Gives ending _ _ := token_gives (by decide) token
    rw [none]
    refine finds.passes reached false ?_
    rcases Nat.eq_or_lt_of_le reached with here | before
    · exact Leads.done (isNodeRound_here (by omega) read here)
    · refine Leads.done (isNodeRound_before (by omega) read lays.le before ?_)
      rw [if_neg (by decide), if_neg (by decide), if_pos rfl]
      exact Gives.pure _

def Property.ref (p : Property) : PropRef := { data := p.data, len := p.payload.length }

def ownProperty (inner : Items) (name : Text) : Option Property :=
  inner.leaves.find? fun p => p.name.chars = name.chars

theorem ownProperty_some {inner : Items} {p : Property} (found : ownProperty inner name = some p) :
    p ∈ inner.leaves ∧ p.name.chars = name.chars := by
  rw [ownProperty] at found
  have named := List.find?_some found
  exact ⟨List.mem_of_find?_eq_some found, by simpa using named⟩

def propVisitor (name : Text) (lowest : Nat) : Forest.Visitor Heading Property Unit (Option PropRef) where
  enter _ _ _ _ := .ok ()
  leave _ _ := .ok ()
  leaf level p _ := if level = lowest ∧ p.name.chars = name.chars then .error (some p.ref) else .ok ()

def propState (lowest cur level : Nat) (_ : Unit) : PropState := { cur := cur, depth := (level : Int) - lowest }

theorem toInt_small {n : Nat} (small : n < 2 ^ 31) : toInt n = n := if_pos small

theorem prop_simulates (describes : Describes fdt h doc) (short : ending → name.chars.length < 2 ^ 32)
    (lowest : Nat) :
    Simulates ending fdt.bytes h.blocks h.offset.toNat (fun _ _ => True)
      (getpropToken fdt.bytes h.stringOffset.toNat h.blocks.stop name) (propState lowest) (propVisitor name lowest)
      lowest where
  enter := by
    intro cur level x inner a _ _ heading fits _
    have inside := Heading.width_le fits
    have small := describes.small
    obtain ⟨measured, width⟩ := heading.measured (by omega)
    refine tokenRound_begin (x.inside fits) heading.token (measured.bind ?_)
    have depth : (level : Int) - lowest + 1 = ((level + 1 : Nat) : Int) - lowest := by omega
    simp only [propState, width, depth]
    exact Gives.pure _
  leave := by
    intro cur level a deep inside token
    refine tokenRound_end inside token ?_
    have depth : ((level + 1 : Nat) : Int) - lowest - 1 = (level : Int) - lowest := by omega
    rw [if_neg (by simp only [propState]; omega)]
    simp only [propState, depth]
    exact Gives.pure _
  leaf := by
    intro cur level p a deep _ property fits
    have small := p.short describes.small fits
    obtain ⟨nameoff, nameCell, named⟩ := property.nameCell
    refine tokenRound_prop (p.inside fits) property.token (property.lenCell.bind (nameCell.bind ?_))
    have same : Gives ending (andAlso ((propState lowest cur level a).depth = 0) do
        let wantLen ← strLen name.bytes 0
        nameEq fdt.bytes (h.stringOffset.toNat + nameoff) name.bytes 0 wantLen)
        (decide (level = lowest ∧ p.name.chars = name.chars)) := by
      by_cases own : level = lowest
      · have here : (propState lowest cur level a).depth = 0 := by simp [propState, own]
        rw [decide_eq_true here]
        refine (name.measured short).bind (Runs.decides ?_)
        exact (p.name.nameEq_tells name.noNul named (Holds.whole name.bytes).left).weaken fun _ tells =>
          tells.trans (and_iff_right own).symm
      · have below : (propState lowest cur level a).depth ≠ 0 := by
          simp only [propState]
          omega
        rw [decide_eq_false below, decide_eq_false fun both => own both.1]
        exact Gives.pure _
    refine same.bind ?_
    by_cases found : level = lowest ∧ p.name.chars = name.chars
    · have leaf : (propVisitor name lowest).leaf level p a = .error (some p.ref) := if_pos found
      rw [leaf, if_pos (decide_eq_true found), toInt_small small]
      have ref : ({ data := cur + 4 + 4 + 4, len := p.payload.length } : PropRef) = p.ref := by
        rw [Property.ref, property.data]
      simp only [propState]
      rw [ref]
      exact Gives.pure _
    · have leaf : (propVisitor name lowest).leaf level p a = .ok () := if_neg found
      rw [leaf, if_neg (by simp [found])]
      simp only [propState, p.align small]
      exact Gives.pure _
  nop := fun cur level a inside token => tokenRound_nop inside token (Gives.pure _)

theorem visit_properties (name : Text) (lowest : Nat) (inner : Items) :
    outcome (fun _ => none) (inner.visit (propVisitor name lowest) lowest ()) =
      (ownProperty inner name).map Property.ref := by
  have idle : Forest.Idle (propVisitor name lowest) (lowest + 1) :=
    ⟨fun _ _ _ _ _ => rfl, fun _ _ _ => rfl, fun level deep p a => if_neg (by omega)⟩
  rw [Forest.visit_leaves (fun _ _ _ => rfl) (fun _ => rfl) idle, ownProperty]
  generalize inner.leaves = own
  induction own with
  | nil => rfl
  | cons p own ih =>
    rw [List.foldlM_cons, List.find?_cons]
    by_cases named : p.name.chars = name.chars
    · have leaf : (propVisitor name lowest).leaf lowest p () = .error (some p.ref) := if_pos ⟨rfl, named⟩
      rw [leaf, decide_eq_true named]
      rfl
    · have leaf : (propVisitor name lowest).leaf lowest p () = .ok () := if_neg fun both => named both.2
      rw [leaf, decide_eq_false named]
      exact ih

theorem Describes.getprop_at (describes : Describes fdt h doc) {place : Forest.Place Heading Property}
    (member : place ∈ doc.places) (short : ending → name.chars.length < 2 ^ 32) :
    Gives ending (fdtGetprop fdt place.node.offset (some name)) ((ownProperty place.inner name).map Property.ref) := by
  obtain ⟨start, middle, at', low, aligned, room⟩ := describes.place member
  have small := describes.small
  have base := describes.formed.structBlock.2.1
  have stop : h.blocks.stop = h.offset.toNat + h.size.toNat := rfl
  have offset := at'.heading.offset
  have behind := at'.content.le
  have nameShort := describes.name_short member
  have width : place.node.width =
    4 + (place.node.name.chars.length + 1 + padding (place.node.name.chars.length + 1)) := rfl
  obtain ⟨measured, next⟩ := at'.heading.measured nameShort
  have found : hasOffset ((place.node.offset : Int) % 2 ^ 32).toNat doc.places = true := by
    rw [hasOffset, List.any_eq_true]
    exact ⟨place, member, decide_eq_true (by omega)⟩
  unfold fdtGetprop
  dsimp only
  refine describes.check.bind ?_
  rw [if_neg (not_not.mpr rfl)]
  refine describes.offDtStruct.bind (describes.offDtStrings.bind (describes.sizeDtStruct.bind ?_))
  rw [if_neg (by omega)]
  refine (describes.isNode _).bind ?_
  rw [found, if_neg (by decide), Int.toNat_natCast, ← offset, if_neg (by omega)]
  refine (token_gives (by decide) at'.heading.token).bind ?_
  rw [if_neg (not_not.mpr rfl)]
  refine measured.bind ?_
  rw [next, ← visit_properties name (place.above.length + 1)]
  have proceeds := at'.content.proceeds (prop_simulates describes short (place.above.length + 1)) (Nat.le_refl _)
    at'.shallow (by omega) [] (fun _ _ => trivial) ()
  have start : propState (place.above.length + 1) (start + place.node.width) (place.above.length + 1) () =
      { cur := start + place.node.width, depth := 0 } := by simp [propState]
  rw [start] at proceeds
  refine proceeds.gives fun a => ?_
  -- The walk ends with the node itself.
  have inside : middle < h.blocks.stop := by omega
  refine tokenRound_end inside at'.token ?_
  rw [if_pos (by simp [propState])]
  exact Gives.pure _

theorem Describes.getprop_none (describes : Describes fdt h doc) {nodeoffset : Int}
    (other : ∀ place ∈ doc.places, nodeoffset ≠ place.node.offset) (name : Text) :
    Gives ending (fdtGetprop fdt nodeoffset (some name)) none := by
  unfold fdtGetprop
  dsimp only
  refine describes.check.bind ?_
  rw [if_neg (not_not.mpr rfl)]
  refine describes.offDtStruct.bind (describes.offDtStrings.bind (describes.sizeDtStruct.bind ?_))
  split
  · exact Gives.pure _
  next inside =>
    have small : h.offset.toNat + h.size.toNat < 2 ^ 31 := describes.small
    have none : hasOffset (nodeoffset % 2 ^ 32).toNat doc.places = false :=
      hasOffset_eq_false fun place member same => other place member (by omega)
    refine (describes.isNode _).bind ?_
    rw [none, if_pos (by decide)]
    exact Gives.pure _

theorem Describes.getprop (describes : Describes fdt h doc) (nodeoffset : Int)
    (short : ending → name.chars.length < 2 ^ 32) :
    ∃ found, Gives ending (fdtGetprop fdt nodeoffset (some name)) found := by
  by_cases node : ∃ place ∈ doc.places, nodeoffset = place.node.offset
  · obtain ⟨place, member, rfl⟩ := node
    exact ⟨_, describes.getprop_at member short⟩
  · exact ⟨none, describes.getprop_none (fun place member same => node ⟨place, member, same⟩) name⟩

end Described

theorem fdtGetprop_owned (fdt : Blob) (accepts : Accepts fdt) (whole : fdt.declared ≤ fdt.bytes.length) :
    (∃ h doc, Describes fdt h doc) ∧ ∀ h doc, Describes fdt h doc → ∀ (nodeoffset : Int) (name : Text),
      (∀ ref, Answers (fdtGetprop fdt nodeoffset (some name)) (some ref) ↔
        ∃ place ∈ doc.places, nodeoffset = place.node.offset ∧
          ∃ p, ownProperty place.inner name = some p ∧ ref = p.ref) ∧
      (name.chars.length < 2 ^ 32 →
        (¬ ∃ place ∈ doc.places, nodeoffset = place.node.offset ∧
          ∃ p ∈ place.inner.leaves, p.name.chars = name.chars) →
        Answers (fdtGetprop fdt nodeoffset (some name)) none) := by
  refine ⟨accepts.describes whole, fun h doc describes nodeoffset name => ?_⟩
  by_cases node : ∃ place ∈ doc.places, nodeoffset = place.node.offset
  · obtain ⟨place, member, rfl⟩ := node
    refine ⟨fun ref => ⟨fun found => ?_, ?_⟩, fun short missing => ?_⟩
    · -- A name that is too long is never measured, so nothing is answered.
      have gives : Gives False (fdtGetprop fdt place.node.offset (some name)) _ :=
        describes.getprop_at member False.elim
      obtain ⟨bound, answered⟩ := found
      obtain ⟨p, own, rfl⟩ := Option.map_eq_some_iff.mp (gives.post bound _ (answered bound (Nat.le_refl _)))
      exact ⟨place, member, rfl, p, own, rfl⟩
    · rintro ⟨other, otherMember, same, p, own, rfl⟩
      obtain ⟨member, named⟩ := ownProperty_some own
      have fits := (describes.property otherMember member).1
      rw [named] at fits
      have gives : Gives True _ _ := describes.getprop_at otherMember fun _ => (by omega : name.chars.length < 2 ^ 32)
      rw [← same, own] at gives
      exact gives.answer
    · have gives : Gives True _ _ := describes.getprop_at member fun _ => short
      have none : ownProperty place.inner name = none := by
        refine List.find?_eq_none.mpr fun p own named => missing ⟨place, member, rfl, p, own, ?_⟩
        exact of_decide_eq_true named
      rw [none] at gives
      exact gives.answer
  · have gives : Gives True _ _ :=
      describes.getprop_none (fun place member same => node ⟨place, member, same⟩) name
    refine ⟨fun ref => ⟨fun found => ?_, ?_⟩, fun _ _ => gives.answer⟩
    · cases gives.answer.unique found
    · rintro ⟨place, member, same, -⟩
      exact absurd ⟨place, member, same⟩ node

-- The node at offset 8 is the root's child.
theorem fdtGetprop_owned_memory : ∃ h doc, Describes memoryBlob h doc ∧
    ∃ place ∈ doc.places, (8 : Int) = place.node.offset ∧
      ∃ p, ownProperty place.inner (Text.ofAscii "reg") = some p ∧ (⟨104, 16⟩ : PropRef) = p.ref := by
  obtain ⟨⟨h, doc, describes⟩, all⟩ := fdtGetprop_owned memoryBlob memoryBlob_accepted memoryBlob_whole
  have computed : fdtGetprop memoryBlob 8 (some (Text.ofAscii "reg")) 300 = .ok (some ⟨104, 16⟩) := by rfl
  obtain ⟨r, gives⟩ : ∃ r, Gives True (fdtGetprop memoryBlob 8 (some (Text.ofAscii "reg"))) r :=
    describes.getprop 8 fun _ => by decide
  obtain rfl := gives.post 300 _ computed
  exact ⟨h, doc, describes, ((all h doc describes 8 _).1 _).mp gives.answer⟩

end OrangeKernel.Fdt
