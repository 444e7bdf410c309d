import OrangeKernel.Fdt.Document

set_option autoImplicit false

namespace OrangeKernel.Fdt

open ByteScan BigEndian Machine

variable {ending : Prop} {bytes : List UInt8} {blocks : Blocks} {base : Nat} {cur : Nat}

theorem token_gives {token : Nat} (small : token < 2 ^ 32) (holds : Holds bytes cur (tokenWord token)) :
    Gives ending (cell bytes cur) token := by
  have known := cellIs_of_holds holds
  rw [UInt32.toNat_ofNat_of_lt' small] at known
  exact known.runs

def tokenRound {S R : Type} (bytes : List UInt8) (stop cur : Nat) (begins ends prop nop : Scan (Round S R))
    (other : Nat → Scan (Round S R)) (past : Scan (Round S R)) : Scan (Round S R) :=
  if cur < stop then do
    let token ← cell bytes cur
    if token = fdtBeginNode then begins
    else if token = fdtEndNode then ends
    else if token = fdtProp then prop
    else if token = fdtNop then nop
    else other token
  else past

section Rounds

variable {S R : Type} {stop : Nat} {begins ends prop nop past : Scan (Round S R)} {other : Nat → Scan (Round S R)}
  {round : Round S R} (inside : cur < stop)
include inside

theorem tokenRound_gives {token : Nat} (small : token < 2 ^ 32) (holds : Holds bytes cur (tokenWord token))
    (rest : Gives ending (if token = fdtBeginNode then begins else if token = fdtEndNode then ends
      else if token = fdtProp then prop else if token = fdtNop then nop else other token) round) :
    Gives ending (tokenRound bytes stop cur begins ends prop nop other past) round := by
  rw [tokenRound, if_pos inside]
  exact (token_gives small holds).bind rest

theorem tokenRound_begin (holds : Holds bytes cur (tokenWord fdtBeginNode)) (rest : Gives ending begins round) :
    Gives ending (tokenRound bytes stop cur begins ends prop nop other past) round :=
  tokenRound_gives inside (by decide) holds (by simpa using rest)

theorem tokenRound_end (holds : Holds bytes cur (tokenWord fdtEndNode)) (rest : Gives ending ends round) :
    Gives ending (tokenRound bytes stop cur begins ends prop nop other past) round :=
  tokenRound_gives inside (by decide) holds rest

theorem tokenRound_prop (holds : Holds bytes cur (tokenWord fdtProp)) (rest : Gives ending prop round) :
    Gives ending (tokenRound bytes stop cur begins ends prop nop other past) round :=
  tokenRound_gives inside (by decide) holds rest

theorem tokenRound_nop (holds : Holds bytes cur (tokenWord fdtNop)) (rest : Gives ending nop round) :
    Gives ending (tokenRound bytes stop cur begins ends prop nop other past) round :=
  tokenRound_gives inside (by decide) holds rest

theorem tokenRound_other (holds : Holds bytes cur (tokenWord fdtEnd)) (rest : Gives ending (other fdtEnd) round) :
    Gives ending (tokenRound bytes stop cur begins ends prop nop other past) round :=
  tokenRound_gives inside (by decide) holds rest

end Rounds

variable {x : Heading}

theorem Heading.width_le (fits : cur + x.width ≤ blocks.stop) :
    cur + x.name.chars.length < blocks.stop := by
  rw [Heading.width] at fits
  omega

theorem Heading.inside (x : Heading) (fits : cur + x.width ≤ blocks.stop) : cur < blocks.stop := by
  have short := Heading.width_le fits
  omega

theorem BeginAt.measured (heading : BeginAt bytes base cur x) (short : x.name.chars.length < 2 ^ 31 - 1) :
    Gives ending (strLen bytes (cur + 4)) x.name.chars.length ∧
      cur + 4 + align4 (x.name.chars.length + 1) = cur + x.width := by
  refine ⟨strLen_runs (x.name.terminatedAt heading.name) fun _ => by omega, ?_⟩
  rw [align4, roundUp4_eq (by omega), Heading.width]
  omega

theorem BeginAt.nodeOffset (heading : BeginAt bytes base cur x) :
    ((cur + 4 : Nat) : Int) - 4 - base = x.offset := by
  have offset := heading.offset
  omega

variable {p : Property}

theorem PropAt.lenCell (property : PropAt bytes blocks cur p) :
    Gives ending (cell bytes (cur + 4)) p.payload.length := by
  obtain ⟨len, length, holds⟩ := property.len
  rw [← length]
  exact (cellIs_of_holds holds).runs

theorem PropAt.nameCell (property : PropAt bytes blocks cur p) :
    ∃ nameoff, Gives ending (cell bytes (cur + 8)) nameoff ∧
      Holds bytes (blocks.strings + nameoff) p.name.bytes := by
  obtain ⟨nameoff, holds, name⟩ := property.name
  exact ⟨nameoff.toNat, (cellIs_of_holds holds).runs, name⟩

theorem Property.align (p : Property) (short : p.payload.length < 2 ^ 31) (cur : Nat) :
    cur + 4 + 4 + 4 + align4 p.payload.length = cur + p.width := by
  rw [align4, roundUp4_eq (by omega), Property.width]
  omega

theorem Property.inside (p : Property) (fits : cur + p.width ≤ blocks.stop) : cur < blocks.stop := by
  rw [Property.width] at fits
  omega

theorem Property.short (p : Property) (small : blocks.stop < 2 ^ 31) (fits : cur + p.width ≤ blocks.stop) :
    p.payload.length < 2 ^ 31 := by
  rw [Property.width] at fits
  omega

structure Simulates {S A R : Type} (ending : Prop) (bytes : List UInt8) (blocks : Blocks) (base : Nat)
    (known : Heading → Items → Prop) (body : S → Scan (Round S R)) (conc : (cur level : Nat) → A → S)
    (v : Forest.Visitor Heading Property A R)
    (lowest : Nat) : Prop where
  enter : ∀ cur level x inner a, lowest ≤ level → level < fdtMaxDepth → BeginAt bytes base cur x →
    cur + x.width ≤ blocks.stop → known x inner →
    Gives ending (body (conc cur level a)) (Round.of (conc (cur + x.width) (level + 1)) (v.enter level x inner a))
  leave : ∀ cur level a, lowest ≤ level → cur < blocks.stop → Holds bytes cur (tokenWord fdtEndNode) →
    Gives ending (body (conc cur (level + 1) a)) (Round.of (conc (cur + 4) level) (v.leave level a))
  leaf : ∀ cur level p a, lowest ≤ level → level ≤ fdtMaxDepth → PropAt bytes blocks cur p →
    cur + p.width ≤ blocks.stop →
    Gives ending (body (conc cur level a)) (Round.of (conc (cur + p.width) level) (v.leaf level p a))
  nop : ∀ cur level a, cur < blocks.stop → Holds bytes cur (tokenWord fdtNop) →
    Gives ending (body (conc cur level a)) (.next (conc (cur + 4) level a))

variable {S A R : Type} {known : Heading → Items → Prop} {body : S → Scan (Round S R)}
  {conc : (cur level : Nat) → A → S} {v : Forest.Visitor Heading Property A R} {lowest : Nat}

theorem Lays.proceeds (simulates : Simulates ending bytes blocks base known body conc v lowest) {level after : Nat}
    {f : Items} (lays : Lays bytes blocks base cur level f after) (deep : lowest ≤ level)
    (shallow : level ≤ fdtMaxDepth) (inside : after < blocks.stop) (above : List Heading)
    (all : ∀ place ∈ f.places above, known place.node place.inner) (a : A) :
    Proceeds ending body (conc cur level a) (conc after level) (f.visit v level a) := by
  induction lays generalizing above a with
  | done => exact Proceeds.here (conc _ _) a
  | nop token rest ih =>
    have behind := rest.le
    exact Proceeds.next (simulates.nop _ _ a (by omega) token) (ih deep shallow inside above all a)
  | prop property rest ih =>
    have behind := rest.le
    exact Proceeds.bind (Proceeds.round (simulates.leaf _ _ _ a deep shallow property (by omega))) fun a =>
      ih deep shallow inside above all a
  | @node cur level middle after x inner f heading below content token rest contentIh restIh =>
    have behind := rest.le
    have end' := content.le
    have here : known x inner := all ⟨above, x, inner⟩ List.mem_cons_self
    have within : ∀ place ∈ inner.places (above ++ [x]), known place.node place.inner := fun place member =>
      all place (List.mem_cons_of_mem _ (List.mem_append_left _ member))
    have beside : ∀ place ∈ f.places above, known place.node place.inner := fun place member =>
      all place (List.mem_cons_of_mem _ (List.mem_append_right _ member))
    refine Proceeds.bind (Proceeds.round (simulates.enter _ _ _ _ a deep below heading (by omega) here)) fun a => ?_
    refine Proceeds.bind (contentIh (by omega) below (by omega) _ within a) fun a => ?_
    refine Proceeds.bind (Proceeds.round (simulates.leave _ _ a deep (by omega) token)) fun a => ?_
    exact restIh deep shallow inside _ beside a

section Described

variable {fdt : Blob} {h : BlobHeader} {doc : Document}

def Document.Has (doc : Document) (x : Heading) (inner : Items) : Prop :=
  ∃ place ∈ doc.places, place.node = x ∧ place.inner = inner

variable (describes : Describes fdt h doc)
include describes

theorem Describes.offDtStruct : Gives ending fdt.offDtStruct h.offset.toNat :=
  (cellIs_of_holds describes.formed.offset).runs

theorem Describes.sizeDtStruct : Gives ending fdt.sizeDtStruct h.size.toNat :=
  (cellIs_of_holds describes.formed.size).runs

theorem Describes.offDtStrings : Gives ending fdt.offDtStrings h.stringOffset.toNat :=
  (cellIs_of_holds describes.formed.stringOffset).runs

theorem Describes.accepts : Accepts fdt := by
  obtain ⟨fuel, answered⟩ := describes.checked
  exact ⟨fuel, answered fuel (Nat.le_refl _)⟩

theorem Describes.small : h.blocks.stop < 2 ^ 31 := by
  have total := describes.formed.totalBounds.2
  have block := describes.formed.structBlock.2.2
  change h.offset.toNat + h.size.toNat < 2 ^ 31
  omega

theorem Describes.stop : h.blocks.stop ≤ fdt.bytes.length :=
  describes.formed.structBlock.2.2.trans describes.whole

theorem Describes.place {place : Forest.Place Heading Property} (member : place ∈ doc.places) :
    ∃ start middle, NodeAt fdt.bytes h.blocks h.offset.toNat start middle place ∧ h.offset.toNat ≤ start ∧
      start % 4 = 0 ∧ middle + 8 ≤ h.blocks.stop := by
  obtain ⟨after, lays, -, room⟩ := describes.tree
  obtain ⟨start, middle, at', low, aligned, high⟩ := lays.place rfl member
  have base := describes.formed.structBlock.2.1
  exact ⟨start, middle, at', low, by omega, by omega⟩

theorem Describes.name_short {place : Forest.Place Heading Property} (member : place ∈ doc.places) :
    place.node.name.chars.length < 2 ^ 31 - 1 := by
  obtain ⟨start, middle, at', -, -, room⟩ := describes.place member
  have small := describes.small
  have behind := at'.content.le
  rw [Heading.width] at behind
  omega

theorem Describes.property {place : Forest.Place Heading Property} (member : place ∈ doc.places)
    (own : p ∈ place.inner.leaves) :
    p.name.chars.length < 2 ^ 31 ∧ p.payload.length < 2 ^ 31 ∧ Holds fdt.bytes p.data p.payload := by
  obtain ⟨start, middle, at', -, -, room⟩ := describes.place member
  obtain ⟨cur, property, inside⟩ := at'.content.property own
  have small := describes.small
  have fits : p.name.chars.length < h.stringSize.toNat := property.nameFits
  have strings := describes.formed.stringsBlock.2
  have total := describes.formed.totalBounds.2
  rw [Property.width] at inside
  exact ⟨by omega, by omega, property.payload⟩

theorem Describes.check : Gives ending (fdtCheckHeader fdt) 0 := by
  have placed := describes.accepts.placed
  refine (fdtCheckHeader_decides placed.1 placed.2 describes.accepts.long fun total holds => ?_).known describes.checked
  rw [be32_inj (holds.unique describes.formed.total rfl)]
  exact describes.whole

theorem Describes.walk (simulates : Simulates ending fdt.bytes h.blocks h.offset.toNat doc.Has body conc v 0)
    {last : A → R} (finish : ∀ cur a, cur < h.blocks.stop → Holds fdt.bytes cur (tokenWord fdtEnd) →
      Gives ending (body (conc cur 0 a)) (.done (last a)))
    (a : A) :
    Gives ending (loop body (conc h.offset.toNat 0 a)) (outcome last (doc.forest.visit v 0 a)) := by
  obtain ⟨after, lays, token, room⟩ := describes.tree
  have proceeds := lays.proceeds simulates (Nat.le_refl _) (Nat.zero_le _) (by omega) []
    (fun place member => ⟨place, member, rfl, rfl⟩) a
  exact proceeds.gives fun a => finish after a (by omega) token

end Described

end OrangeKernel.Fdt
