import OrangeKernel.Fdt.Getprop
import OrangeKernel.Fdt.Path
import OrangeKernel.Fdt.Queries

set_option autoImplicit false

namespace OrangeKernel.Fdt

open ByteScan BigEndian Memory

variable {ending : Prop}

def regTuple (addrCells sizeCells : Nat) (w : List UInt8) : FdtMemRegion where
  base := UInt64.ofNat (number (w.take (4 * addrCells)))
  size := UInt64.ofNat (number ((w.drop (4 * addrCells)).take (4 * sizeCells)))

def regTuples (addrCells sizeCells : Nat) (payload : List UInt8) : List FdtMemRegion :=
  (List.range (payload.length / (4 * (addrCells + sizeCells)))).map fun t =>
    regTuple addrCells sizeCells (payload.drop (4 * (t * (addrCells + sizeCells))))

def nonzero (r : FdtMemRegion) : Bool := r.size ≠ 0

def regRegions (addrCells sizeCells : Nat) (inner : Items) : List FdtMemRegion :=
  match ownProperty inner (Text.ofAscii "reg") with
  | some p => (regTuples addrCells sizeCells p.payload).filter nonzero
  | none => []

def cellCount (inner : Items) (name : Text) (default : Nat) : Nat :=
  match ownProperty inner name with
  | some p => if p.payload.length < 4 then default else number (p.payload.take 4)
  | none => default

def isMemory (x : Heading) (inner : Items) : Bool :=
  x.name.chars = (Text.ofAscii "memory").chars ∨ (Text.ofAscii "memory@").chars <+: x.name.chars ∨
    ((ownProperty inner (Text.ofAscii "device_type")).any fun p => (Text.ofAscii "memory").bytes.isPrefixOf p.payload) =
      true

def regionsOf (wanted : Heading → Items → Bool) (addrCells sizeCells : Nat) (nodes : List (Heading × Items)) :
    List FdtMemRegion :=
  nodes.flatMap fun c => if wanted c.1 c.2 then regRegions addrCells sizeCells c.2 else []

def ValidCells (addrCells sizeCells : Nat) : Prop :=
    (addrCells = 1 ∨ addrCells = 2) ∧ (sizeCells = 1 ∨ sizeCells = 2)

instance (addrCells sizeCells : Nat) : Decidable (ValidCells addrCells sizeCells) :=
  inferInstanceAs (Decidable ((addrCells = 1 ∨ addrCells = 2) ∧ (sizeCells = 1 ∨ sizeCells = 2)))

def bounded (limit : Nat) (all : List FdtMemRegion) : Option (List FdtMemRegion) :=
  if all.length ≤ limit then some all else none

section Cells

variable {bytes w : List UInt8} {start : Nat}

theorem cell_number (holds : Holds bytes start w) (four : w.length = 4) : CellIs bytes start (number w) := by
  have inside := holds.fits
  rw [four] at inside
  have words : Runs True (cell bytes start) fun v => ∃ u : UInt32, u.toNat = v ∧ Holds bytes start (be32 u) :=
    cell_word inside
  obtain ⟨v, -, u, rfl, same⟩ := words.answered
  rw [holds.unique same four, number_be32]
  exact cellIs_of_holds same

theorem number_cell_lt (four : w.length = 4) : number w < 2 ^ 32 := by
  have known := cell_number (Holds.whole w) four
  have words : Runs True (cell w 0) fun v => ∃ u : UInt32, u.toNat = v ∧ Holds w 0 (be32 u) := cell_word (by omega)
  obtain ⟨u, same, -⟩ := words.post 0 _ (known 0)
  rw [← same]
  exact u.toNat_lt

theorem readCells_number {count : Nat} (holds : Holds bytes start w) (length : w.length = 4 * count) :
    Gives ending (readCells bytes start count) (UInt64.ofNat (number w)) := by
  refine Runs.loop (fun s => s.1 ≤ count ∧ s.2 = UInt64.ofNat (number (w.take (4 * s.1))))
    (fun s => count - s.1) ?_ ⟨Nat.zero_le _, rfl⟩
  rintro ⟨i, value⟩ ⟨le, known⟩
  dsimp only at le known ⊢
  subst known
  split
  next less =>
    have parts : w.take (4 * i) ++ (w.drop (4 * i)).take 4 = w.take (4 * (i + 1)) := by
      rw [Nat.mul_succ, List.take_add]
    have size : ((w.drop (4 * i)).take 4).length = 4 := by
      rw [List.length_take, List.length_drop]
      omega
    have here : Holds bytes (start + 4 * i) ((w.drop (4 * i)).take 4) := holds.part (by omega)
    refine (cell_number here size).runs.bind ?_
    refine Runs.pure ⟨⟨less, ?_⟩, fun _ => by dsimp only; omega⟩
    have word : 256 ^ 4 = 2 ^ 32 := by norm_num
    dsimp only
    rw [shift_or_cell _ (number_cell_lt size), ← parts, number_append, size, word]
  next full =>
    obtain rfl : i = count := by omega
    rw [← length, List.take_length]
    exact Runs.pure rfl

end Cells

def store (limit : Nat) (out new : List FdtMemRegion) : Except (Option (List FdtMemRegion)) (List FdtMemRegion) :=
  if new = [] ∨ (out ++ new).length ≤ limit then .ok (out ++ new) else .error none

theorem store_nil (limit : Nat) (out : List FdtMemRegion) : store limit out [] = .ok out := by simp [store]

variable {limit : Nat}

theorem store_full {out new : List FdtMemRegion} (full : limit < (out ++ new).length) (some : new ≠ []) :
    store limit out new = .error none := by
  rw [store, if_neg]
  rintro (empty | fits)
  · exact some empty
  · omega

theorem foldlM_store {α : Type} (limit : Nat) (ranges : α → List FdtMemRegion) (nodes : List α)
    {out : List FdtMemRegion}
    (fits : out.length ≤ limit) : outcome some (nodes.foldlM (fun out c => store limit out (ranges c)) out) =
      bounded limit (out ++ nodes.flatMap ranges) := by
  induction nodes generalizing out with
  | nil => simp [outcome, bounded, fits, pure, Except.pure]
  | cons c nodes ih =>
    rw [List.foldlM_cons, List.flatMap_cons, ← List.append_assoc]
    by_cases room : (out ++ ranges c).length ≤ limit
    · have stored : store limit out (ranges c) = .ok (out ++ ranges c) := if_pos (Or.inr room)
      rw [stored]
      exact ih room
    · have some : ranges c ≠ [] := by
        intro empty
        rw [empty, List.append_nil] at room
        exact room fits
      rw [store_full (by omega) some, bounded, if_neg]
      · rfl
      · rw [List.length_append]
        omega

section Tuples

variable {bytes payload : List UInt8} {data addrCells sizeCells : Nat}

def firstRegions (addrCells sizeCells : Nat) (payload : List UInt8) (t : Nat) : List FdtMemRegion :=
  ((List.range t).map fun t => regTuple addrCells sizeCells (payload.drop (4 * (t * (addrCells + sizeCells))))).filter
    nonzero

theorem firstRegions_succ (t : Nat) : firstRegions addrCells sizeCells payload (t + 1) =
    firstRegions addrCells sizeCells payload t ++
      [regTuple addrCells sizeCells (payload.drop (4 * (t * (addrCells + sizeCells))))].filter nonzero := by
  rw [firstRegions, firstRegions, List.range_succ, List.map_append, List.filter_append]
  rfl

theorem firstRegions_begins {t n : Nat} (le : t ≤ n) :
    firstRegions addrCells sizeCells payload t <+: firstRegions addrCells sizeCells payload n := by
  obtain ⟨more, rfl⟩ := Nat.exists_eq_add_of_le le
  induction more with
  | zero => exact List.prefix_refl _
  | succ more ih =>
    rw [← Nat.add_assoc, firstRegions_succ]
    exact (ih (Nat.le_add_right _ _)).trans (List.prefix_append _ _)

theorem readTuples_gives (holds : Holds bytes data payload) {count : Nat}
    (fits : count * (4 * (addrCells + sizeCells)) ≤ payload.length) (out : List FdtMemRegion) :
    Gives ending (readTuples bytes data addrCells sizeCells count limit out)
      (outcome some (store limit out (firstRegions addrCells sizeCells payload count))) := by
  refine Runs.loop (fun s => s.1 ≤ count ∧ s.2 = out ++ firstRegions addrCells sizeCells payload s.1 ∧
      (firstRegions addrCells sizeCells payload s.1 = [] ∨ s.2.length ≤ limit))
    (fun s => count - s.1) ?_ ⟨Nat.zero_le _, (List.append_nil _).symm, Or.inl rfl⟩
  rintro ⟨t, stored⟩ ⟨le, known, room⟩
  dsimp only at le known room ⊢
  split
  next less =>
    have last : (t + 1) * (4 * (addrCells + sizeCells)) ≤ count * (4 * (addrCells + sizeCells)) :=
      Nat.mul_le_mul_right _ less
    have offset : 4 * (t * (addrCells + sizeCells)) = t * (4 * (addrCells + sizeCells)) := Nat.mul_left_comm _ _ _
    rw [Nat.succ_mul] at last
    have addr := holds.part (by omega : 4 * (t * (addrCells + sizeCells)) + 4 * addrCells ≤ payload.length)
    have size := holds.part
      (by omega : 4 * (t * (addrCells + sizeCells)) + 4 * addrCells + 4 * sizeCells ≤ payload.length)
    rw [← List.drop_drop, ← Nat.add_assoc] at size
    have succ := @firstRegions_succ payload addrCells sizeCells t
    refine (readCells_number addr (by rw [List.length_take, List.length_drop]; omega)).bind ?_
    refine Runs.bind (readCells_number size (by rw [List.length_take, List.length_drop, List.length_drop]; omega))
      fun width same => ?_
    split
    next some =>
      have grows : firstRegions addrCells sizeCells payload (t + 1) = firstRegions addrCells sizeCells payload t ++
          [regTuple addrCells sizeCells (payload.drop (4 * (t * (addrCells + sizeCells))))] := by
        rw [succ, List.filter_singleton, nonzero, regTuple, same, decide_eq_true some]
        rfl
      split
      next full =>
        -- The array is full, and this range belongs to the list.
        have begins := @firstRegions_begins payload addrCells sizeCells _ _ (Nat.succ_le_of_lt less)
        have longer := begins.length_le
        rw [grows, List.length_append, List.length_singleton] at longer
        refine Runs.pure ?_
        rw [Round.Meets, store_full]
        · rfl
        · rw [known, List.length_append] at full
          rw [List.length_append]
          omega
        · intro empty
          rw [empty, List.length_nil] at longer
          omega
      next room' =>
        refine Runs.pure ⟨⟨less, ?_, Or.inr ?_⟩, fun _ => by dsimp only; omega⟩
        · dsimp only
          rw [grows, known, regTuple, same, List.append_assoc]
        · rw [List.length_append, List.length_singleton]
          omega
    next zero =>
      have same' : firstRegions addrCells sizeCells payload (t + 1) = firstRegions addrCells sizeCells payload t := by
        rw [succ, List.filter_singleton, nonzero, regTuple, same, decide_eq_false zero]
        simp
      exact Runs.pure
        ⟨⟨less, by rw [same']; exact known, by rw [same']; exact room⟩, fun _ => by dsimp only; omega⟩
  next full =>
    obtain rfl : t = count := by omega
    subst known
    refine Runs.pure ?_
    rw [Round.Meets, store, if_pos room]
    rfl

end Tuples

section Nodes

variable {fdt : Blob} {h : BlobHeader} {doc : Document} {place : Forest.Place Heading Property}

theorem Describes.cellCount (describes : Describes fdt h doc) (member : place ∈ doc.places) {name : Text}
    (short : ending → name.chars.length < 2 ^ 32) (default : Nat) :
    Gives ending (fdtGetU32 fdt place.node.offset name default) (toInt (cellCount place.inner name default)) := by
  unfold fdtGetU32
  refine (describes.getprop_at member short).bind ?_
  rw [Fdt.cellCount]
  cases found : ownProperty place.inner name with
  | none => exact Gives.pure _
  | some p =>
    obtain ⟨-, -, holds⟩ := describes.property member (ownProperty_some found).1
    simp only [Option.map_some, Property.ref]
    by_cases few : p.payload.length < 4
    · rw [if_pos (by omega), if_pos few]
      exact Gives.pure _
    · rw [if_neg (by omega), if_neg few]
      have size : (p.payload.take 4).length = 4 := by
        rw [List.length_take]
        omega
      have front := holds.part (by omega : 0 + 4 ≤ p.payload.length)
      rw [List.drop_zero, Nat.add_zero] at front
      exact (cell_number front size).runs.bind (Gives.pure _)

theorem cellCount_lt (inner : Items) (name : Text) {default : Nat} (small : default < 2 ^ 32) :
    cellCount inner name default < 2 ^ 32 := by
  rw [cellCount]
  cases ownProperty inner name with
  | none => exact small
  | some p =>
    dsimp only
    split
    · exact small
    next enough =>
      refine number_cell_lt ?_
      rw [List.length_take]
      omega

theorem badCells_iff {addrCells sizeCells : Nat} (addr : addrCells < 2 ^ 32) (size : sizeCells < 2 ^ 32) :
    badCells (toInt addrCells) (toInt sizeCells) = true ↔ ¬ ValidCells addrCells sizeCells := by
  have one : ∀ n : Nat, n < 2 ^ 32 → ((toInt n = 1 ↔ n = 1) ∧ (toInt n = 2 ↔ n = 2)) := by
    intro n small
    unfold toInt
    split <;> omega
  simp only [badCells, ValidCells, ne_eq, one addrCells addr, one sizeCells size, Bool.or_eq_true, Bool.and_eq_true,
    decide_eq_true_eq]
  omega

theorem Describes.readReg (describes : Describes fdt h doc) (member : place ∈ doc.places) {addrCells sizeCells : Nat}
    (some : 0 < addrCells + sizeCells) (limit : Nat) (wanted : Bool) (out : List FdtMemRegion) :
    Gives ending (readReg fdt wanted place.node.offset addrCells sizeCells limit out)
      (outcome Option.some (store limit out (if wanted then regRegions addrCells sizeCells place.inner else []))) := by
  unfold Fdt.readReg
  cases wanted with
  | false =>
    rw [if_pos (by decide), if_neg (by decide), store_nil]
    exact Gives.pure _
  | true =>
    rw [if_neg (by decide), if_pos rfl]
    refine (describes.getprop_at member fun _ => by decide).bind ?_
    rw [regRegions]
    cases found : ownProperty place.inner (Text.ofAscii "reg") with
    | none =>
      rw [store_nil]
      exact Gives.pure _
    | some p =>
      obtain ⟨-, -, holds⟩ := describes.property member (ownProperty_some found).1
      simp only [Option.map_some, Property.ref]
      have width : (((addrCells : Int) + sizeCells) * 4).toNat = 4 * (addrCells + sizeCells) := by omega
      by_cases enough : 4 * (addrCells + sizeCells) ≤ p.payload.length
      · rw [if_pos (by omega), Int.toNat_natCast, width]
        exact readTuples_gives holds (Nat.div_mul_le_self _ _) out
      · have none : p.payload.length / (4 * (addrCells + sizeCells)) = 0 := Nat.div_eq_of_lt (by omega)
        have empty : (regTuples addrCells sizeCells p.payload).filter nonzero = [] := by
          rw [regTuples, none]
          rfl
        rw [if_neg (by omega), empty, store_nil]
        exact Gives.pure _

theorem Describes.isMemory (describes : Describes fdt h doc) (member : place ∈ doc.places) {cur : Nat}
    (heading : BeginAt fdt.bytes h.offset.toNat cur place.node) :
    Gives ending (isMemoryNode fdt (cur + 4) place.node.offset) (isMemory place.node place.inner) := by
  have six : 6 = (Text.ofAscii "memory").chars.length := by decide
  have exact' : Runs ending _ _ := place.node.name.nameEq_tells (Text.ofAscii "memory").noNul heading.name
    (Holds.whole (Text.ofAscii "memory").bytes).left
  have starts : Runs ending _ _ :=
    place.node.name.nameStartsWith_tells (by decide : (Text.ofAscii "memory@").chars.length < 2 ^ 32) heading.name
  have byName : Gives ending (orElse (decide (place.node.name.chars = (Text.ofAscii "memory").chars))
      (nameStartsWith fdt.bytes (cur + 4) (Text.ofAscii "memory@").bytes))
      (decide (place.node.name.chars = (Text.ofAscii "memory").chars ∨
        (Text.ofAscii "memory@").chars <+: place.node.name.chars)) := by
    by_cases named : place.node.name.chars = (Text.ofAscii "memory").chars
    · rw [decide_eq_true named, decide_eq_true (Or.inl named)]
      exact Gives.pure _
    · rw [decide_eq_false named]
      exact (starts.weaken fun begins iff => iff.trans (or_iff_right named).symm).decides
  unfold isMemoryNode
  rw [six]
  refine exact'.decides.bind (byName.bind ((describes.getprop_at member fun _ => by decide).bind ?_))
  rw [Fdt.isMemory]
  cases found : ownProperty place.inner (Text.ofAscii "device_type") with
  | none =>
    simp only [Option.map_none, Option.any_none, Bool.false_eq_true, or_false]
    exact Gives.pure _
  | some p =>
    obtain ⟨-, -, holds⟩ := describes.property member (ownProperty_some found).1
    simp only [Option.map_some, Property.ref, Option.any_some]
    have byType : Gives ending (andAlso ((p.payload.length : Int) ≥ 7)
        (nameEq fdt.bytes p.data (Text.ofAscii "memory").bytes 0 (Text.ofAscii "memory").chars.length))
        (decide ((Text.ofAscii "memory").bytes <+: p.payload)) := by
      have seven : (Text.ofAscii "memory").bytes.length = 7 := by decide
      by_cases long : (p.payload.length : Int) ≥ 7
      · rw [decide_eq_true long]
        have tells : Runs ending _ _ := nameEq_tells (Text.ofAscii "memory").noNul holds
          (Holds.whole (Text.ofAscii "memory").bytes).left (Or.inr (by omega))
        exact tells.decides
      · have short : ¬ (Text.ofAscii "memory").bytes <+: p.payload := fun begins => by
          have length := begins.length_le
          omega
        rw [decide_eq_false long, decide_eq_false short]
        exact Gives.pure _
    refine byType.bind ?_
    have either : (decide (place.node.name.chars = (Text.ofAscii "memory").chars ∨
        (Text.ofAscii "memory@").chars <+: place.node.name.chars) ||
          decide ((Text.ofAscii "memory").bytes <+: p.payload)) =
        decide (place.node.name.chars = (Text.ofAscii "memory").chars ∨
          (Text.ofAscii "memory@").chars <+: place.node.name.chars ∨
          (Text.ofAscii "memory").bytes.isPrefixOf p.payload = true) := by
      rw [← Bool.decide_or, decide_eq_decide, List.isPrefixOf_iff_prefix, or_assoc]
    rw [← either]
    exact Gives.pure _

end Nodes

def regVisitor (wanted : Heading → Items → Bool) (lowest addrCells sizeCells limit : Nat) :
    Forest.Visitor Heading Property (List FdtMemRegion) (Option (List FdtMemRegion)) where
  enter level x inner out :=
    store limit out (if decide (level = lowest) && wanted x inner then regRegions addrCells sizeCells inner else [])
  leave _ out := .ok out
  leaf _ _ out := .ok out

def regState (lowest cur level : Nat) (out : List FdtMemRegion) : RegionState :=
  { cur := cur, depth := (level : Int) - lowest, out := out }

theorem visit_regions (wanted : Heading → Items → Bool) (lowest addrCells sizeCells limit : Nat) (f : Items) :
    outcome some (f.visit (regVisitor wanted lowest addrCells sizeCells limit) lowest []) =
      bounded limit (regionsOf wanted addrCells sizeCells f.children) := by
  have idle : Forest.Idle (regVisitor wanted lowest addrCells sizeCells limit) (lowest + 1) := by
    refine ⟨fun level deep x inner out => ?_, fun _ _ _ => rfl, fun _ _ _ _ => rfl⟩
    have other : level ≠ lowest := by omega
    simp only [regVisitor, decide_eq_false other, Bool.false_and, Bool.false_eq_true, if_false]
    exact store_nil limit out
  rw [Forest.visit_children (fun _ _ => rfl) (fun _ => rfl) idle]
  have enters : (fun (out : List FdtMemRegion) (c : Heading × Items) =>
      (regVisitor wanted lowest addrCells sizeCells limit).enter lowest c.1 c.2 out) =
      fun out c => store limit out (if wanted c.1 c.2 then regRegions addrCells sizeCells c.2 else []) := by
    simp [regVisitor]
  rw [enters, foldlM_store limit _ _ (Nat.zero_le _)]
  rfl

theorem visit_root (wanted : Heading → Items → Bool) (addrCells sizeCells limit : Nat) (doc : Document) :
    outcome some (doc.forest.visit (regVisitor wanted 1 addrCells sizeCells limit) 0 []) =
      bounded limit (regionsOf wanted addrCells sizeCells doc.items.children) := by
  rw [← visit_regions wanted 1]
  have enters : (regVisitor wanted 1 addrCells sizeCells limit).enter 0 doc.root doc.items [] = .ok [] :=
    store_nil limit []
  cases inside : doc.items.visit (regVisitor wanted 1 addrCells sizeCells limit) 1 [] with
  | error r =>
    rw [Document.forest, Forest.visit_node_inside enters inside]
  | ok out =>
    rw [Document.forest, Forest.visit_node enters inside rfl]
    rfl

theorem store_cases (limit : Nat) (out new : List FdtMemRegion) :
    store limit out new = .ok (out ++ new) ∨ store limit out new = .error none := by
  rw [store]
  split
  · exact Or.inl rfl
  · exact Or.inr rfl

variable {place : Forest.Place Heading Property}

section Code

variable {fdt : Blob} {h : BlobHeader} {doc : Document} {addrCells sizeCells : Nat}

theorem Describes.readRound (describes : Describes fdt h doc) (member : place ∈ doc.places)
    (some : 0 < addrCells + sizeCells) (limit : Nat) (wanted : Bool) (out : List FdtMemRegion)
    {next : List FdtMemRegion → RegionState} :
    Gives ending (do
        match ← Fdt.readReg fdt wanted place.node.offset addrCells sizeCells limit out with
        | .none => pure (.done none)
        | .some out => pure (.next (next out)))
      (Round.of next (store limit out (if wanted = true then regRegions addrCells sizeCells place.inner else []))) := by
  refine (describes.readReg member some limit wanted out).bind ?_
  rcases store_cases limit out (if wanted = true then regRegions addrCells sizeCells place.inner else [])
    with stored | full
  · rw [stored]
    exact Gives.pure _
  · rw [full]
    exact Gives.pure _

theorem memory_simulates (describes : Describes fdt h doc) (some : 0 < addrCells + sizeCells) :
    Simulates ending fdt.bytes h.blocks h.offset.toNat doc.Has
      (memoryToken fdt h.offset.toNat h.blocks.stop addrCells sizeCells limit) (regState 1)
      (regVisitor isMemory 1 addrCells sizeCells limit) 0 where
  enter := by
    rintro cur level _ _ out - - heading fits ⟨place, member, rfl, rfl⟩
    have inside := Heading.width_le fits
    have small := describes.small
    obtain ⟨measured, width⟩ := heading.measured (by omega)
    have depth : (level : Int) - (1 : Nat) + 1 = level := by omega
    have next : ((level + 1 : Nat) : Int) - (1 : Nat) = level := by omega
    refine tokenRound_begin (place.node.inside fits) heading.token (measured.bind ?_)
    simp only [regState, heading.nodeOffset, width, depth]
    have wanted : Gives ending (andAlso ((level : Int) = 1) (isMemoryNode fdt (cur + 4) place.node.offset))
        (decide (level = 1) && isMemory place.node place.inner) := by
      by_cases child : level = 1
      · rw [decide_eq_true (by omega : (level : Int) = 1), decide_eq_true child]
        exact describes.isMemory member heading
      · rw [decide_eq_false (by omega : ¬ (level : Int) = 1), decide_eq_false child]
        exact Gives.pure _
    exact wanted.bind (next ▸ describes.readRound member some limit _ out)
  leave := by
    intro cur level out _ inside token
    refine tokenRound_end inside token ?_
    have depth : ((level + 1 : Nat) : Int) - (1 : Nat) - 1 = (level : Int) - (1 : Nat) := by omega
    simp only [regState, depth]
    exact Gives.pure _
  leaf := by
    intro cur level p out _ _ property fits
    refine tokenRound_prop (p.inside fits) property.token (property.lenCell.bind ?_)
    simp only [regState, p.align (p.short describes.small fits)]
    exact Gives.pure _
  nop := fun cur level out inside token => tokenRound_nop inside token (Gives.pure _)

theorem reserved_simulates (describes : Describes fdt h doc) (some : 0 < addrCells + sizeCells) (lowest : Nat) :
    Simulates ending fdt.bytes h.blocks h.offset.toNat doc.Has
      (reservedToken fdt h.offset.toNat h.blocks.stop addrCells sizeCells limit) (regState lowest)
      (regVisitor (fun _ _ => true) lowest addrCells sizeCells limit) lowest where
  enter := by
    rintro cur level _ _ out - - heading fits ⟨place, member, rfl, rfl⟩
    have inside := Heading.width_le fits
    have small := describes.small
    obtain ⟨measured, width⟩ := heading.measured (by omega)
    have depth : (level : Int) - lowest + 1 = ((level + 1 : Nat) : Int) - lowest := by omega
    have child : decide (((level + 1 : Nat) : Int) - lowest = 1) = decide (level = lowest) := by
      rw [decide_eq_decide]
      omega
    refine tokenRound_begin (place.node.inside fits) heading.token (measured.bind ?_)
    simp only [regState, heading.nodeOffset, width, depth, child]
    have enters : (regVisitor (fun _ _ => true) lowest addrCells sizeCells limit).enter level
      place.node place.inner out =
        store limit out
          (if decide (level = lowest) = true then regRegions addrCells sizeCells place.inner else []) := by
      simp only [regVisitor, Bool.and_true]
    rw [enters]
    exact describes.readRound member some limit _ out
  leave := by
    intro cur level out deep inside token
    refine tokenRound_end inside token ?_
    have depth : ((level + 1 : Nat) : Int) - lowest - 1 = (level : Int) - lowest := by omega
    rw [if_neg (by simp only [regState]; omega)]
    simp only [regState, depth]
    exact Gives.pure _
  leaf := by
    intro cur level p out _ _ property fits
    refine tokenRound_prop (p.inside fits) property.token (property.lenCell.bind ?_)
    simp only [regState, p.align (p.short describes.small fits)]
    exact Gives.pure _
  nop := fun cur level out inside token => tokenRound_nop inside token (Gives.pure _)

theorem memory_finish (cur : Nat) (out : List FdtMemRegion) (room : cur < h.blocks.stop)
    (token : Holds fdt.bytes cur (tokenWord fdtEnd)) :
    Gives ending (memoryToken fdt h.offset.toNat h.blocks.stop addrCells sizeCells limit (regState 1 cur 0 out))
      (.done (some out)) :=
  tokenRound_other room token (Gives.pure _)

theorem reserved_finish {lowest cur : Nat} (out : List FdtMemRegion) (room : cur < h.blocks.stop)
    (token : Holds fdt.bytes cur (tokenWord fdtEndNode)) :
    Gives ending
      (reservedToken fdt h.offset.toNat h.blocks.stop addrCells sizeCells limit (regState lowest cur lowest out))
      (.done (some out)) := by
  refine tokenRound_end room token ?_
  rw [if_pos (by simp [regState])]
  exact Gives.pure _

theorem toUnsigned_toInt {n : Nat} (small : n < 2 ^ 32) : toUnsigned (toInt n) = n := by
  unfold toUnsigned toInt
  split <;> omega

theorem toInt_valid (valid : ValidCells addrCells sizeCells) :
    toInt addrCells = addrCells ∧ toInt sizeCells = sizeCells := by
  rw [ValidCells] at valid
  exact ⟨toInt_small (by omega), toInt_small (by omega)⟩

theorem Document.root_place (doc : Document) : ⟨[], doc.root, doc.items⟩ ∈ doc.places := List.mem_cons_self

theorem Describes.rootOffset (describes : Describes fdt h doc) :
    Gives ending (fdtPathOffset fdt (some (Text.ofAscii "/"))) doc.root.offset := by
  have root : (Text.ofAscii "/").chars = slash :: [] := by decide
  exact describes.pathOffset root

end Code

variable {start : Nat}

section Queries

variable {fdt : Blob} {h : BlobHeader} {doc : Document}

def Document.addrCells (doc : Document) : Nat := cellCount doc.items (Text.ofAscii "#address-cells") 2
def Document.sizeCells (doc : Document) : Nat := cellCount doc.items (Text.ofAscii "#size-cells") 2

def Document.memory (doc : Document) : List FdtMemRegion :=
  regionsOf isMemory doc.addrCells doc.sizeCells doc.items.children

theorem Document.cells_small (doc : Document) : doc.addrCells < 2 ^ 32 ∧ doc.sizeCells < 2 ^ 32 :=
  ⟨cellCount_lt _ _ (by decide), cellCount_lt _ _ (by decide)⟩

theorem Describes.rootCells (describes : Describes fdt h doc) :
    Gives ending (fdtGetU32 fdt doc.root.offset (Text.ofAscii "#address-cells") 2) (toInt doc.addrCells) ∧
      Gives ending (fdtGetU32 fdt doc.root.offset (Text.ofAscii "#size-cells") 2) (toInt doc.sizeCells) :=
  ⟨describes.cellCount doc.root_place (fun _ => by decide) 2,
    describes.cellCount doc.root_place (fun _ => by decide) 2⟩

theorem Describes.memoryRegions (describes : Describes fdt h doc) (positive : 0 < limit) :
    Gives ending (fdtGetMemoryRegions fdt limit)
      (if ValidCells doc.addrCells doc.sizeCells then bounded limit doc.memory else none) := by
  have cells := badCells_iff doc.cells_small.1 doc.cells_small.2
  unfold fdtGetMemoryRegions
  rw [if_neg (by simp only [describes.accepts.placed.1, false_or]; omega)]
  refine describes.check.bind ?_
  rw [if_neg (not_not.mpr rfl)]
  refine describes.rootOffset.bind ?_
  rw [if_neg (by omega)]
  refine describes.rootCells.1.bind (describes.rootCells.2.bind ?_)
  by_cases valid : ValidCells doc.addrCells doc.sizeCells
  · have some : 0 < doc.addrCells + doc.sizeCells := by
      rw [ValidCells] at valid
      omega
    have walk : Gives ending _ _ :=
      describes.walk (memory_simulates describes some) (@memory_finish ending limit fdt h _ _) []
    rw [visit_root] at walk
    rw [if_pos valid, if_neg fun bad => cells.mp bad valid, (toInt_valid valid).1, (toInt_valid valid).2]
    exact describes.offDtStruct.bind (describes.sizeDtStruct.bind walk)
  · rw [if_neg valid, if_pos (cells.mpr valid)]
    exact Gives.pure _

def Document.reservedMemory (doc : Document) : Option (Forest.Place Heading Property) :=
  doc.lookup [(Text.ofAscii "reserved-memory").chars]

def Document.addrCellsAt (doc : Document) (place : Forest.Place Heading Property) : Nat :=
  cellCount place.inner (Text.ofAscii "#address-cells") doc.addrCells
def Document.sizeCellsAt (doc : Document) (place : Forest.Place Heading Property) : Nat :=
  cellCount place.inner (Text.ofAscii "#size-cells") doc.sizeCells

def Document.reserved (doc : Document) (place : Forest.Place Heading Property) : List FdtMemRegion :=
  regionsOf (fun _ _ => true) (doc.addrCellsAt place) (doc.sizeCellsAt place) place.inner.children

theorem Describes.reservedOffset (describes : Describes fdt h doc) :
    Gives ending (fdtPathOffset fdt (some (Text.ofAscii "/reserved-memory"))) (offsetOf doc.reservedMemory) := by
  have absolute : (Text.ofAscii "/reserved-memory").chars = slash :: (Text.ofAscii "reserved-memory").chars := by decide
  have answers : Gives ending _ _ := describes.pathOffset absolute
  rwa [components_last (by decide) (by decide), List.map_singleton, cut_of_short (by decide)] at answers

theorem Describes.reserved_none (describes : Describes fdt h doc) (positive : 0 < limit)
    (missing : doc.reservedMemory = none) : Gives ending (fdtGetReservedMemoryRegions fdt limit) (some []) := by
  have offset : Gives ending _ _ := describes.reservedOffset
  rw [missing] at offset
  unfold fdtGetReservedMemoryRegions
  rw [if_neg (by simp only [describes.accepts.placed.1, false_or]; omega)]
  refine describes.check.bind ?_
  rw [if_neg (not_not.mpr rfl)]
  refine offset.bind ?_
  rw [if_pos (by decide)]
  exact Gives.pure _

theorem Describes.reservedWalk (describes : Describes fdt h doc) (member : place ∈ doc.places)
    {addrCells sizeCells middle : Nat} (some : 0 < addrCells + sizeCells)
    (at' : NodeAt fdt.bytes h.blocks h.offset.toNat start middle place) (room : middle + 8 ≤ h.blocks.stop) :
    Gives ending (loop (reservedToken fdt h.offset.toNat h.blocks.stop addrCells sizeCells limit)
        { cur := start + place.node.width, depth := 0, out := [] })
      (bounded limit (regionsOf (fun _ _ => true) addrCells sizeCells place.inner.children)) := by
  have within : ∀ other ∈ place.inner.places (place.above ++ [place.node]), doc.Has other.node other.inner :=
    fun other inside => ⟨other, Forest.places_inner member inside, rfl, rfl⟩
  have proceeds :=
    at'.content.proceeds (@reserved_simulates ending limit _ _ _ _ _ describes some (place.above.length + 1))
    (Nat.le_refl _) at'.shallow (by omega) _ within []
  have begins : regState (place.above.length + 1) (start + place.node.width) (place.above.length + 1) [] =
      { cur := start + place.node.width, depth := 0, out := [] } := by simp [regState]
  rw [begins] at proceeds
  have walk := proceeds.gives fun out => reserved_finish out (by omega) at'.token
  rwa [visit_regions] at walk

theorem Describes.reserved_some (describes : Describes fdt h doc) (positive : 0 < limit)
    (found : doc.reservedMemory = some place) :
    Gives ending (fdtGetReservedMemoryRegions fdt limit)
      (if ValidCells (doc.addrCellsAt place) (doc.sizeCellsAt place) then bounded limit
        (doc.reserved place) else none) := by
  have member : place ∈ doc.places := by
    rw [Document.reservedMemory, Document.lookup] at found
    exact List.mem_of_find?_eq_some found
  obtain ⟨start, middle, at', low, -, room⟩ := describes.place member
  have offset : Gives ending _ _ := describes.reservedOffset
  rw [found] at offset
  have addr : Gives ending (fdtGetU32 fdt place.node.offset (Text.ofAscii "#address-cells") doc.addrCells)
      (toInt (doc.addrCellsAt place)) := describes.cellCount member (fun _ => by decide) doc.addrCells
  have size : Gives ending (fdtGetU32 fdt place.node.offset (Text.ofAscii "#size-cells") doc.sizeCells)
      (toInt (doc.sizeCellsAt place)) := describes.cellCount member (fun _ => by decide) doc.sizeCells
  have cells := @badCells_iff (doc.addrCellsAt place) (doc.sizeCellsAt place) (cellCount_lt _ _ doc.cells_small.1)
    (cellCount_lt _ _ doc.cells_small.2)
  have begins := at'.heading.offset
  have behind := at'.content.le
  have stop : h.blocks.stop = h.offset.toNat + h.size.toNat := rfl
  obtain ⟨measured, width⟩ := at'.heading.measured (describes.name_short member)
  unfold fdtGetReservedMemoryRegions
  rw [if_neg (by simp only [describes.accepts.placed.1, false_or]; omega)]
  refine describes.check.bind ?_
  rw [if_neg (not_not.mpr rfl)]
  refine offset.bind ?_
  rw [if_neg (by simp only [offsetOf]; omega)]
  refine describes.rootOffset.bind ?_
  rw [if_neg (by omega)]
  refine describes.rootCells.1.bind ?_
  rw [toUnsigned_toInt doc.cells_small.1]
  refine addr.bind (describes.rootCells.2.bind ?_)
  rw [toUnsigned_toInt doc.cells_small.2]
  refine size.bind ?_
  by_cases valid : ValidCells (doc.addrCellsAt place) (doc.sizeCellsAt place)
  · have some : 0 < doc.addrCellsAt place + doc.sizeCellsAt place := by
      rw [ValidCells] at valid
      omega
    rw [if_pos valid, if_neg fun bad => cells.mp bad valid, (toInt_valid valid).1, (toInt_valid valid).2]
    refine describes.offDtStruct.bind (describes.sizeDtStruct.bind ?_)
    have cursor : h.offset.toNat + (offsetOf (Option.some place)).toNat = start := begins.symm
    simp only [cursor]
    rw [if_neg (by omega)]
    refine (token_gives (by decide) at'.heading.token).bind ?_
    rw [if_neg (not_not.mpr rfl)]
    refine measured.bind ?_
    rw [width]
    exact describes.reservedWalk member some at' room
  · rw [if_neg valid, if_pos (cells.mpr valid)]
    exact Gives.pure _

end Queries

def reserveEntries (bytes : List UInt8) (total cur : Nat) : List FdtMemRegion :=
  (List.range ((total - cur) / 16)).map fun t => regTuple 2 2 (bytes.drop (cur + 16 * t))

def endsMap (r : FdtMemRegion) : Bool := r.base = 0 ∧ r.size = 0

def reservations (entries : List FdtMemRegion) : List FdtMemRegion :=
  (entries.takeWhile fun r => !endsMap r).filter nonzero

def mapAnswer (limit : Nat) (out entries : List FdtMemRegion) : Option (List FdtMemRegion) :=
  if entries.any endsMap then bounded limit (out ++ reservations entries) else none

section ReserveMap

variable {bytes : List UInt8} {total cur : Nat} {r : FdtMemRegion} {out entries : List FdtMemRegion}

theorem reserveEntries_done (few : total < cur + 16) : reserveEntries bytes total cur = [] := by
  have none : (total - cur) / 16 = 0 := by omega
  rw [reserveEntries, none]
  rfl

theorem reserveEntries_next (room : cur + 16 ≤ total) :
    reserveEntries bytes total cur = regTuple 2 2 (bytes.drop cur) :: reserveEntries bytes total (cur + 16) := by
  have one : (total - cur) / 16 = (total - (cur + 16)) / 16 + 1 := by omega
  have shifted : ∀ t, cur + 16 * (t + 1) = cur + 16 + 16 * t := fun t => by omega
  rw [reserveEntries, one, List.range_succ_eq_map, List.map_cons, List.map_map]
  simp only [Function.comp_def, shifted]
  rfl

theorem mapAnswer_ends (ends : endsMap r = true) (fits : out.length ≤ limit) :
    mapAnswer limit out (r :: entries) = some out := by
  simp [mapAnswer, reservations, ends, bounded, fits]

theorem mapAnswer_skip (ends : endsMap r = false) (empty : nonzero r = false) :
    mapAnswer limit out (r :: entries) = mapAnswer limit out entries := by
  simp [mapAnswer, reservations, ends, empty]

theorem mapAnswer_keep (ends : endsMap r = false) (some : nonzero r = true) :
    mapAnswer limit out (r :: entries) = mapAnswer limit (out ++ [r]) entries := by
  simp [mapAnswer, reservations, ends, some]

theorem mapAnswer_full (ends : endsMap r = false) (some : nonzero r = true) (full : limit ≤ out.length) :
    mapAnswer limit out (r :: entries) = none := by
  have long : ¬ (out ++ [r] ++ reservations entries).length ≤ limit := by
    rw [List.length_append, List.length_append, List.length_singleton]
    omega
  rw [mapAnswer_keep ends some, mapAnswer, bounded, if_neg long, ite_self]

theorem cells_join (room : start + 8 ≤ bytes.length) :
    (UInt64.ofNat (number ((bytes.drop start).take 4)) <<< 32) |||
        UInt64.ofNat (number ((bytes.drop (start + 4)).take 4)) =
      UInt64.ofNat (number ((bytes.drop start).take 8)) := by
  have low : ((bytes.drop (start + 4)).take 4).length = 4 := by
    rw [List.length_take, List.length_drop]
    omega
  have word : 256 ^ 4 = 2 ^ 32 := by norm_num
  have parts : (bytes.drop start).take 8 = (bytes.drop start).take 4 ++ (bytes.drop (start + 4)).take 4 := by
    rw [show 8 = 4 + 4 from rfl, List.take_add, List.drop_drop]
  rw [shift_or_cell _ (number_cell_lt low), parts, number_append, low, word]

theorem cell_spelled (room : start + 4 ≤ bytes.length) :
    CellIs bytes start (number ((bytes.drop start).take 4)) := by
  have holds : Holds bytes (0 + start) ((bytes.drop start).take 4) := (Holds.whole bytes).part room
  rw [Nat.zero_add] at holds
  apply cell_number holds
  rw [List.length_take, List.length_drop]
  omega

end ReserveMap

section Queries

variable {fdt : Blob} {h : BlobHeader} {doc : Document}

def BlobHeader.reserveMap (h : BlobHeader) (bytes : List UInt8) : List FdtMemRegion :=
  reserveEntries bytes h.total.toNat h.reserveOffset.toNat

theorem Describes.memreserve (describes : Describes fdt h doc) (positive : 0 < limit) :
    Gives ending (fdtGetMemreserveRegions fdt limit) (mapAnswer limit [] (h.reserveMap fdt.bytes)) := by
  have whole := describes.whole
  have begins : Gives ending fdt.offMemRsvmap h.reserveOffset.toNat :=
    (cellIs_of_holds describes.formed.reserveOffset).runs
  have ends : Gives ending fdt.totalsize h.total.toNat := (cellIs_of_holds describes.formed.total).runs
  unfold fdtGetMemreserveRegions
  rw [if_neg (by omega)]
  refine describes.check.bind ?_
  rw [if_neg (not_not.mpr rfl)]
  refine begins.bind (ends.bind ?_)
  -- what is still to be answered does not change from round to round
  refine Runs.loop (fun s => mapAnswer limit s.2 (reserveEntries fdt.bytes h.total.toNat s.1) =
      mapAnswer limit [] (h.reserveMap fdt.bytes) ∧ s.2.length ≤ limit)
    (fun s => h.total.toNat - s.1) ?_ ⟨rfl, Nat.zero_le _⟩
  rintro ⟨cur, out⟩ ⟨same, fits⟩
  dsimp only at same fits ⊢
  rw [← same]
  split
  next room =>
    refine (cell_spelled (by omega)).runs.bind ((cell_spelled (by omega)).runs.bind ?_)
    refine (cell_spelled (by omega)).runs.bind ((cell_spelled (by omega)).runs.bind ?_)
    have entry : regTuple 2 2 (fdt.bytes.drop cur) =
        { base := UInt64.ofNat (number ((fdt.bytes.drop cur).take 8)),
          size := UInt64.ofNat (number ((fdt.bytes.drop (cur + 8)).take 8)) } := by
      rw [regTuple, List.drop_drop]
    rw [reserveEntries_next room, cells_join (by omega), cells_join (by omega), entry]
    split
    next ending =>
      rw [mapAnswer_ends (by simpa [endsMap] using ending) fits]
      exact Runs.pure rfl
    next others =>
    have goesOn : ∀ r : FdtMemRegion, ¬(r.base = 0 ∧ r.size = 0) → endsMap r = false := fun r other => by
      simpa [endsMap] using other
    split
    next some =>
      split
      next full =>
        rw [mapAnswer_full (goesOn _ others) (by simpa [nonzero] using some) (by omega)]
        exact Runs.pure rfl
      next room' =>
        rw [mapAnswer_keep (goesOn _ others) (by simpa [nonzero] using some)]
        refine Runs.pure ⟨⟨rfl, ?_⟩, fun _ => by dsimp only; omega⟩
        dsimp only
        rw [List.length_append, List.length_singleton]
        omega
    next empty =>
      rw [mapAnswer_skip (goesOn _ others) (by simpa [nonzero] using empty)]
      exact Runs.pure ⟨⟨rfl, fits⟩, fun _ => by dsimp only; omega⟩
  next few =>
    rw [reserveEntries_done (by omega)]
    exact Runs.pure rfl

end Queries

theorem fdtRegions_complete (fdt : Blob) (accepts : Accepts fdt) (whole : fdt.declared ≤ fdt.bytes.length) :
    (∃ h doc, Describes fdt h doc) ∧ ∀ h doc, Describes fdt h doc → ∀ limit : Nat, 0 < limit →
      Answers (fdtGetMemoryRegions fdt limit)
        (if ValidCells doc.addrCells doc.sizeCells then bounded limit doc.memory else none) ∧
      (doc.reservedMemory = none → Answers (fdtGetReservedMemoryRegions fdt limit) (some [])) ∧
      (∀ place, doc.reservedMemory = some place → Answers (fdtGetReservedMemoryRegions fdt limit)
        (if ValidCells (doc.addrCellsAt place) (doc.sizeCellsAt place) then bounded limit (doc.reserved place)
          else none)) ∧
      Answers (fdtGetMemreserveRegions fdt limit)
        (if (h.reserveMap fdt.bytes).any endsMap then bounded limit (reservations (h.reserveMap fdt.bytes))
          else none) :=
  ⟨accepts.describes whole, fun _ _ describes _ positive =>
    ⟨(describes.memoryRegions positive).answer, fun missing => (describes.reserved_none positive missing).answer,
      fun _ found => (describes.reserved_some positive found).answer, (describes.memreserve positive).answer⟩⟩

theorem fdtRegions_complete_memory : ∃ h doc, Describes memoryBlob h doc ∧
    (if ValidCells doc.addrCells doc.sizeCells then bounded 1 doc.memory else none) =
      some [⟨0x100000000, 0x40000000⟩] := by
  obtain ⟨⟨h, doc, describes⟩, all⟩ := fdtRegions_complete memoryBlob memoryBlob_accepted memoryBlob_whole
  have computed : fdtGetMemoryRegions memoryBlob 1 300 = .ok (some [⟨0x100000000, 0x40000000⟩]) := by rfl
  have gives : Gives True (fdtGetMemoryRegions memoryBlob 1) _ := describes.memoryRegions (by decide : 0 < 1)
  obtain ⟨bound, answered⟩ := (all h doc describes 1 (by decide)).1
  exact ⟨h, doc, describes, gives.unique (answered bound (Nat.le_refl _)) computed⟩

end OrangeKernel.Fdt
