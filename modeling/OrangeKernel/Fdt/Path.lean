import OrangeKernel.Fdt.Strings

set_option autoImplicit false

namespace OrangeKernel.Fdt

open ByteScan

def chain (place : Forest.Place Heading Property) : List (List UInt8) :=
  (place.above ++ [place.node]).tail.map fun x => x.name.chars

def Document.lookup (doc : Document) (names : List (List UInt8)) : Option (Forest.Place Heading Property) :=
  doc.places.find? fun place => chain place = names

def offsetOf : Option (Forest.Place Heading Property) → Int
  | some place => place.node.offset
  | none => -1

section Matched

variable {α : Type} [DecidableEq α]

def matched : List α → List α → Nat
  | a :: as, b :: bs => if a = b then matched as bs + 1 else 0
  | _, _ => 0

theorem matched_of_begins {xs ys : List α} (begins : xs <+: ys) : matched xs ys = xs.length := by
  obtain ⟨rest, rfl⟩ := begins
  induction xs with
  | nil => cases rest <;> rfl
  | cons a as ih => simp [matched, ih]

theorem matched_le (xs ys : List α) : matched xs ys ≤ xs.length := by
  induction xs generalizing ys with
  | nil => cases ys <;> exact Nat.le_refl _
  | cons a as ih =>
    cases ys with
    | nil => exact Nat.zero_le _
    | cons b bs =>
      have shorter := ih bs
      rw [matched, List.length_cons]
      split <;> omega

theorem matched_snoc (xs ys : List α) (x : α) :
    matched (xs ++ [x]) ys = if xs ++ [x] <+: ys then xs.length + 1 else matched xs ys := by
  induction xs generalizing ys with
  | nil =>
    cases ys with
    | nil => simp [matched]
    | cons b bs => by_cases same : x = b <;> simp [matched, same, List.cons_prefix_cons]
  | cons a as ih =>
    cases ys with
    | nil => simp [matched]
    | cons b bs =>
      by_cases same : a = b
      · simp only [List.cons_append, matched, same, ih bs, List.prefix_cons_inj, List.length_cons, if_true]
        split <;> rfl
      · simp [matched, same, List.cons_prefix_cons]

theorem matched_lt {xs ys : List α} (differ : ¬ xs <+: ys) : matched xs ys < xs.length := by
  induction xs generalizing ys with
  | nil => exact absurd List.nil_prefix differ
  | cons a as ih =>
    cases ys with
    | nil => exact Nat.succ_pos _
    | cons b bs =>
      rw [matched, List.length_cons]
      split
      next same =>
        subst same
        have shorter := ih fun begins => differ ((List.prefix_cons_inj a).mpr begins)
        omega
      · exact Nat.succ_pos _

end Matched

def pathVisitor (comps : List (List UInt8)) : Forest.Visitor Heading Property Int Int where
  enter level x _ matchDepth :=
    if level = 0 then if comps = [] then .error x.offset else .ok 0
    else if matchDepth = (level : Int) - 1 ∧ level ≤ comps.length ∧ comps[level - 1]? = some x.name.chars then
      if level = comps.length then .error x.offset else .ok level
    else .ok matchDepth
  leave level matchDepth := .ok (if matchDepth = level then (level : Int) - 1 else matchDepth)
  leaf _ _ matchDepth := .ok matchDepth

section Visit

variable {comps names : List (List UInt8)}

theorem snoc_prefix_iff (begins : names <+: comps) (name : List UInt8) :
    names ++ [name] <+: comps ↔ comps[names.length]? = some name := by
  obtain ⟨rest, rfl⟩ := begins
  rw [List.prefix_append_right_inj, List.getElem?_append_right (Nat.le_refl _), Nat.sub_self]
  cases rest with
  | nil => simp
  | cons b bs => simp [List.cons_prefix_cons, eq_comm]

theorem enter_matched (passed : ¬ comps <+: names) (x : Heading) (inner : Items) :
    (pathVisitor comps).enter (names.length + 1) x inner (matched names comps) =
      if names ++ [x.name.chars] = comps then .error (x.offset : Int)
      else .ok (matched (names ++ [x.name.chars]) comps : Int) := by
  rw [matched_snoc]
  simp only [pathVisitor, Nat.add_sub_cancel, if_neg (Nat.succ_ne_zero _)]
  by_cases begins : names <+: comps
  · have longer : names.length < comps.length := by
      rcases Nat.lt_or_eq_of_le begins.length_le with less | same
      · exact less
      · exact absurd (begins.eq_of_length same ▸ List.prefix_refl _) passed
    by_cases next : names ++ [x.name.chars] <+: comps
    · rw [if_pos ⟨by rw [matched_of_begins begins]; omega, longer, (snoc_prefix_iff begins _).mp next⟩]
      by_cases whole : names ++ [x.name.chars] = comps
      · rw [if_pos whole, if_pos (by rw [← whole]; simp)]
      · have more : names.length + 1 ≠ comps.length := fun same => whole (next.eq_of_length (by simpa using same))
        rw [if_neg whole, if_neg more, if_pos next]
    · have notWhole : names ++ [x.name.chars] ≠ comps := fun same => next (same ▸ List.prefix_refl _)
      rw [if_neg fun all => next ((snoc_prefix_iff begins _).mpr all.2.2), if_neg notWhole, if_neg next]
  · have less := matched_lt begins
    have notNext : ¬ names ++ [x.name.chars] <+: comps := fun next => begins ((List.prefix_append _ _).trans next)
    have notWhole : names ++ [x.name.chars] ≠ comps := fun same => notNext (same ▸ List.prefix_refl _)
    rw [if_neg (by omega), if_neg notWhole, if_neg notNext]

theorem leave_matched (comps names : List (List UInt8)) (name : List UInt8) :
    (pathVisitor comps).leave (names.length + 1)
      (matched (names ++ [name]) comps) = .ok (matched names comps : Int) := by
  have bound := matched_le names comps
  rw [matched_snoc]
  simp only [pathVisitor]
  by_cases next : names ++ [name] <+: comps
  · rw [if_pos next, if_pos rfl, matched_of_begins ((List.prefix_append _ _).trans next)]
    simp
  · rw [if_neg next, if_neg (by omega)]

theorem passed_snoc {name : List UInt8} (passed : ¬ comps <+: names) (other : names ++ [name] ≠ comps) :
    ¬ comps <+: names ++ [name] := by
  intro begins
  rcases List.prefix_concat_iff.mp begins with same | earlier
  · exact other same.symm
  · exact passed earlier

def stopsAt (matchDepth : Int) : Option (Forest.Place Heading Property) → Except Int Int
  | some place => .error place.node.offset
  | none => .ok matchDepth

theorem visit_below (f : Items) {above : List Heading} {root : Heading}
    (passed : ¬ comps <+: above.map fun x => x.name.chars) :
    f.visit (pathVisitor comps) (above.length + 1) (matched (above.map fun x => x.name.chars) comps) =
      stopsAt (matched (above.map fun x => x.name.chars) comps)
        ((f.places (root :: above)).find? fun place => chain place = comps) := by
  induction f generalizing above with
  | nil => rfl
  | leaf p rest ih => exact ih passed
  | node x inner rest innerIh restIh =>
    have enters := enter_matched passed x inner
    have leaves := leave_matched comps (above.map fun x => x.name.chars) x.name.chars
    rw [List.length_map] at enters leaves
    have names : chain ⟨root :: above, x, inner⟩ = (above.map fun x => x.name.chars) ++
      [x.name.chars] := by simp [chain]
    rw [Forest.places, List.find?_cons, names]
    by_cases here : (above.map fun x => x.name.chars) ++ [x.name.chars] = comps
    · rw [if_pos here] at enters
      rw [Forest.visit_node_entered enters, decide_eq_true here]
      rfl
    · rw [if_neg here] at enters
      have more : (above ++ [x]).map (fun x => x.name.chars) = above.map (fun x => x.name.chars) ++
        [x.name.chars] := by simp
      have deeper := @innerIh (above ++ [x]) (by rw [more]; exact passed_snoc passed here)
      rw [more, List.length_append, List.length_singleton] at deeper
      rw [decide_eq_false here, List.find?_append, List.cons_append]
      dsimp only
      cases found : (inner.places (root :: (above ++ [x]))).find? fun place => chain place = comps with
      | some place =>
        rw [found] at deeper
        rw [Forest.visit_node_inside enters deeper]
        rfl
      | none =>
        rw [found] at deeper
        rw [Forest.visit_node enters deeper leaves, Option.none_or]
        exact restIh passed

theorem visit_document (doc : Document) :
    doc.forest.visit (pathVisitor comps) 0 (-1) = stopsAt (-1) (doc.lookup comps) := by
  have root : chain ⟨[], doc.root, doc.items⟩ = [] := rfl
  rw [Document.lookup, Document.places, Document.forest, Forest.places, List.find?_cons, root]
  by_cases empty : comps = []
  · subst empty
    exact Forest.visit_node_entered rfl
  · have enters : (pathVisitor comps).enter 0 doc.root doc.items (-1) = .ok 0 := by simp [pathVisitor, empty]
    have start : matched ([] : List (List UInt8)) comps = 0 := by cases comps <;> rfl
    have below := @visit_below comps doc.items [] doc.root (by simpa using empty)
    rw [List.map_nil, start, List.length_nil, Nat.zero_add] at below
    rw [decide_eq_false (Ne.symm empty), Forest.places, List.append_nil, List.nil_append]
    dsimp only
    cases found : (doc.items.places [doc.root]).find? fun place => chain place = comps with
    | some place =>
      rw [found] at below
      exact Forest.visit_node_inside enters below
    | none =>
      rw [found] at below
      exact Forest.visit_node enters below rfl

end Visit

section Code

variable {ending : Prop} {fdt : Blob} {h : BlobHeader} {doc : Document}

def cut (c : List UInt8) : List UInt8 := c.take (c.length % 2 ^ 32)

theorem cut_of_short {c : List UInt8} (short : c.length < 2 ^ 32) : cut c = c := by
  rw [cut, Nat.mod_eq_of_lt short, List.take_length]

theorem Locates.tells {path : List UInt8} {comp : PathComp} {c : List UInt8} (located : Locates path comp c)
    {x : Heading}
    {cur base : Nat} (heading : BeginAt fdt.bytes base cur x) :
    Gives ending (nameEq fdt.bytes (cur + 4) path comp.start comp.len) (decide (x.name.chars = cut c)) := by
  have length : (cut c).length = comp.len := by
    rw [cut, List.length_take, located.len]
    exact Nat.min_eq_left (Nat.mod_le _ _)
  have start : Holds path comp.start (cut c ++ c.drop (c.length % 2 ^ 32)) := by
    rw [cut, List.take_append_drop]
    exact located.start
  have noNul : 0 ∉ cut c := fun nul => located.noNul (List.mem_of_mem_take nul)
  rw [← length]
  exact (x.name.nameEq_tells noNul heading.name start.left).decides

theorem Locates.at {path : List UInt8} {located : List PathComp} {comps : List (List UInt8)}
    (found : List.Forall₂ (Locates path) located comps) {i : Nat} (inside : i < comps.length) :
    ∃ comp c, located[i]? = some comp ∧ comps[i]? = some c ∧ Locates path comp c := by
  have length := found.length_eq
  exact ⟨located[i], comps[i], List.getElem?_eq_getElem _, List.getElem?_eq_getElem _, found.get (by omega) inside⟩

def pathState (cur level : Nat) (matchDepth : Int) : PathState :=
  { cur := cur, depth := (level : Int) - 1, matchDepth := matchDepth }

variable {path : List UInt8} {located : List PathComp} {comps : List (List UInt8)}

theorem pathBegin_gives (small : h.blocks.stop < 2 ^ 31) (found : List.Forall₂ (Locates path) located comps)
    {cur level : Nat} {x : Heading} (inner : Items) {matchDepth : Int}
    (heading : BeginAt fdt.bytes h.offset.toNat cur x) (fits : cur + x.width ≤ h.blocks.stop) :
    Gives ending (pathBegin fdt.bytes h.offset.toNat path located (pathState (cur + 4) level matchDepth))
      (Round.of (pathState (cur + x.width) (level + 1))
        ((pathVisitor (comps.map cut)).enter level x inner matchDepth)) := by
  have short := Heading.width_le fits
  obtain ⟨measured, width⟩ := heading.measured (by omega)
  have length := found.length_eq
  have depth : (level : Int) - 1 + 1 = level := by omega
  have next : ((level + 1 : Nat) : Int) - 1 = level := by omega
  unfold pathBegin
  refine measured.bind ?_
  simp only [pathState, heading.nodeOffset, width, depth]
  by_cases top : level = 0
  · subst top
    rw [if_pos Int.natCast_zero]
    by_cases empty : comps = []
    · subst empty
      rw [if_pos (by exact length)]
      exact Gives.pure _
    · have enters : (pathVisitor (comps.map cut)).enter 0 x inner matchDepth = .ok 0 := by simp [pathVisitor, empty]
      rw [if_neg (by rw [length]; simpa using empty), enters]
      exact Gives.pure _
  rw [if_neg (by omega)]
  by_cases due : matchDepth = (level : Int) - 1 ∧ level ≤ comps.length
  · obtain ⟨comp, c, entry, component, at'⟩ := Locates.at found (by omega : level - 1 < comps.length)
    have index : (level : Int) - 1 = ((level - 1 : Nat) : Int) := by omega
    have want : (comps.map cut)[level - 1]? = some (cut c) := by rw [List.getElem?_map, component]; rfl
    rw [if_pos ⟨due.1, by omega⟩, index]
    refine (Gives.entryAt entry).bind ((at'.tells heading).bind ?_)
    by_cases same : x.name.chars = cut c
    · have enters : (pathVisitor (comps.map cut)).enter level x inner matchDepth =
          if level = comps.length then .error (x.offset : Int) else .ok (level : Int) := by
        simp only [pathVisitor, List.length_map, if_neg top]
        rw [if_pos ⟨due.1, due.2, by rw [want, same]⟩]
      rw [enters, if_pos (decide_eq_true same)]
      by_cases last : level = comps.length
      · rw [if_pos last, if_pos (by omega)]
        exact Gives.pure _
      · rw [if_neg last, if_neg (by omega)]
        exact next ▸ Gives.pure _
    · have enters : (pathVisitor (comps.map cut)).enter level x inner matchDepth = .ok matchDepth := by
        simp only [pathVisitor, if_neg top]
        rw [if_neg fun all => same (Option.some.inj (want.symm.trans all.2.2)).symm]
      rw [enters, if_neg (by simp [same])]
      exact next ▸ Gives.pure _
  · have enters : (pathVisitor (comps.map cut)).enter level x inner matchDepth = .ok matchDepth := by
      simp only [pathVisitor, List.length_map, if_neg top]
      rw [if_neg fun all => due ⟨all.1, all.2.1⟩]
    rw [enters, if_neg (by omega)]
    exact next ▸ Gives.pure _

theorem path_simulates (describes : Describes fdt h doc) (found : List.Forall₂ (Locates path) located comps) :
    Simulates ending fdt.bytes h.blocks h.offset.toNat doc.Has
      (pathToken fdt.bytes h.offset.toNat h.blocks.stop path located) pathState (pathVisitor (comps.map cut)) 0 where
  enter := by
    intro cur level x inner a _ _ heading fits _
    exact tokenRound_begin (x.inside fits) heading.token (pathBegin_gives describes.small found inner heading fits)
  leave := by
    intro cur level a _ inside token
    refine tokenRound_end inside token ?_
    have depth : ((level + 1 : Nat) : Int) - 1 = level := by omega
    simp only [pathState, depth]
    exact Gives.pure _
  leaf := by
    intro cur level p a _ _ property fits
    refine tokenRound_prop (p.inside fits) property.token (property.lenCell.bind ?_)
    simp only [pathState, p.align (p.short describes.small fits)]
    exact Gives.pure _
  nop := fun cur level a inside token => tokenRound_nop inside token (Gives.pure _)

theorem path_finish (cur : Nat) (matchDepth : Int)
    (room : cur < h.blocks.stop) (token : Holds fdt.bytes cur (tokenWord fdtEnd)) :
    Gives ending (pathToken fdt.bytes h.offset.toNat h.blocks.stop path located (pathState cur 0 matchDepth))
      (.done (-1)) :=
  tokenRound_other room token (Gives.pure _)

theorem Describes.lookup_deep (describes : Describes fdt h doc) {names : List (List UInt8)}
    (deep : fdtMaxDepth < names.length) : doc.lookup names = none := by
  refine List.find?_eq_none.mpr fun place member same => ?_
  obtain ⟨start, middle, at', -⟩ := describes.place member
  have length := congrArg List.length (of_decide_eq_true same)
  simp only [chain, List.length_map, List.length_tail, List.length_append, List.length_singleton] at length
  have shallow := at'.shallow
  omega

theorem Describes.pathOffset (describes : Describes fdt h doc) {path : Text} {rest : List UInt8}
    (absolute : path.chars = slash :: rest) :
    Gives ending (fdtPathOffset fdt (some path)) (offsetOf (doc.lookup ((components rest).map cut))) := by
  have placed := Accepts.placed describes.accepts
  have whole : Holds path.bytes 0 (slash :: (rest ++ [0])) := by
    have shape : path.bytes = slash :: (rest ++ [0]) := by rw [Text.bytes, absolute, List.cons_append]
    rw [← shape]
    exact Holds.whole _
  have noNul : 0 ∉ rest := fun nul => path.noNul (by rw [absolute]; exact List.mem_cons_of_mem _ nul)
  unfold fdtPathOffset
  dsimp only
  rw [if_neg placed.1]
  refine whole.reads.bind ?_
  rw [if_neg (not_not.mpr rfl)]
  refine (pathComps_finds whole.tail noNul).bind fun found split => ?_
  rcases split with ⟨rfl, many⟩ | ⟨located, rfl, found⟩
  · rw [describes.lookup_deep (by rwa [List.length_map])]
    exact Gives.pure _
  · refine describes.check.bind ?_
    rw [if_neg (not_not.mpr rfl)]
    refine describes.offDtStruct.bind (describes.sizeDtStruct.bind ?_)
    have walk : Gives ending _ _ := describes.walk (path_simulates describes found) path_finish (-1)
    rw [visit_document] at walk
    cases looked : doc.lookup ((components rest).map cut) with
    | none =>
      rw [looked] at walk
      exact walk
    | some place =>
      rw [looked] at walk
      exact walk

end Code

theorem fdtPathOffset_lookup (fdt : Blob) (accepts : Accepts fdt) (whole : fdt.declared ≤ fdt.bytes.length) :
    (∃ h doc, Describes fdt h doc) ∧ ∀ h doc, Describes fdt h doc →
      (∀ (path : Text) (rest : List UInt8), path.chars = slash :: rest →
        (∀ c ∈ components rest, c.length < 2 ^ 32) →
        Answers (fdtPathOffset fdt (some path)) (offsetOf (doc.lookup (components rest)))) ∧
      Answers (fdtPathOffset fdt (some (Text.ofAscii "/"))) doc.root.offset := by
  refine ⟨accepts.describes whole, fun h doc describes => ⟨fun path rest absolute short => ?_, ?_⟩⟩
  · have gives : Gives True _ _ := describes.pathOffset absolute
    have uncut : (components rest).map cut = components rest :=
      (List.map_congr_left fun c member => cut_of_short (short c member)).trans (List.map_id _)
    rw [uncut] at gives
    exact gives.answer
  · have root : (Text.ofAscii "/").chars = slash :: [] := by decide
    exact (describes.pathOffset root).answer

def treeBlob : Blob where
  addr := 0x40000000
  bytes := [0xd0, 0x0d, 0xfe, 0xed, 0, 0, 0, 111, 0, 0, 0, 56, 0, 0, 0, 100, 0, 0, 0, 40, 0, 0, 0, 17, 0, 0, 0, 16,
      0, 0, 0, 0, 0, 0, 0, 11, 0, 0, 0, 44] ++ List.replicate 16 0 ++
    [0, 0, 0, 1, 0, 0, 0, 0] ++ [0, 0, 0, 3, 0, 0, 0, 2, 0, 0, 0, 0, 120, 0, 0, 0] ++
    [0, 0, 0, 1, 97, 0, 0, 0, 0, 0, 0, 2] ++ [0, 0, 0, 2, 0, 0, 0, 9] ++ (Text.ofAscii "compatible").bytes

theorem treeBlob_accepted : Accepts treeBlob := ⟨200, by decide +kernel⟩

theorem treeBlob_whole : treeBlob.declared ≤ treeBlob.bytes.length := by decide +kernel

theorem fdtPathOffset_lookup_tree : ∃ h doc, Describes treeBlob h doc ∧
    Answers (fdtPathOffset treeBlob (some (Text.ofAscii "/a/"))) (offsetOf (doc.lookup [[97]])) := by
  obtain ⟨⟨h, doc, describes⟩, all⟩ := fdtPathOffset_lookup treeBlob treeBlob_accepted treeBlob_whole
  have split : components [97, 47] = [[97]] := by decide
  have answers := (all h doc describes).1 (Text.ofAscii "/a/") [97, 47] (by decide) (fun c member => by
    rw [split] at member
    rw [List.mem_singleton.mp member]
    decide)
  rw [split] at answers
  exact ⟨h, doc, describes, answers⟩

def slashed (n : Nat) : Text where
  chars := slash :: List.replicate n 97
  noNul := by
    intro member
    rcases List.mem_cons.mp member with nul | member
    · exact absurd nul (by decide)
    · exact absurd (List.eq_of_mem_replicate member) (by decide)

theorem components_replicate {n : Nat} (some : n ≠ 0) :
    components (List.replicate n 97) = [List.replicate n 97] := by
  refine components_last (fun member => absurd (List.eq_of_mem_replicate member) (by decide)) ?_
  simpa using some

theorem cut_replicate {n : Nat} (wraps : n % 2 ^ 32 = 1) : cut (List.replicate n (97 : UInt8)) = [97] := by
  have some : 1 ≤ n := by omega
  rw [cut, List.length_replicate, wraps, List.take_replicate, Nat.min_eq_left some]
  rfl

theorem Describes.lookup_long {fdt : Blob} {h : BlobHeader} {doc : Document} (describes : Describes fdt h doc)
    {name : List UInt8} (long : 2 ^ 31 ≤ name.length) : doc.lookup [name] = none := by
  refine List.find?_eq_none.mpr fun place member same => ?_
  have short := describes.name_short member
  have names : chain place = [name] := of_decide_eq_true same
  cases outer : place.above with
  | nil => simp [chain, outer] at names
  | cons root above =>
    rw [chain, outer, List.cons_append, List.tail_cons, List.map_append] at names
    have last := List.append_inj_right' (names.trans (List.nil_append _).symm) rfl
    have same : place.node.name.chars = name := (List.cons.inj last).1
    rw [same] at short
    omega

theorem slashed_wraps {h : BlobHeader} {doc : Document} (describes : Describes treeBlob h doc) {n : Nat}
    (wraps : n % 2 ^ 32 = 1) : Answers (fdtPathOffset treeBlob (some (slashed n))) 24 := by
  have long := @Describes.pathOffset True _ _ _ describes (slashed n) (List.replicate n 97) rfl
  rw [components_replicate (by omega), List.map_singleton, cut_replicate wraps] at long
  have short := @Describes.pathOffset True _ _ _ describes (Text.ofAscii "/a") [97] (by decide)
  rw [components_last (by decide) (by decide), List.map_singleton, cut_of_short (by decide)] at short
  have computed : fdtPathOffset treeBlob (some (Text.ofAscii "/a")) 200 = .ok 24 := by decide +kernel
  rw [short.post _ _ computed] at long
  exact long.answer

theorem fdtPathOffset_wraps : Accepts treeBlob ∧ treeBlob.declared ≤ treeBlob.bytes.length ∧
    ∃ h doc, Describes treeBlob h doc ∧ (components (List.replicate (2 ^ 32 + 1) 97)).length ≤ fdtMaxDepth ∧
      doc.lookup (components (List.replicate (2 ^ 32 + 1) 97)) = none ∧
      Answers (fdtPathOffset treeBlob (some (slashed (2 ^ 32 + 1)))) 24 ∧
      ¬ Answers (fdtPathOffset treeBlob (some (slashed (2 ^ 32 + 1)))) (-1) := by
  obtain ⟨h, doc, describes⟩ := treeBlob_accepted.describes treeBlob_whole
  have answers := slashed_wraps describes (by decide : (2 ^ 32 + 1) % 2 ^ 32 = 1)
  have parts := @components_replicate (2 ^ 32 + 1) (Nat.succ_ne_zero _)
  refine ⟨treeBlob_accepted, treeBlob_whole, h, doc, describes, ?_, ?_, answers, fun other => ?_⟩
  · rw [parts, List.length_singleton]
    decide
  · rw [parts]
    exact describes.lookup_long (by rw [List.length_replicate]; decide)
  · exact absurd (answers.unique other) (by decide)

end OrangeKernel.Fdt
