import OrangeKernel.Fdt.Blob
import OrangeKernel.Shared.Answers
import OrangeKernel.Shared.BigEndian

set_option autoImplicit false

namespace OrangeKernel.Fdt

open ByteScan BigEndian Machine

def tokenWord (token : Nat) : List UInt8 := be32 (UInt32.ofNat token)

def PaddedName (w : List UInt8) : Prop :=
  ∃ chars pad : List UInt8, 0 ∉ chars ∧ pad.length = padding (chars.length + 1) ∧ w = chars ++ 0 :: pad

def StringIn (strings : List UInt8) (offset : Nat) : Prop :=
  ∃ before chars after : List UInt8, 0 ∉ chars ∧ before.length = offset ∧
    strings = before ++ chars ++ 0 :: after

def PropertyBody (strings w : List UInt8) : Prop :=
  ∃ (len nameoff : UInt32) (payload pad : List UInt8), payload.length = len.toNat ∧
    pad.length = padding len.toNat ∧ StringIn strings nameoff.toNat ∧ w = be32 len ++ be32 nameoff ++ payload ++ pad

inductive Item (strings : List UInt8) : (levels : Nat) → List UInt8 → Prop
  | nop {levels : Nat} : Item strings levels (tokenWord fdtNop)
  | prop {levels : Nat} {body : List UInt8} (property : PropertyBody strings body) :
      Item strings levels (tokenWord fdtProp ++ body)
  | node {levels : Nat} {name : List UInt8} {items : List (List UInt8)} (named : PaddedName name)
      (each : ∀ item ∈ items, Item strings levels item) :
      Item strings (levels + 1) (tokenWord fdtBeginNode ++ name ++ items.flatten ++ tokenWord fdtEndNode)

def IsNode (strings : List UInt8) (levels : Nat) (w : List UInt8) : Prop :=
  ∃ (below : Nat) (name : List UInt8) (items : List (List UInt8)), levels = below + 1 ∧ PaddedName name ∧
    (∀ item ∈ items, Item strings below item) ∧
    w = tokenWord fdtBeginNode ++ name ++ items.flatten ++ tokenWord fdtEndNode

def nops (count : Nat) : List UInt8 := (List.replicate count (tokenWord fdtNop)).flatten

def IsTree (strings w : List UInt8) : Prop :=
  ∃ (before after : Nat) (root trailing : List UInt8), IsNode strings fdtMaxDepth root ∧
    w = nops before ++ root ++ nops after ++ tokenWord fdtEnd ++ trailing

structure BlobHeader where
  total : UInt32
  offset : UInt32
  size : UInt32
  stringOffset : UInt32
  stringSize : UInt32
  reserveOffset : UInt32

structure WellFormed (bytes : List UInt8) (h : BlobHeader) : Prop where
  magic : Holds bytes 0 (be32 0xd00dfeed)
  total : Holds bytes 4 (be32 h.total)
  offset : Holds bytes 8 (be32 h.offset)
  stringOffset : Holds bytes 12 (be32 h.stringOffset)
  reserveOffset : Holds bytes 16 (be32 h.reserveOffset)
  stringSize : Holds bytes 32 (be32 h.stringSize)
  size : Holds bytes 36 (be32 h.size)
  totalBounds : 40 ≤ h.total.toNat ∧ h.total.toNat ≤ 2 ^ 31 - 1
  structBlock : 40 ≤ h.offset.toNat ∧ h.offset.toNat % 4 = 0 ∧ h.offset.toNat + h.size.toNat ≤ h.total.toNat
  stringsBlock : 40 ≤ h.stringOffset.toNat ∧ h.stringOffset.toNat + h.stringSize.toNat ≤ h.total.toNat
  reserveBlock : 40 ≤ h.reserveOffset.toNat ∧ h.reserveOffset.toNat % 8 = 0 ∧
    h.reserveOffset.toNat + 16 ≤ h.total.toNat
  tree : IsTree ((bytes.drop h.stringOffset.toNat).take h.stringSize.toNat)
    ((bytes.drop h.offset.toNat).take h.size.toNat)

variable {rest : List UInt8}

theorem PaddedName.length_eq {name : List UInt8} (named : PaddedName name) {n : Nat}
    (nul : (name ++ rest)[n]? = some 0) (before : ∀ i < n, (name ++ rest)[i]? ≠ some 0) :
    name.length = n + 1 + padding (n + 1) := by
  obtain ⟨chars, pad, noNul, padded, rfl⟩ := named
  have first : chars.length = n := by
    rcases Nat.lt_trichotomy chars.length n with less | same | more
    · exact absurd (by simp) (before chars.length less)
    · exact same
    · have inChars : chars[n]? = some 0 := by
        rwa [List.append_assoc, List.getElem?_append_left more] at nul
      exact absurd (List.mem_of_getElem? inChars) noNul
  simp only [List.length_append, List.length_cons, padded, first]
  omega

variable {w : List UInt8}

theorem paddedName_iff {n : Nat} (nul : w[n]? = some 0) (before : ∀ i < n, w[i]? ≠ some 0)
    (P : List UInt8 → Prop) : (∃ name rest, PaddedName name ∧ w = name ++ rest ∧ P rest) ↔
      n + 1 + padding (n + 1) ≤ w.length ∧ P (w.drop (n + 1 + padding (n + 1))) := by
  constructor
  · rintro ⟨name, rest, named, rfl, holds⟩
    have length := named.length_eq nul before
    rw [← length, List.drop_left]
    exact ⟨by simp, holds⟩
  · rintro ⟨fits, holds⟩
    have bound := (List.getElem?_eq_some_iff.mp nul).1
    have zero := (List.getElem?_eq_some_iff.mp nul).2
    refine ⟨w.take (n + 1 + padding (n + 1)), _, ?_, (List.take_append_drop _ w).symm, holds⟩
    refine ⟨w.take n, (w.drop (n + 1)).take (padding (n + 1)), fun member => ?_, ?_, ?_⟩
    · obtain ⟨i, less, found⟩ := List.mem_iff_getElem.mp member
      rw [List.length_take] at less
      rw [List.getElem_take] at found
      exact before i (by omega) (by rw [List.getElem?_eq_getElem (by omega), found])
    · have size : (w.take n).length = n := by rw [List.length_take]; omega
      rw [size, List.length_take, List.length_drop]
      omega
    · rw [List.take_add, List.take_add_one, nul]
      simp

theorem not_paddedName (noNul : ∀ i < w.length, w[i]? ≠ some 0) {name : List UInt8} (same : w = name ++ rest) :
    ¬ PaddedName name := by
  rintro ⟨chars, pad, -, -, rfl⟩
  subst same
  exact noNul chars.length (by simp) (by simp)

variable {strings : List UInt8}

theorem stringIn_iff {offset : Nat} : StringIn strings offset ↔ 0 ∈ strings.drop offset := by
  constructor
  · rintro ⟨before, chars, after, -, rfl, rfl⟩
    simp
  · intro member
    obtain ⟨chars, after, shape, noNul⟩ := List.eq_append_cons_of_mem member
    have inside : offset < strings.length := by
      by_contra outside
      rw [List.drop_eq_nil_of_le (Nat.le_of_not_lt outside)] at member
      exact List.not_mem_nil member
    refine ⟨strings.take offset, chars, after, noNul, by rw [List.length_take]; omega, ?_⟩
    rw [List.append_assoc, ← shape, List.take_append_drop]

theorem propertyBody_iff {tail : List UInt8} {len nameoff : UInt32} (P : List UInt8 → Prop) :
    (∃ body rest, PropertyBody strings body ∧ be32 len ++ (be32 nameoff ++ tail) = body ++ rest ∧ P rest) ↔
      len.toNat + padding len.toNat ≤ tail.length ∧ StringIn strings nameoff.toNat ∧
        P (tail.drop (len.toNat + padding len.toNat)) := by
  constructor
  · rintro ⟨body, rest, ⟨len', nameoff', payload, pad, length, padded, string, rfl⟩, same, holds⟩
    simp only [List.append_assoc] at same
    obtain ⟨sameLen, behind⟩ := List.append_inj same (by simp)
    obtain ⟨sameOff, content⟩ := List.append_inj behind (by simp)
    obtain rfl := be32_inj sameLen
    obtain rfl := be32_inj sameOff
    subst content
    have size : (payload ++ pad).length = len.toNat + padding len.toNat := by
      rw [List.length_append, length, padded]
    rw [← List.append_assoc, ← size, List.drop_left]
    exact ⟨by simp, string, holds⟩
  · rintro ⟨fits, string, holds⟩
    refine ⟨be32 len ++ be32 nameoff ++ tail.take len.toNat ++ (tail.drop len.toNat).take (padding len.toNat), _,
      ⟨len, nameoff, _, _, ?_, ?_, string, rfl⟩, ?_, holds⟩
    · rw [List.length_take]
      omega
    · rw [List.length_take, List.length_drop]
      omega
    · simp only [List.append_assoc]
      rw [← List.drop_drop, List.take_append_drop, List.take_append_drop]

theorem PropertyBody.length {body : List UInt8} (property : PropertyBody strings body) : 8 ≤ body.length := by
  obtain ⟨len, nameoff, payload, pad, -, -, -, rfl⟩ := property
  simp only [List.length_append, be32_length]
  omega

-- `seen` tells whether the root node was begun.
inductive Recognized (strings : List UInt8) : (w : List UInt8) → (depth : Nat) → (seen : Bool) → Prop
  | finish {trailing : List UInt8} : Recognized strings (tokenWord fdtEnd ++ trailing) 0 true
  | begin {name w : List UInt8} {depth : Nat} {seen : Bool} (first : ¬ (depth = 0 ∧ seen = true))
      (shallow : depth < fdtMaxDepth) (named : PaddedName name) (rest : Recognized strings w (depth + 1) true) :
      Recognized strings (tokenWord fdtBeginNode ++ (name ++ w)) depth seen
  | close {w : List UInt8} {depth : Nat} {seen : Bool} (rest : Recognized strings w depth seen) :
      Recognized strings (tokenWord fdtEndNode ++ w) (depth + 1) seen
  | prop {body w : List UInt8} {depth : Nat} {seen : Bool} (nested : 0 < depth) (property : PropertyBody strings body)
      (rest : Recognized strings w depth seen) : Recognized strings (tokenWord fdtProp ++ (body ++ w)) depth seen
  | nop {w : List UInt8} {depth : Nat} {seen : Bool} (rest : Recognized strings w depth seen) :
      Recognized strings (tokenWord fdtNop ++ w) depth seen

variable {depth : Nat} {seen : Bool}

section Language

theorem tokenWord_inj {token token' : Nat} (small : token < 2 ^ 32) (small' : token' < 2 ^ 32)
    (same : tokenWord token = tokenWord token') : token = token' := by
  have value := congrArg UInt32.toNat (be32_inj same)
  rwa [UInt32.toNat_ofNat_of_lt' small, UInt32.toNat_ofNat_of_lt' small'] at value

def After (strings : List UInt8) (token : Nat) (w : List UInt8) (depth : Nat) (seen : Bool) : Prop :=
  (token = fdtBeginNode ∧ ¬ (depth = 0 ∧ seen = true) ∧ depth < fdtMaxDepth ∧
    ∃ name rest, PaddedName name ∧ w = name ++ rest ∧ Recognized strings rest (depth + 1) true) ∨
  (token = fdtEndNode ∧ ∃ outer, depth = outer + 1 ∧ Recognized strings w outer seen) ∨
  (token = fdtProp ∧ 0 < depth ∧
    ∃ body rest, PropertyBody strings body ∧ w = body ++ rest ∧ Recognized strings rest depth seen) ∨
  (token = fdtNop ∧ Recognized strings w depth seen) ∨
  (token = fdtEnd ∧ depth = 0 ∧ seen = true)

theorem recognized_token {token : Nat} (small : token < 2 ^ 32) :
    Recognized strings (tokenWord token ++ w) depth seen ↔ After strings token w depth seen := by
  constructor
  · intro recognized
    generalize whole : tokenWord token ++ w = all at recognized
    cases recognized with
    | finish =>
      obtain ⟨sameToken, rfl⟩ := List.append_inj whole rfl
      exact .inr (.inr (.inr (.inr ⟨tokenWord_inj small (by decide) sameToken, rfl, rfl⟩)))
    | begin first shallow named rest =>
      obtain ⟨sameToken, rfl⟩ := List.append_inj whole rfl
      exact .inl ⟨tokenWord_inj small (by decide) sameToken, first, shallow, _, _, named, rfl, rest⟩
    | close rest =>
      obtain ⟨sameToken, rfl⟩ := List.append_inj whole rfl
      exact .inr (.inl ⟨tokenWord_inj small (by decide) sameToken, _, rfl, rest⟩)
    | prop nested property rest =>
      obtain ⟨sameToken, rfl⟩ := List.append_inj whole rfl
      exact .inr (.inr (.inl ⟨tokenWord_inj small (by decide) sameToken, nested, _, _, property, rfl, rest⟩))
    | nop rest =>
      obtain ⟨sameToken, rfl⟩ := List.append_inj whole rfl
      exact .inr (.inr (.inr (.inl ⟨tokenWord_inj small (by decide) sameToken, rest⟩)))
  · rintro (⟨rfl, first, shallow, name, rest, named, rfl, recognized⟩ | ⟨rfl, outer, rfl, recognized⟩ |
      ⟨rfl, nested, body, rest, property, rfl, recognized⟩ | ⟨rfl, recognized⟩ | ⟨rfl, rfl, rfl⟩)
    · exact .begin first shallow named recognized
    · exact .close recognized
    · exact .prop nested property recognized
    · exact .nop recognized
    · exact .finish

section Tokens

theorem after_begin :
    After strings fdtBeginNode w depth seen ↔ ¬ (depth = 0 ∧ seen = true) ∧ depth < fdtMaxDepth ∧
    ∃ name rest, PaddedName name ∧ w = name ++ rest ∧ Recognized strings rest (depth + 1) true := by
  simp [After, fdtBeginNode, fdtEndNode, fdtProp, fdtNop, fdtEnd]

theorem after_endNode : After strings fdtEndNode w depth seen ↔
    ∃ outer, depth = outer + 1 ∧ Recognized strings w outer seen := by
  simp [After, fdtBeginNode, fdtEndNode, fdtProp, fdtNop, fdtEnd]

theorem after_prop : After strings fdtProp w depth seen ↔ 0 < depth ∧
    ∃ body rest, PropertyBody strings body ∧ w = body ++ rest ∧ Recognized strings rest depth seen := by
  simp [After, fdtBeginNode, fdtEndNode, fdtProp, fdtNop, fdtEnd]

theorem after_nop : After strings fdtNop w depth seen ↔ Recognized strings w depth seen := by
  simp [After, fdtBeginNode, fdtEndNode, fdtProp, fdtNop, fdtEnd]

theorem after_end : After strings fdtEnd w depth seen ↔ depth = 0 ∧ seen = true := by
  simp [After, fdtBeginNode, fdtEndNode, fdtProp, fdtNop, fdtEnd]

end Tokens

theorem Recognized.length (recognized : Recognized strings w depth seen) :
    4 ≤ w.length := by
  cases recognized <;> simp [tokenWord]

def Closing (strings : List UInt8) : (depth : Nat) → List UInt8 → Prop
  | 0, w => ∃ (after : Nat) (trailing : List UInt8), w = nops after ++ tokenWord fdtEnd ++ trailing
  | depth + 1, w => ∃ (items : List (List UInt8)) (rest : List UInt8),
      (∀ item ∈ items, Item strings (fdtMaxDepth - (depth + 1)) item) ∧
      w = items.flatten ++ tokenWord fdtEndNode ++ rest ∧ Closing strings depth rest

theorem nops_succ (count : Nat) : nops (count + 1) = tokenWord fdtNop ++ nops count := by
  simp [nops, List.replicate_succ]

theorem Closing.item {item : List UInt8} (here : Item strings (fdtMaxDepth - (depth + 1)) item)
    (closing : Closing strings (depth + 1) w) :
    Closing strings (depth + 1) (item ++ w) := by
  obtain ⟨items, rest, each, rfl, closing⟩ := closing
  refine ⟨item :: items, rest, fun other member => ?_, by simp, closing⟩
  rcases List.mem_cons.mp member with rfl | behind
  · exact here
  · exact each other behind

def Opening (strings w : List UInt8) : Prop :=
  ∃ (before : Nat) (root rest : List UInt8), IsNode strings fdtMaxDepth root ∧ w = nops before ++ root ++ rest ∧
    Closing strings 0 rest

theorem Recognized.language (accepts : Recognized strings w depth seen) :
    if seen then Closing strings depth w else depth = 0 → Opening strings w := by
  induction accepts with
  | finish => exact ⟨0, _, rfl⟩
  | @begin name w depth seen first shallow named rest ih =>
    obtain ⟨items, after, each, rfl, closing⟩ := ih
    -- The node that begins here ends where the items of the open node end.
    have shape : tokenWord fdtBeginNode ++ (name ++ (items.flatten ++ tokenWord fdtEndNode ++ after)) =
        (tokenWord fdtBeginNode ++ name ++ items.flatten ++ tokenWord fdtEndNode) ++ after := by
      simp only [List.append_assoc]
    rw [shape]
    cases seen with
    | false =>
      intro root
      subst root
      exact ⟨0, _, after, ⟨_, name, items, rfl, named, each, rfl⟩, rfl, closing⟩
    | true =>
      obtain ⟨outer, rfl⟩ := Nat.exists_eq_succ_of_ne_zero (fun zero => first ⟨zero, rfl⟩)
      have node : Item strings (fdtMaxDepth - (outer + 1 + 1) + 1) _ := .node named each
      have level : fdtMaxDepth - (outer + 1 + 1) + 1 = fdtMaxDepth - (outer + 1) := by omega
      rw [level] at node
      exact closing.item node
  | @close w depth seen rest ih =>
    cases seen with
    | false => nofun
    | true => exact ⟨[], w, nofun, rfl, ih⟩
  | @prop body w depth seen nested property rest ih =>
    obtain ⟨outer, rfl⟩ := Nat.exists_eq_succ_of_ne_zero nested.ne'
    cases seen with
    | false => nofun
    | true =>
      rw [← List.append_assoc]
      exact Closing.item (.prop property) ih
  | @nop w depth seen rest ih =>
    cases seen with
    | false =>
      intro root
      obtain ⟨before, node, behind, isNode, rfl, closing⟩ := ih root
      exact ⟨before + 1, node, behind, isNode, by simp [nops_succ], closing⟩
    | true =>
      cases depth with
      | zero =>
        obtain ⟨after, trailing, rfl⟩ := ih
        exact ⟨after + 1, trailing, by simp [nops_succ]⟩
      | succ depth => exact Closing.item .nop ih

theorem Recognized.items {items : List (List UInt8)}
    (each : ∀ item ∈ items, ∀ after, Recognized strings after depth true →
      Recognized strings (item ++ after) depth true)
    (accepts : Recognized strings rest depth true) : Recognized strings (items.flatten ++ rest) depth true := by
  induction items with
  | nil => exact accepts
  | cons item items ih =>
    rw [List.flatten_cons, List.append_assoc]
    exact each item List.mem_cons_self _ (ih fun other member => each other (List.mem_cons_of_mem _ member))

theorem Item.accepted {levels : Nat} {item : List UInt8} (isItem : Item strings levels item) (nested : 0 < depth)
    (shallow : levels + depth ≤ fdtMaxDepth) (rest : List UInt8) (accepts : Recognized strings rest depth true) :
    Recognized strings (item ++ rest) depth true := by
  induction isItem generalizing depth rest with
  | nop => exact .nop accepts
  | prop property =>
    rw [List.append_assoc]
    exact .prop nested property accepts
  | @node levels name items named each ih =>
    have inner : Recognized strings (items.flatten ++ (tokenWord fdtEndNode ++ rest)) (depth + 1) true :=
      Recognized.items (fun item member after => ih item member (by omega) (by omega) after) (.close accepts)
    simp only [List.append_assoc]
    exact .begin (fun outermost => absurd outermost.1 nested.ne') (by omega) named inner

theorem Closing.accepted (closing : Closing strings 0 w) : Recognized strings w 0 true := by
  obtain ⟨after, trailing, rfl⟩ := closing
  induction after with
  | zero => exact .finish
  | succ after ih =>
    rw [nops_succ, List.append_assoc, List.append_assoc]
    rw [List.append_assoc] at ih
    exact .nop ih

theorem IsNode.accepted {root : List UInt8} (isNode : IsNode strings fdtMaxDepth root)
    (accepts : Recognized strings rest 0 true) : Recognized strings (root ++ rest) 0 false := by
  obtain ⟨below, name, items, levels, named, each, rfl⟩ := isNode
  have inner : Recognized strings (items.flatten ++ (tokenWord fdtEndNode ++ rest)) 1 true :=
    Recognized.items (fun item member after => (each item member).accepted (by decide) (by omega) after)
      (.close accepts)
  simp only [List.append_assoc]
  exact .begin (by simp) (by decide) named inner

theorem recognized_iff : Recognized strings w 0 false ↔ IsTree strings w := by
  constructor
  · intro accepts
    obtain ⟨before, root, rest, isNode, rfl, after, trailing, rfl⟩ := accepts.language rfl
    exact ⟨before, after, root, trailing, isNode, by simp only [List.append_assoc]⟩
  · rintro ⟨before, after, root, trailing, isNode, rfl⟩
    have tree : Recognized strings (root ++ (nops after ++ tokenWord fdtEnd ++ trailing)) 0 false :=
      isNode.accepted (Closing.accepted ⟨after, trailing, rfl⟩)
    simp only [List.append_assoc] at tree ⊢
    induction before with
    | zero => exact tree
    | succ before ih =>
      rw [nops_succ, List.append_assoc]
      exact .nop ih

end Language

end OrangeKernel.Fdt
