import OrangeKernel.Fdt.Visit
import OrangeKernel.Fdt.Walkers

set_option autoImplicit false

namespace OrangeKernel.Fdt

open ByteScan

variable {ending : Prop} {bytes : List UInt8} {field w : List UInt8}

-- It stops at the first difference, so a NUL among the bytes keeps it inside.
theorem nameEq_tells {cmp : List UInt8} {nameAt cmpAt : Nat} (noNul : 0 ∉ field)
    (name : Holds bytes nameAt w) (want : Holds cmp cmpAt field) (ends : 0 ∈ w ∨ field.length < w.length) :
    Runs ending (nameEq bytes nameAt cmp cmpAt field.length) fun same => same = true ↔ field ++ [0] <+: w := by
  refine Runs.loop (fun i => ∃ done rest tail, field = done ++ rest ∧ w = done ++ tail ∧ done.length = i)
    (fun i => field.length - i) ?_ ⟨[], field, w, rfl, rfl, rfl⟩
  rintro i ⟨done, rest, tail, rfl, rfl, rfl⟩
  -- What is left of the bytes is not empty, since the field has no NUL.
  obtain ⟨a, tail, rfl⟩ : ∃ a more, tail = a :: more := by
    refine List.exists_cons_of_ne_nil ?_
    rintro rfl
    rcases ends with nul | longer
    · exact noNul (List.mem_append_left _ (by simpa using nul))
    · simp at longer
  rw [List.append_assoc, List.prefix_append_right_inj]
  cases rest with
  | nil =>
    rw [if_neg (by simp)]
    simp only [List.append_nil]
    refine name.right.reads.bind (Runs.pure ?_)
    simp [Round.Meets, List.cons_prefix_cons, eq_comm]
  | cons b rest =>
    rw [if_pos (by simp)]
    refine name.right.reads.bind (want.right.reads.bind ?_)
    split
    next differ => exact Runs.pure (by simp [Round.Meets, List.cons_prefix_cons, Ne.symm differ])
    next agree =>
      obtain rfl := not_ne_iff.mp agree
      exact Runs.pure ⟨⟨done ++ [a], rest, tail, by simp, by simp, by simp⟩, fun _ => by
        simp only [List.length_append, List.length_cons]
        omega⟩

theorem Text.prefix_iff (t : Text) (noNul : 0 ∉ field) :
    field ++ [0] <+: t.bytes ↔ t.chars = field := by
  constructor
  · rintro ⟨rest, same⟩
    have split : field ++ 0 :: rest = t.chars ++ 0 :: [] := by simpa [Text.bytes] using same
    have left := List.splitOn_append_cons_self_of_not_mem noNul rest
    rw [split, List.splitOn_append_cons_self_of_not_mem t.noNul] at left
    exact (List.cons.inj left).1
  · rintro rfl
    exact List.prefix_refl _

theorem Text.nameEq_tells (t : Text) {cmp : List UInt8} {nameAt cmpAt : Nat} (noNul : 0 ∉ field)
    (name : Holds bytes nameAt t.bytes) (want : Holds cmp cmpAt field) :
    Runs ending (nameEq bytes nameAt cmp cmpAt field.length) fun same => same = true ↔ t.chars = field :=
  (Fdt.nameEq_tells noNul name want (Or.inl (by simp [Text.bytes]))).weaken fun _ tells =>
    tells.trans (t.prefix_iff noNul)

theorem Text.nameStartsWith_tells (t : Text) {nameAt : Nat} {start : Text} (short : start.chars.length < 2 ^ 32)
    (name : Holds bytes nameAt t.bytes) :
    Runs ending (nameStartsWith bytes nameAt start.bytes) fun starts => starts = true ↔ start.chars <+: t.chars := by
  refine Runs.loop
    (fun i => ∃ done rest tail, start.chars = done ++ rest ∧ t.chars = done ++ tail ∧ done.length = i)
    (fun i => start.chars.length - i) ?_ ⟨[], start.chars, t.chars, rfl, rfl, rfl⟩
  rintro i ⟨done, rest, tail, starts, splits, rfl⟩
  have shorter : start.chars <+: t.chars ↔ rest <+: tail := by
    rw [starts, splits]
    exact List.prefix_append_right_inj done
  have want : Holds start.bytes 0 (done ++ (rest ++ [0])) := by
    rw [← List.append_assoc, ← starts]
    exact Holds.whole _
  have have' : Holds bytes nameAt (done ++ (tail ++ [0])) := by
    rw [← List.append_assoc, ← splits]
    exact name
  have wantHere := want.right
  rw [Nat.zero_add] at wantHere
  rw [shorter]
  cases rest with
  | nil =>
    refine wantHere.reads.bind ?_
    rw [if_neg (not_not.mpr rfl)]
    exact Runs.pure (by simp [Round.Meets])
  | cons b rest =>
    have notNul : b ≠ 0 := by
      rintro rfl
      exact start.noNul (by rw [starts]; simp)
    have count : start.chars.length = done.length + (rest.length + 1) := by
      rw [starts, List.length_append, List.length_cons]
    refine wantHere.reads.bind ?_
    rw [if_pos notNul]
    cases tail with
    | nil =>
      refine have'.right.reads.bind ?_
      rw [if_pos (Ne.symm notNul)]
      exact Runs.pure (by simp [Round.Meets])
    | cons a tail =>
      refine have'.right.reads.bind ?_
      split
      next differ => exact Runs.pure (by simp [Round.Meets, List.cons_prefix_cons, Ne.symm differ])
      next agree =>
        obtain rfl := not_ne_iff.mp agree
        rw [Nat.mod_eq_of_lt (by omega)]
        exact Runs.pure
          ⟨⟨done ++ [a], rest, tail, by simp [starts], by simp [splits], by simp⟩, fun _ => by omega⟩

theorem Text.measured (t : Text) (short : ending → t.chars.length < 2 ^ 32) :
    Gives ending (strLen t.bytes 0) t.chars.length :=
  strLen_runs t.terminated short

variable {start : Nat} {s : List UInt8}

theorem strLen_endless (chars : ∀ i < 2 ^ 32, s[start + i]? ≠ some 0) :
    Endless (strLen s start) := by
  refine Endless.loop (fun n => n < 2 ^ 32) (fun n less fuel round answered => ?_) (by decide)
  obtain ⟨c, here, decided⟩ := bind_ok answered
  have nonzero : c ≠ 0 := by
    rintro rfl
    refine chars n less ?_
    unfold byteAt at here
    split at here
    next b found =>
      cases here
      exact found
    · cases here
  rw [if_pos nonzero] at decided
  cases decided
  exact ⟨_, rfl, Nat.mod_lt _ (by decide)⟩

def repeated (n : Nat) : Text where
  chars := List.replicate n 97
  noNul := by
    intro member
    exact absurd (List.eq_of_mem_replicate member) (by decide)

theorem repeated_strLen {n : Nat} (long : 2 ^ 32 ≤ n) : Endless (strLen (repeated n).bytes 0) := by
  refine strLen_endless fun i less => ?_
  have entry : (repeated n).bytes[0 + i]? = some 97 := by
    rw [Nat.zero_add, Text.bytes, repeated, List.getElem?_append_left (by rw [List.length_replicate]; omega),
      List.getElem?_replicate, if_pos (by omega)]
  rw [entry]
  decide

-- The bytes behind the last NUL are not a string.
def stringList (payload : List UInt8) : List (List UInt8) := (payload.splitOn 0).dropLast.takeWhile (· ≠ [])

theorem stringList_open (noNul : 0 ∉ w) : stringList w = [] := by
  rw [stringList, List.splitOn_eq_singleton noNul]
  rfl

theorem stringList_append (noNul : 0 ∉ s) (w : List UInt8) :
    stringList (s ++ 0 :: w) = if s = [] then [] else s :: stringList w := by
  have some := List.splitOn_ne_nil 0 w
  rw [stringList, List.splitOn_append_cons_self_of_not_mem noNul, List.dropLast_cons_of_ne_nil some,
    List.takeWhile_cons]
  by_cases empty : s = []
  · simp [empty]
  · simp [empty, stringList]

theorem scanNul_open (holds : Holds bytes start w) (noNul : 0 ∉ w) :
    Gives ending (scanNul bytes start w.length) w.length := by
  refine (scanNul_finds holds.fits).weaken fun n found => ?_
  obtain ⟨-, full | ⟨less, nul⟩⟩ := found
  · exact full.symm
  · rw [holds.getElem? less] at nul
    exact absurd (List.mem_of_getElem? nul) noNul

theorem scanNul_closed {room : Nat} (holds : Holds bytes start (s ++ 0 :: w))
    (noNul : 0 ∉ s) (length : (s ++ 0 :: w).length = room) : Gives ending (scanNul bytes start room) s.length := by
  subst length
  have size : (s ++ 0 :: w).length = s.length + (w.length + 1) := by simp
  have nulAt : bytes[start + s.length]? = some 0 := by
    rw [holds.getElem? (by omega)]
    simp
  refine (scanNul_finds holds.fits).weaken fun n found => ?_
  obtain ⟨before, last⟩ := found
  have notBehind : ¬ s.length < n := fun less => before _ less nulAt
  rcases last with full | ⟨less, nul⟩
  · omega
  · by_contra other
    rw [holds.getElem? less, List.getElem?_append_left (by omega)] at nul
    exact noNul (List.mem_of_getElem? nul)

theorem sameString_runs (noNul : 0 ∉ s) (holds : Holds bytes start (s ++ [0]))
    {want : Text} : Runs ending (andAlso (s.length = want.chars.length)
      (nameEq bytes start want.bytes 0 want.chars.length)) fun same => same = true ↔ s = want.chars := by
  refine Runs.andAlso_of (fun differ => ?_) fun _ => ?_
  · simp only [Bool.false_eq_true, false_iff]
    rintro rfl
    simp at differ
  · exact Text.nameEq_tells ⟨s, noNul⟩ want.noNul holds (Holds.whole want.bytes).left

theorem propHasCompatible_tells {data : Nat} {payload : List UInt8} (holds : Holds bytes data payload) {want : Text}
    (short : ending → want.chars.length < 2 ^ 32) :
    Runs ending (propHasCompatible bytes data payload.length want) fun found =>
      found = true ↔ want.chars ∈ stringList payload := by
  unfold propHasCompatible
  split
  next empty =>
    obtain rfl := List.length_eq_zero_iff.mp (by omega : payload.length = 0)
    exact Runs.pure (by simp [stringList_open])
  · rw [Int.toNat_natCast]
    refine (want.measured short).bind ?_
    refine Runs.loop (fun cur => ∃ w, Holds bytes cur w ∧ cur + w.length = data + payload.length ∧
        (want.chars ∈ stringList payload ↔ want.chars ∈ stringList w))
      (fun cur => data + payload.length - cur) ?_ ⟨payload, holds, rfl, Iff.rfl⟩
    rintro cur ⟨w, here, total, list⟩
    rw [list]
    cases w with
    | nil =>
      rw [if_neg (by simp at total; omega)]
      exact Runs.pure (by simp [Round.Meets, stringList_open])
    | cons a w =>
      rw [List.length_cons] at total
      rw [if_pos (by omega)]
      refine here.reads.bind ?_
      split
      next notNul =>
        by_cases closed : 0 ∈ a :: w
        · obtain ⟨s, w', shape, noNul⟩ := List.eq_append_cons_of_mem closed
          have some : s ≠ [] := by
            rintro rfl
            exact notNul (List.cons.inj shape).1
          have size : w.length + 1 = s.length + (w'.length + 1) := by
            simpa using congrArg List.length shape
          rw [shape] at here ⊢
          rw [stringList_append noNul, if_neg some]
          refine (scanNul_closed here noNul (by simp; omega)).bind ?_
          rw [if_neg (by omega)]
          have string : Holds bytes cur (s ++ [0] ++ w') := by simpa using here
          refine (sameString_runs noNul string.left).bind fun same found => ?_
          split
          next yes => exact Runs.pure (by simp [Round.Meets, found.mp yes])
          next no =>
            have other : want.chars ≠ s := fun same => no (found.mpr same.symm)
            refine Runs.pure ⟨⟨w', string.behind (by simp), by omega, ?_⟩, fun _ => by omega⟩
            rw [List.mem_cons, or_iff_right other]
        · have room : data + payload.length - cur = (a :: w).length := by
            rw [List.length_cons]
            omega
          rw [room]
          refine (scanNul_open here closed).bind ?_
          rw [if_pos (by rw [List.length_cons]; omega)]
          exact Runs.pure (by simp [Round.Meets, stringList_open closed])
      next nul =>
        obtain rfl := not_ne_iff.mp nul
        have first : stringList (0 :: w) = [] := by
          have shape := stringList_append List.not_mem_nil w
          rwa [List.nil_append, if_pos rfl] at shape
        exact Runs.pure (by simp [Round.Meets, first])

def components (path : List UInt8) : List (List UInt8) :=
  if (path.splitOn slash).getLast? = some [] then (path.splitOn slash).dropLast else path.splitOn slash

theorem components_nil : components [] = [] := by decide

variable {c : List UInt8}

theorem components_last (noSlash : slash ∉ c) (some : c ≠ []) : components c = [c] := by
  rw [components, List.splitOn_eq_singleton noSlash]
  simp [some]

theorem components_append (noSlash : slash ∉ c) (rest : List UInt8) :
    components (c ++ slash :: rest) = c :: components rest := by
  have parts := List.splitOn_ne_nil slash rest
  have split := List.splitOn_append_cons_self_of_not_mem noSlash rest
  obtain ⟨first, others, shape⟩ := List.exists_cons_of_ne_nil parts
  simp only [components, split, shape, List.getLast?_cons_cons, List.dropLast_cons_cons]
  split <;> rfl

structure Locates (path : List UInt8) (comp : PathComp) (c : List UInt8) : Prop where
  start : Holds path comp.start c
  len : comp.len = c.length % 2 ^ 32
  noNul : 0 ∉ c

theorem scanComp_finds {path rest : List UInt8} {p : Nat} {sep : UInt8} (holds : Holds path p (c ++ sep :: rest))
    (noNul : 0 ∉ c) (noSlash : slash ∉ c) (separates : sep = 0 ∨ sep = slash) :
    Gives ending (scanComp path p) (p + c.length, c.length % 2 ^ 32) := by
  refine Runs.loop (fun s => ∃ done tail, c = done ++ tail ∧ s = (p + done.length, done.length % 2 ^ 32))
    (fun s => p + c.length - s.1) ?_ ⟨[], c, rfl, rfl⟩
  rintro s ⟨done, tail, rfl, rfl⟩
  dsimp only
  rw [List.append_assoc] at holds
  cases tail with
  | nil =>
    refine holds.right.reads.bind ?_
    rw [if_neg (by rintro ⟨notNul, notSlash⟩; exact separates.elim notNul notSlash)]
    exact Runs.pure (by simp [Round.Meets])
  | cons a tail =>
    refine holds.right.reads.bind ?_
    rw [if_pos ⟨fun zero => noNul (by simp [zero]), fun same => noSlash (by simp [same])⟩]
    refine Runs.pure ⟨⟨done ++ [a], tail, by simp, ?_⟩, fun _ => ?_⟩
    · rw [List.length_append, List.length_singleton, Nat.mod_add_mod, Nat.add_assoc]
    · simp only [List.length_append, List.length_cons]
      omega

theorem pathComps_finds {path whole : List UInt8} (holds : Holds path 1 (whole ++ [0])) (noNul : 0 ∉ whole) :
    Runs ending (pathComps path) fun found => found = none ∧ fdtMaxDepth < (components whole).length ∨
      ∃ comps, found = some comps ∧ List.Forall₂ (Locates path) comps (components whole) := by
  refine Runs.loop (fun s => ∃ done rest, Holds path s.1 (rest ++ [0]) ∧ 0 ∉ rest ∧
      components whole = done ++ components rest ∧ List.Forall₂ (Locates path) s.2 done)
    (fun s => path.length - s.1) ?_ ⟨[], whole, holds, noNul, rfl, .nil⟩
  rintro ⟨p, comps⟩ ⟨done, rest, here, noNul, split, located⟩
  dsimp only at here located ⊢
  have inside := here.fits
  cases rest with
  | nil =>
    refine here.reads.bind ?_
    rw [if_neg (not_not.mpr rfl)]
    rw [components_nil, List.append_nil] at split
    exact Runs.pure (Or.inr ⟨comps, rfl, split ▸ located⟩)
  | cons a rest =>
    have notNul : a ≠ 0 := fun zero => noNul (zero ▸ List.mem_cons_self)
    refine here.reads.bind ?_
    rw [if_pos notNul]
    -- The component ends at the next slash, or at the NUL.
    by_cases more : slash ∈ a :: rest
    · obtain ⟨c, tail, shape, noSlash⟩ := List.eq_append_cons_of_mem more
      rw [shape] at here noNul split inside
      rw [components_append noSlash] at split
      have parts : Holds path p (c ++ slash :: (tail ++ [0])) := by simpa using here
      refine (scanComp_finds parts (fun nul => noNul (List.mem_append_left _ nul)) noSlash (Or.inr rfl)).bind ?_
      dsimp only
      split
      next full =>
        refine Runs.pure (Or.inl ⟨rfl, ?_⟩)
        rw [split, List.length_append, ← located.length_eq, List.length_cons]
        omega
      · refine parts.right.reads.bind ?_
        rw [if_pos rfl]
        refine Runs.pure
          ⟨⟨done ++ [c], tail, parts.right.tail, fun nul => noNul (by simp [nul]), by simp [split], ?_⟩,
          fun _ => ?_⟩
        · exact List.rel_append located (.cons ⟨parts.left, rfl, fun nul => noNul (by simp [nul])⟩ .nil)
        · simp only [List.length_append, List.length_cons] at inside
          omega
    · have some : a :: rest ≠ [] := List.cons_ne_nil _ _
      rw [components_last more some] at split
      refine (scanComp_finds here noNul more (Or.inl rfl)).bind ?_
      dsimp only
      split
      next full =>
        refine Runs.pure (Or.inl ⟨rfl, ?_⟩)
        rw [split, List.length_append, ← located.length_eq, List.length_singleton]
        omega
      · refine here.right.reads.bind ?_
        rw [if_neg (by decide)]
        refine Runs.pure
          ⟨⟨done ++ [a :: rest], [], here.right, List.not_mem_nil, by simp [split, components_nil], ?_⟩,
          fun _ => ?_⟩
        · exact List.rel_append located (.cons ⟨here.left, rfl, noNul⟩ .nil)
        · simp only [List.length_append, List.length_cons] at inside ⊢
          omega

end OrangeKernel.Fdt
