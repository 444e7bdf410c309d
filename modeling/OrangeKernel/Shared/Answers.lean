import OrangeKernel.Shared.Scan

set_option autoImplicit false

namespace ByteScan

def Answers {α : Type} (m : Scan α) (a : α) : Prop := ∃ bound, ∀ fuel, bound ≤ fuel → m fuel = .ok a

def Agree {α : Type} (m p : Scan α) : Prop := ∃ bound, ∀ fuel, bound ≤ fuel → m fuel = p fuel

section Rules

variable {α β S R : Type}

theorem Answers.pure (a : α) : Answers (Pure.pure a) a := ⟨0, fun _ _ => rfl⟩

theorem Runs.answered {m : Scan α} {Q : α → Prop} (runs : Runs True m Q) : ∃ a, Answers m a ∧ Q a := by
  obtain ⟨fuel, a, answered⟩ := runs.ends trivial
  exact ⟨a, ⟨fuel, fun later enough => runs.steady enough answered⟩, runs.post fuel a answered⟩

theorem Runs.answer {m : Scan α} {a : α} (runs : Runs True m (a = ·)) : Answers m a := by
  obtain ⟨b, answers, rfl⟩ := runs.answered
  exact answers

theorem Runs.known {ending : Prop} {m : Scan α} {Q : α → Prop} {a : α} (runs : Runs ending m Q)
    (answers : Answers m a) :
    Runs ending m (a = ·) := by
  obtain ⟨bound, answered⟩ := answers
  exact { runs with post := fun fuel b found => runs.unique (answered bound (Nat.le_refl _)) found }

theorem Answers.bind {m : Scan α} {f : α → Scan β} {a : α} {b : β} (first : Answers m a)
    (rest : Answers (f a) b) :
    Answers (m >>= f) b := by
  obtain ⟨bound, answered⟩ := first
  obtain ⟨bound', answered'⟩ := rest
  refine ⟨max bound bound', fun fuel enough => ?_⟩
  rw [bind_of_ok (answered fuel (by omega))]
  exact answered' fuel (by omega)

theorem Agree.answers {m p : Scan α} {a : α} (agree : Agree m p) (answers : Answers p a) : Answers m a := by
  obtain ⟨bound, same⟩ := agree
  obtain ⟨bound', answered⟩ := answers
  refine ⟨max bound bound', fun fuel enough => ?_⟩
  rw [same fuel (by omega)]
  exact answered fuel (by omega)

theorem bind_of_error {m : Scan α} {f : α → Scan β} {fuel : Nat} {halt : Halt} (stopped : m fuel = .error halt) :
    (m >>= f) fuel = .error halt := by
  change (m fuel >>= fun a => f a fuel) = .error halt
  rw [stopped]
  rfl

theorem loopFrom_error {body : S → Scan (Round S R)} {s : S} {fuel rounds : Nat} {halt : Halt}
    (stopped : body s fuel = .error halt) : loopFrom body fuel (rounds + 1) s = .error halt := by
  simp only [loopFrom, stopped]

theorem loopFrom_done {body : S → Scan (Round S R)} {s : S} {r : R} {fuel rounds : Nat}
    (last : body s fuel = .ok (.done r)) : loopFrom body fuel (rounds + 1) s = .ok r := by
  simp only [loopFrom, last]

theorem loopFrom_next {body : S → Scan (Round S R)} {s after : S} {fuel rounds : Nat}
    (one : body s fuel = .ok (.next after)) : loopFrom body fuel (rounds + 1) s = loopFrom body fuel rounds after := by
  simp only [loopFrom, one]

end Rules

theorem Answers.unique {α : Type} {m : Scan α} {a b : α} (left : Answers m a) (right : Answers m b) : a = b := by
  obtain ⟨bound, answered⟩ := left
  obtain ⟨bound', answered'⟩ := right
  have first := answered (max bound bound') (Nat.le_max_left _ _)
  rw [answered' _ (Nat.le_max_right _ _)] at first
  exact (Except.ok.inj first).symm

abbrev Gives {α : Type} (ending : Prop) (m : Scan α) (a : α) : Prop := Runs ending m (a = ·)

section Known

variable {α β A S R : Type} {ending : Prop}

theorem Gives.pure (a : α) : Gives ending (Pure.pure a) a := Runs.pure rfl

theorem Gives.bind {m : Scan α} {f : α → Scan β} {a : α} {Q : β → Prop} (first : Gives ending m a)
    (rest : Runs ending (f a) Q) : Runs ending (m >>= f) Q :=
  Runs.bind first fun _ same => same ▸ rest

theorem Gives.cases {m : Scan α} {a : α} (gives : Gives ending m a) (fuel : Nat) :
    m fuel = .ok a ∨ m fuel = .error .fuel := by
  cases found : m fuel with
  | ok b =>
    obtain rfl := gives.post fuel b found
    exact Or.inl rfl
  | error halt =>
    cases halt with
    | fuel => exact Or.inr rfl
    | outside => exact absurd found (gives.contained fuel)

theorem Runs.decides {m : Scan Bool} {P : Prop} [Decidable P] (runs : Runs ending m fun r => r = true ↔ P) :
    Gives ending m (decide P) :=
  runs.weaken fun r tells => by rw [Bool.eq_iff_iff, tells, decide_eq_true_iff]

theorem Gives.entryAt {xs : List α} {i : Nat} {x : α} (entry : xs[i]? = some x) :
    Gives ending (ByteScan.entryAt xs i) x :=
  Runs.always (fun _ => by simp only [ByteScan.entryAt, Int.toNat_natCast, entry]) rfl

theorem Gives.storeEntry {xs : List α} {i : Nat} (inside : i < xs.length) (x : α) :
    Gives ending (ByteScan.storeEntry xs i x) (xs.set i x) :=
  (Gives.entryAt (List.getElem?_eq_getElem inside)).bind (Gives.pure _)

structure Leads (ending : Prop) (body : S → Scan (Round S R)) (s : S) (r : R) : Prop where
  only : ∀ fuel rounds, loopFrom body fuel rounds s = .ok r ∨ loopFrom body fuel rounds s = .error .fuel
  steady : ∀ {fuel later rounds more}, fuel ≤ later → rounds ≤ more →
    loopFrom body fuel rounds s = .ok r → loopFrom body later more s = .ok r
  ends : ending → ∃ fuel rounds, loopFrom body fuel rounds s = .ok r

variable {body : S → Scan (Round S R)} {s t : S} {r : R}

theorem Leads.done (last : Gives ending (body s) (.done r)) : Leads ending body s r where
  only := by
    intro fuel rounds
    cases rounds with
    | zero => exact Or.inr rfl
    | succ rounds => exact (last.cases fuel).imp loopFrom_done loopFrom_error
  steady := by
    intro fuel later rounds more le less answered
    cases rounds with
    | zero => cases answered
    | succ rounds =>
      obtain ⟨more, rfl⟩ := Nat.exists_eq_succ_of_ne_zero (by omega : more ≠ 0)
      rcases last.cases fuel with found | stopped
      · exact loopFrom_done (last.steady le found)
      · rw [loopFrom_error stopped] at answered
        cases answered
  ends := by
    intro reached
    obtain ⟨fuel, round, found⟩ := last.ends reached
    obtain rfl := last.post fuel round found
    exact ⟨fuel, 1, loopFrom_done found⟩

theorem Leads.next (one : Gives ending (body s) (.next t)) (rest : Leads ending body t r) : Leads ending body s r where
  only := by
    intro fuel rounds
    cases rounds with
    | zero => exact Or.inr rfl
    | succ rounds =>
      rcases one.cases fuel with found | stopped
      · rw [loopFrom_next found]
        exact rest.only fuel rounds
      · exact Or.inr (loopFrom_error stopped)
  steady := by
    intro fuel later rounds more le less answered
    cases rounds with
    | zero => cases answered
    | succ rounds =>
      obtain ⟨more, rfl⟩ := Nat.exists_eq_succ_of_ne_zero (by omega : more ≠ 0)
      rcases one.cases fuel with found | stopped
      · rw [loopFrom_next found] at answered
        rw [loopFrom_next (one.steady le found)]
        exact rest.steady le (by omega) answered
      · rw [loopFrom_error stopped] at answered
        cases answered
  ends := by
    intro reached
    obtain ⟨fuel, round, found⟩ := one.ends reached
    obtain rfl := one.post fuel round found
    obtain ⟨fuel', rounds, answered⟩ := rest.ends reached
    refine ⟨max fuel fuel', rounds + 1, ?_⟩
    rw [loopFrom_next (one.steady (Nat.le_max_left _ _) found)]
    exact rest.steady (Nat.le_max_right _ _) (Nat.le_refl _) answered

theorem Leads.gives (leads : Leads ending body s r) : Gives ending (loop body s) r where
  contained := by
    intro fuel stopped
    rcases leads.only fuel fuel with answered | early
    · exact absurd (stopped.symm.trans answered) (by simp)
    · exact absurd (stopped.symm.trans early) (by simp)
  post := by
    intro fuel other found
    rcases leads.only fuel fuel with answered | early
    · exact Except.ok.inj (answered.symm.trans found)
    · exact absurd (found.symm.trans early) (by simp)
  steady := by
    intro fuel later other le found
    rcases leads.only fuel fuel with answered | early
    · obtain rfl := Except.ok.inj (answered.symm.trans found)
      exact leads.steady le le answered
    · exact absurd (found.symm.trans early) (by simp)
  ends := by
    intro reached
    obtain ⟨fuel, rounds, answered⟩ := leads.ends reached
    exact ⟨max fuel rounds, r, leads.steady (Nat.le_max_left _ _) (Nat.le_max_right _ _) answered⟩

def Proceeds (ending : Prop) (body : S → Scan (Round S R)) (s : S) (conc : A → S) : Except R A → Prop
  | .error r => Leads ending body s r
  | .ok a => ∀ r, Leads ending body (conc a) r → Leads ending body s r

def Round.of (conc : A → S) : Except R A → Round S R
  | .error r => .done r
  | .ok a => .next (conc a)

variable {conc conc' : A → S} {e : Except R A}

theorem Proceeds.here (conc : A → S) (a : A) : Proceeds ending body (conc a) conc (.ok a : Except R A) :=
  fun _ leads => leads

theorem Proceeds.round (one : Gives ending (body s) (Round.of conc e)) : Proceeds ending body s conc e := by
  cases e with
  | error r => exact Leads.done one
  | ok a => exact fun r rest => Leads.next one rest

theorem Proceeds.next (one : Gives ending (body s) (.next t)) (rest : Proceeds ending body t conc e) :
    Proceeds ending body s conc e := by
  cases e with
  | error r => exact Leads.next one rest
  | ok a => exact fun r leads => Leads.next one (rest r leads)

theorem Proceeds.bind {f : A → Except R A} (first : Proceeds ending body s conc e)
    (rest : ∀ a, Proceeds ending body (conc a) conc' (f a)) : Proceeds ending body s conc' (e >>= f) := by
  cases e with
  | error r => exact first
  | ok a =>
    change Proceeds ending body s conc' (f a)
    have later := rest a
    cases result : f a with
    | error r =>
      rw [result] at later
      exact first r later
    | ok b =>
      rw [result] at later
      exact fun r leads => first r (later r leads)

def outcome (last : A → R) : Except R A → R
  | .error r => r
  | .ok a => last a

theorem Proceeds.gives {last : A → R} (proceeds : Proceeds ending body s conc e)
    (finish : ∀ a, Gives ending (body (conc a)) (.done (last a))) : Gives ending (loop body s) (outcome last e) := by
  cases e with
  | error r => exact Leads.gives proceeds
  | ok a => exact Leads.gives (proceeds _ (Leads.done (finish a)))

end Known

def Holds (bytes : List UInt8) (start : Nat) (field : List UInt8) : Prop :=
  ∃ before after, bytes = before ++ field ++ after ∧ before.length = start

section Fields

variable {bytes first rest field : List UInt8} {start : Nat} {b : UInt8}

theorem Holds.whole (bytes : List UInt8) : Holds bytes 0 bytes := ⟨[], [], by simp, rfl⟩

theorem Holds.left (holds : Holds bytes start (first ++ rest)) : Holds bytes start first := by
  obtain ⟨before, after, same, length⟩ := holds
  exact ⟨before, rest ++ after, by simp [same], length⟩

theorem Holds.right (holds : Holds bytes start (first ++ rest)) : Holds bytes (start + first.length) rest := by
  obtain ⟨before, after, same, length⟩ := holds
  exact ⟨before ++ first, after, by simp [same], by simp [length]⟩

theorem Holds.behind {n : Nat} (holds : Holds bytes start (first ++ rest)) (length : first.length = n) :
    Holds bytes (start + n) rest :=
  length ▸ holds.right

theorem Holds.append (left : Holds bytes start first) (right : Holds bytes (start + first.length) rest) :
    Holds bytes start (first ++ rest) := by
  obtain ⟨before, after, same, length⟩ := left
  obtain ⟨before', after', same', length'⟩ := right
  have behind : before ++ first ++ after = before' ++ (rest ++ after') := by rw [← same, same', List.append_assoc]
  obtain ⟨split, tail⟩ := List.append_inj behind (by rw [List.length_append, length, length'])
  exact ⟨before, after', by rw [same, tail]; simp, length⟩

theorem Holds.slice {n : Nat} (inside : start + n ≤ bytes.length) :
    Holds bytes start ((bytes.drop start).take n) := by
  refine ⟨bytes.take start, bytes.drop (start + n), ?_, by rw [List.length_take]; omega⟩
  rw [List.append_assoc, ← List.drop_drop, List.take_append_drop, List.take_append_drop]

theorem Holds.part {i n : Nat} (holds : Holds bytes start field) (inside : i + n ≤ field.length) :
    Holds bytes (start + i) ((field.drop i).take n) := by
  have whole : Holds bytes start (field.take i ++ ((field.drop i).take n ++ (field.drop i).drop n)) := by
    rw [List.take_append_drop, List.take_append_drop]
    exact holds
  have front : (field.take i).length = i := by
    rw [List.length_take]
    omega
  exact (whole.behind front).left

theorem Holds.byte (found : bytes[start]? = some b) : Holds bytes start [b] := by
  obtain ⟨inside, same⟩ := List.getElem?_eq_some_iff.mp found
  refine ⟨bytes.take start, bytes.drop (start + 1), ?_, by rw [List.length_take]; omega⟩
  rw [List.append_assoc, List.singleton_append, ← same, ← List.drop_eq_getElem_cons inside, List.take_append_drop]

theorem Holds.getElem? (holds : Holds bytes start field) {i : Nat} (inside : i < field.length) :
    bytes[start + i]? = field[i]? := by
  obtain ⟨before, after, rfl, rfl⟩ := holds
  rw [List.append_assoc, List.getElem?_append_right (Nat.le_add_right _ _), Nat.add_sub_cancel_left,
    List.getElem?_append_left inside]

theorem Holds.tail (holds : Holds bytes start (b :: rest)) : Holds bytes (start + 1) rest := by
  have parts : Holds bytes start ([b] ++ rest) := holds
  exact parts.right

theorem Holds.unique {other : List UInt8} (left : Holds bytes start field) (right : Holds bytes start other)
    (length : field.length = other.length) : field = other := by
  obtain ⟨before, after, same, size⟩ := left
  obtain ⟨before', after', same', size'⟩ := right
  rw [same, List.append_assoc, List.append_assoc] at same'
  obtain ⟨-, behind⟩ := List.append_inj same' (size.trans size'.symm)
  exact (List.append_inj behind length).1

theorem Holds.fits (holds : Holds bytes start field) : start + field.length ≤ bytes.length := by
  obtain ⟨before, after, same, length⟩ := holds
  have total := congrArg List.length same
  simp only [List.length_append] at total
  omega

theorem Holds.take {limit : Nat} (holds : Holds bytes start field) (inside : start + field.length ≤ limit) :
    Holds (bytes.take limit) start field := by
  obtain ⟨before, after, rfl, rfl⟩ := holds
  refine ⟨before, after.take (limit - (before ++ field).length), ?_, rfl⟩
  rw [List.take_append, List.take_of_length_le (by simpa using inside)]

theorem Holds.of_take {limit : Nat} (holds : Holds (bytes.take limit) start field) : Holds bytes start field := by
  obtain ⟨before, after, same, length⟩ := holds
  refine ⟨before, after ++ bytes.drop limit, ?_, length⟩
  rw [← List.append_assoc, ← same, List.take_append_drop]

theorem Holds.head (holds : Holds bytes start (b :: rest)) : Answers (byteAt bytes start) b := by
  obtain ⟨before, after, rfl, rfl⟩ := holds
  exact ⟨0, fun _ _ => by simp [byteAt]⟩

theorem Holds.reads {ending : Prop} (holds : Holds bytes start (b :: rest)) : Gives ending (byteAt bytes start) b := by
  obtain ⟨before, after, rfl, rfl⟩ := holds
  exact Runs.always (fun _ => by simp [byteAt]) rfl

end Fields

end ByteScan
