import Mathlib.Data.List.Basic
import Mathlib.Order.Lattice

set_option autoImplicit false

-- A read outside the window stops the program, and so does a loop that has used up its fuel.

namespace ByteScan

inductive Halt where
  | outside
  | fuel
deriving DecidableEq, Repr

-- The argument bounds the rounds of every loop.
abbrev Scan := ReaderT Nat (Except Halt)

def byteAt (bytes : List UInt8) (i : Nat) : Scan UInt8 := fun _ =>
  match bytes[i]? with
  | some b => .ok b
  | none => .error .outside

def entryAt {α : Type} (xs : List α) (i : Int) : Scan α := fun _ =>
  match i, xs[i.toNat]? with
  | .ofNat _, some x => .ok x
  | _, _ => .error .outside

def storeEntry {α : Type} (xs : List α) (i : Int) (x : α) : Scan (List α) := do
  let _ ← entryAt xs i
  pure (xs.set i.toNat x)

-- `first && second`, where the second operand reads.
def andAlso (first : Bool) (second : Scan Bool) : Scan Bool := if first then second else pure false

def orElse (first : Bool) (second : Scan Bool) : Scan Bool := if first then pure true else second

inductive Round (S R : Type) where
  | done (result : R)
  | next (state : S)

def loopFrom {S R : Type} (body : S → Scan (Round S R)) (fuel : Nat) : (rounds : Nat) → S → Except Halt R
  | 0, _ => .error .fuel
  | rounds + 1, s =>
    match body s fuel with
    | .error halt => .error halt
    | .ok (.done result) => .ok result
    | .ok (.next after) => loopFrom body fuel rounds after

def loop {S R : Type} (body : S → Scan (Round S R)) (s : S) : Scan R := fun fuel => loopFrom body fuel fuel s

def Contained {α : Type} (m : Scan α) : Prop := ∀ fuel, m fuel ≠ .error .outside

def Terminates {α : Type} (m : Scan α) : Prop := ∃ answer bound, ∀ fuel, bound ≤ fuel → m fuel = .ok answer

structure Runs {α : Type} (ending : Prop) (m : Scan α) (Q : α → Prop) : Prop where
  contained : Contained m
  post : ∀ fuel a, m fuel = .ok a → Q a
  steady : ∀ {fuel later a}, fuel ≤ later → m fuel = .ok a → m later = .ok a
  ends : ending → ∃ fuel a, m fuel = .ok a

section Rules

variable {α β S R : Type} {ending : Prop} {m : Scan α} {Q : α → Prop}

theorem Runs.terminates (runs : Runs ending m Q) (reached : ending) : Terminates m := by
  obtain ⟨fuel, a, answered⟩ := runs.ends reached
  exact ⟨a, fuel, fun later le => runs.steady le answered⟩

theorem Runs.both (runs : Runs True m Q) : Contained m ∧ Terminates m :=
  ⟨runs.contained, runs.terminates trivial⟩

variable {fuel : Nat}

theorem Runs.unique (runs : Runs ending m Q) {fuel' : Nat} {a a' : α}
    (left : m fuel = .ok a) (right : m fuel' = .ok a') : a = a' := by
  have leftLater := runs.steady (Nat.le_max_left fuel fuel') left
  have rightLater := runs.steady (Nat.le_max_right fuel fuel') right
  rw [leftLater] at rightLater
  exact Except.ok.inj rightLater

theorem Runs.weaken {P : α → Prop} (runs : Runs ending m P) (weaker : ∀ a, P a → Q a) :
    Runs ending m Q :=
  { runs with post := fun fuel a answered => weaker a (runs.post fuel a answered) }

theorem Runs.answers (runs : Runs ending m Q) :
    Runs ending m fun a => ∃ fuel, m fuel = .ok a :=
  { runs with post := fun fuel _ answered => ⟨fuel, answered⟩ }

theorem Runs.always {a : α} (answers : ∀ fuel, m fuel = .ok a) (holds : Q a) :
    Runs ending m Q where
  contained := fun fuel stopped => by
    rw [answers] at stopped
    cases stopped
  post := fun fuel b answered => by
    rw [answers] at answered
    cases answered
    exact holds
  steady := fun _ answered => by
    rw [answers] at answered ⊢
    exact answered
  ends := fun _ => ⟨0, a, answers 0⟩

theorem Runs.pure {a : α} (holds : Q a) : Runs ending (Pure.pure a) Q :=
  Runs.always (fun _ => rfl) holds

theorem Runs.byteAt {bytes : List UInt8} {i : Nat} (inside : i < bytes.length) :
    Runs ending (byteAt bytes i) fun b => bytes[i]? = some b := by
  have entry := List.getElem?_eq_getElem inside
  exact Runs.always (fun _ => by simp only [ByteScan.byteAt, entry]) entry

variable {second : Scan Bool}

theorem Runs.andAlso_of {first : Bool} {Q : Bool → Prop} (shortcut : first = false → Q false)
    (runs : first = true → Runs ending second Q) : Runs ending (andAlso first second) Q := by
  cases first with
  | true => exact runs rfl
  | false => exact Runs.pure (shortcut rfl)

variable {f : α → Scan β}

theorem bind_ok {b : β} (answered : (m >>= f) fuel = .ok b) :
    ∃ a, m fuel = .ok a ∧ f a fuel = .ok b := by
  change (m fuel >>= fun a => f a fuel) = .ok b at answered
  cases first : m fuel with
  | error halt =>
    rw [first] at answered
    cases answered
  | ok a =>
    rw [first] at answered
    exact ⟨a, rfl, answered⟩

theorem bind_of_ok {a : α} (answered : m fuel = .ok a) :
    (m >>= f) fuel = f a fuel := by
  change (m fuel >>= fun a => f a fuel) = f a fuel
  rw [answered]
  rfl

theorem Runs.bind {P : α → Prop} {Q : β → Prop} (first : Runs ending m P)
    (rest : ∀ a, P a → Runs ending (f a) Q) : Runs ending (m >>= f) Q where
  contained := by
    intro fuel stopped
    cases found : m fuel with
    | ok a =>
      rw [bind_of_ok found] at stopped
      exact (rest a (first.post fuel a found)).contained fuel stopped
    | error halt =>
      change (m fuel >>= fun a => f a fuel) = .error .outside at stopped
      rw [found] at stopped
      cases stopped
      exact first.contained fuel found
  post := by
    intro fuel b answered
    obtain ⟨a, one, two⟩ := bind_ok answered
    exact (rest a (first.post fuel a one)).post fuel b two
  steady := by
    intro fuel later b le answered
    obtain ⟨a, one, two⟩ := bind_ok answered
    rw [bind_of_ok (first.steady le one)]
    exact (rest a (first.post fuel a one)).steady le two
  ends := by
    intro reached
    obtain ⟨fuel, a, one⟩ := first.ends reached
    have restRuns := rest a (first.post fuel a one)
    obtain ⟨fuel', b, two⟩ := restRuns.ends reached
    refine ⟨max fuel fuel', b, ?_⟩
    rw [bind_of_ok (first.steady (Nat.le_max_left fuel fuel') one)]
    exact restRuns.steady (Nat.le_max_right fuel fuel') two

def Round.Meets (Inv : S → Prop) (Post : R → Prop) : Round S R → Prop
  | .done result => Post result
  | .next after => Inv after

variable {body : S → Scan (Round S R)} {Inv : S → Prop} {Post : R → Prop} {s : S}

theorem loopFrom_safe
    (step : ∀ s, Inv s → Runs ending (body s) (Round.Meets Inv Post)) (fuel rounds : Nat) (start : Inv s) :
    loopFrom body fuel rounds s ≠ .error .outside ∧
      ∀ result, loopFrom body fuel rounds s = .ok result → Post result := by
  induction rounds generalizing s with
  | zero => exact ⟨nofun, nofun⟩
  | succ rounds ih =>
    have one := step s start
    simp only [loopFrom]
    cases found : body s fuel with
    | error halt =>
      refine ⟨fun stopped => ?_, nofun⟩
      cases stopped
      exact one.contained fuel found
    | ok round =>
      have meets := one.post fuel round found
      cases round with
      | done result =>
        refine ⟨nofun, fun other same => ?_⟩
        cases same
        exact meets
      | next after => exact ih meets

theorem loopFrom_steady
    (step : ∀ s, Inv s → Runs ending (body s) (Round.Meets Inv Post)) {later rounds more : Nat} {result : R}
    (fuelLe : fuel ≤ later) (roundsLe : rounds ≤ more) (start : Inv s)
    (answered : loopFrom body fuel rounds s = .ok result) : loopFrom body later more s = .ok result := by
  induction rounds generalizing s more with
  | zero => cases answered
  | succ rounds ih =>
    cases more with
    | zero => omega
    | succ more =>
      have one := step s start
      simp only [loopFrom] at answered ⊢
      cases found : body s fuel with
      | error halt =>
        rw [found] at answered
        cases answered
      | ok round =>
        rw [found] at answered
        rw [one.steady fuelLe found]
        cases round with
        | done other => exact answered
        | next after => exact ih (by omega) (one.post fuel _ found) answered

theorem loopFrom_ends (measure : S → Nat)
    (step : ∀ s, Inv s →
      Runs ending (body s) (Round.Meets (fun after => Inv after ∧ measure after < measure s) Post))
    (reached : ending) (n : Nat) (small : measure s < n) (start : Inv s) :
    ∃ fuel result, ∀ later, fuel ≤ later → ∀ rounds, n ≤ rounds →
      loopFrom body later rounds s = .ok result := by
  induction n generalizing s with
  | zero => omega
  | succ n ih =>
    have one := step s start
    obtain ⟨fuel, round, found⟩ := one.ends reached
    cases round with
    | done result =>
      refine ⟨fuel, result, fun later le rounds enough => ?_⟩
      obtain ⟨rounds, rfl⟩ := Nat.exists_eq_succ_of_ne_zero (by omega : rounds ≠ 0)
      simp only [loopFrom, one.steady le found]
    | next after =>
      obtain ⟨kept, less⟩ := one.post fuel _ found
      obtain ⟨fuel', result, answered⟩ := ih (by omega) kept
      refine ⟨max fuel fuel', result, fun later le rounds enough => ?_⟩
      obtain ⟨rounds, rfl⟩ := Nat.exists_eq_succ_of_ne_zero (by omega : rounds ≠ 0)
      simp only [loopFrom, one.steady (by omega : fuel ≤ later) found]
      exact answered later (by omega) rounds (by omega)

theorem Round.Meets.imp {Inv' : S → Prop} {round : Round S R} (meets : round.Meets Inv Post)
    (weaker : ∀ after, Inv after → Inv' after) : round.Meets Inv' Post := by
  cases round with
  | done result => exact meets
  | next after => exact weaker after meets

theorem Runs.loop (Inv : S → Prop) (measure : S → Nat)
    (step : ∀ s, Inv s →
      Runs ending (body s) (Round.Meets (fun after => Inv after ∧ (ending → measure after < measure s)) Post))
        (start : Inv s) : Runs ending (loop body s) Post := by
  have keeps : ∀ s, Inv s → Runs ending (body s) (Round.Meets Inv Post) := fun s kept =>
    (step s kept).weaken fun round meets => meets.imp fun after => And.left
  refine ⟨fun fuel => (loopFrom_safe keeps fuel fuel start).1, fun fuel => (loopFrom_safe keeps fuel fuel start).2,
    fun le answered => loopFrom_steady keeps le le start answered, fun reached => ?_⟩
  have lowers : ∀ s, Inv s →
      Runs ending (body s) (Round.Meets (fun after => Inv after ∧ measure after < measure s) Post) := fun s kept =>
    (step s kept).weaken fun round meets => meets.imp fun after both => ⟨both.1, both.2 reached⟩
  obtain ⟨fuel, result, answered⟩ := loopFrom_ends measure lowers reached (measure s + 1) (by omega) start
  exact ⟨max fuel (measure s + 1), result, answered _ (by omega) _ (by omega)⟩

def Endless (m : Scan α) : Prop := ∀ fuel a, m fuel ≠ .ok a

theorem Endless.not_terminates (endless : Endless m) : ¬ Terminates m := by
  rintro ⟨a, bound, answered⟩
  exact endless bound a (answered bound (Nat.le_refl _))

theorem Endless.bind (rest : ∀ fuel a, m fuel = .ok a → Endless (f a)) :
    Endless (m >>= f) := by
  intro fuel b answered
  obtain ⟨a, one, two⟩ := bind_ok answered
  exact rest fuel a one fuel b two

theorem Endless.left (endless : Endless m) : Endless (m >>= f) :=
  Endless.bind fun fuel a answered => absurd answered (endless fuel a)

theorem Endless.loop (Inv : S → Prop)
    (step : ∀ s, Inv s → ∀ fuel round, body s fuel = .ok round → ∃ after, round = .next after ∧ Inv after)
    (start : Inv s) : Endless (loop body s) := by
  have rounds : ∀ fuel rounds s, Inv s → ∀ result, loopFrom body fuel rounds s ≠ .ok result := by
    intro fuel rounds
    induction rounds with
    | zero => exact fun _ _ => nofun
    | succ rounds ih =>
      intro s kept result answered
      simp only [loopFrom] at answered
      cases found : body s fuel with
      | error halt =>
        rw [found] at answered
        cases answered
      | ok round =>
        obtain ⟨after, rfl, keptAfter⟩ := step s kept fuel round found
        rw [found] at answered
        exact ih after keptAfter result answered
  exact fun fuel => rounds fuel fuel s start

theorem Endless.first (endless : Endless (body s)) :
    Endless (ByteScan.loop body s) := by
  intro fuel result answered
  cases fuel with
  | zero => cases answered
  | succ fuel =>
    simp only [ByteScan.loop, loopFrom] at answered
    cases found : body s (fuel + 1) with
    | error halt =>
      rw [found] at answered
      cases answered
    | ok round => exact endless _ _ found

end Rules

end ByteScan
