import Mathlib.Algebra.Group.Nat.Defs
import Mathlib.Data.Fintype.Card

set_option autoImplicit false

namespace OrangeKernel.Hart

open Function

inductive GreetPlace where
  | start
  | spin (myTicket : UInt32)
  | print (myTicket : UInt32) (rest : List UInt8)
  | store (myTicket value : UInt32)
  | done (myTicket : UInt32)

def GreetPlace.myTicket : GreetPlace → Option UInt32
  | .start => none
  | .spin t | .print t _ | .store t _ | .done t => some t

-- Behind the loop and before the end of `greet_serving++`.
def GreetPlace.locked : GreetPlace → Bool
  | .print _ _ | .store _ _ => true
  | _ => false

variable {H : Type}

structure Greeting (H : Type) where
  greetTicket : UInt32
  greetServing : UInt32
  place : H → GreetPlace
  output : List UInt8
  -- the harts in the order of their tickets
  tickets : List H

def greetStart : Greeting H :=
  { greetTicket := 0
    greetServing := 0
    place := fun _ => .start
    output := []
    tickets := [] }

-- One access to a lock word or one byte on the UART by hart `h`, which prints `text h`.
def greetOnce [DecidableEq H] (text : H → List UInt8) (s : Greeting H) (h : H) : Greeting H :=
  let goes (place : GreetPlace) (s : Greeting H) : Greeting H := { s with place := update s.place h place }
  match s.place h with
  | .start =>
    goes (.spin s.greetTicket) { s with
      greetTicket := s.greetTicket + 1
      tickets := s.tickets ++ [h] }
  | .spin t => if s.greetServing ≠ t then s else goes (.print t (text h)) s
  | .print t (byte :: rest) => goes (.print t rest) { s with output := s.output ++ [byte] }
  | .print t [] => goes (.store t s.greetServing) s
  | .store t value => goes (.done t) { s with greetServing := value + 1 }
  | .done _ => s

def greetRun [DecidableEq H] (text : H → List UInt8) (harts : List H) : Greeting H :=
  harts.foldl (greetOnce text) greetStart

-- Ticket `serving` is served, and its holder has printed `sent`.
def Stands (text sent : List UInt8) (serving : UInt32) : GreetPlace → Prop
  | .start => True
  | .spin t => serving ≤ t ∧ (t = serving → sent = [])
  | .print t rest => t = serving ∧ sent ++ rest = text
  | .store t value => t = serving ∧ value = serving ∧ sent = text
  | .done t => t < serving

structure GreetOk (text : H → List UInt8) (s : Greeting H) (sent : List UInt8) : Prop where
  nodup : s.tickets.Nodup
  length : s.tickets.length = s.greetTicket.toNat
  holder : ∀ t h, s.tickets[t.toNat]? = some h ↔ (s.place h).myTicket = some t
  bound : s.greetServing ≤ s.greetTicket
  stands : ∀ h, Stands (text h) sent s.greetServing (s.place h)
  output : s.output = (s.tickets.take s.greetServing.toNat).flatMap text ++ sent
  silent : s.greetServing = s.greetTicket → sent = []

theorem toNat_succ {n : UInt32} (room : n.toNat + 1 < 2 ^ 32) : (n + 1).toNat = n.toNat + 1 := by
  rw [UInt32.toNat_add]
  exact Nat.mod_eq_of_lt room

variable {t : UInt32}

section Places

variable {own sent : List UInt8} {serving : UInt32} {place : GreetPlace} (stands : Stands own sent serving place)
include stands

theorem Stands.other (other : place.myTicket ≠ some serving) (more : List UInt8) : Stands own more serving place := by
  cases place with
  | start => trivial
  | spin t => exact ⟨stands.1, fun same => absurd (congrArg some same) other⟩
  | print t rest => exact absurd (congrArg some stands.1) other
  | store t value => exact absurd (congrArg some stands.1) other
  | done t => exact stands

theorem Stands.served (other : place.myTicket ≠ some serving) (room : serving.toNat + 1 < 2 ^ 32) :
    Stands own [] (serving + 1) place := by
  cases place with
  | start => trivial
  | spin t =>
    have differs : serving.toNat ≠ t.toNat := fun same => other (congrArg some (UInt32.toNat_inj.mp same.symm))
    have before := UInt32.le_iff_toNat_le.mp stands.1
    refine ⟨UInt32.le_iff_toNat_le.mpr ?_, fun _ => rfl⟩
    rw [toNat_succ room]
    omega
  | print t rest => exact absurd (congrArg some stands.1) other
  | store t value => exact absurd (congrArg some stands.1) other
  | done t =>
    have before := UInt32.lt_iff_toNat_lt.mp stands
    refine UInt32.lt_iff_toNat_lt.mpr ?_
    rw [toNat_succ room]
    omega

theorem Stands.locked (inside : place.locked = true) :
    place.myTicket = some serving ∧ sent <+: own := by
  cases place with
  | start | spin | done => cases inside
  | print t rest => exact ⟨congrArg some stands.1, rest, stands.2⟩
  | store t value => exact ⟨congrArg some stands.1, stands.2.2 ▸ List.prefix_rfl⟩

theorem Stands.next (holds : place.myTicket = some serving) :
    place.locked = true ∨ place = .spin serving ∧ sent = [] := by
  cases place with
  | start => cases holds
  | spin t =>
    obtain rfl := Option.some.inj holds
    exact Or.inr ⟨rfl, stands.2 rfl⟩
  | print | store => exact Or.inl rfl
  | done t =>
    obtain rfl := Option.some.inj holds
    exact absurd stands (UInt32.lt_irrefl t)

theorem Stands.done_iff (holds : place.myTicket = some t) :
    t < serving ↔ place = .done t := by
  cases place with
  | start => cases holds
  | spin u =>
    obtain rfl := Option.some.inj holds
    exact ⟨fun before => absurd stands.1 (UInt32.not_le.mpr before), nofun⟩
  | print u rest =>
    obtain rfl := Option.some.inj holds
    exact ⟨fun before => absurd before (stands.1 ▸ UInt32.lt_irrefl u), nofun⟩
  | store u value =>
    obtain rfl := Option.some.inj holds
    exact ⟨fun before => absurd before (stands.1 ▸ UInt32.lt_irrefl u), nofun⟩
  | done u =>
    obtain rfl := Option.some.inj holds
    exact ⟨fun _ => rfl, fun _ => stands⟩

end Places

variable {text : H → List UInt8} {s : Greeting H} {sent : List UInt8} {h : H}

theorem GreetOk.below (ok : GreetOk text s sent) (holds : (s.place h).myTicket = some t) :
    t.toNat < s.tickets.length :=
  (List.getElem?_eq_some_iff.mp ((ok.holder t h).mpr holds)).1

theorem GreetOk.unique (ok : GreetOk text s sent) {g : H} (first : (s.place h).myTicket = some t)
    (second : (s.place g).myTicket = some t) : h = g :=
  Option.some.inj (((ok.holder t h).mpr first).symm.trans ((ok.holder t g).mpr second))

theorem GreetOk.next (ok : GreetOk text s sent) (unserved : s.greetServing.toNat < s.tickets.length) :
    ∃ h, (s.place h).myTicket = some s.greetServing :=
  ⟨_, (ok.holder _ _).mp (List.getElem?_eq_getElem unserved)⟩

section Steps

variable [DecidableEq H] (ok : GreetOk text s sent)
include ok

theorem GreetOk.take [Fintype H] (few : Fintype.card H < 2 ^ 32) (inside : s.place h = .start) :
    GreetOk text
      { s with
        place := update s.place h (.spin s.greetTicket)
        greetTicket := s.greetTicket + 1
        tickets := s.tickets ++ [h] }
      sent := by
  have absent : h ∉ s.tickets := by
    intro member
    obtain ⟨n, found⟩ := List.mem_iff_getElem?.mp member
    have below : n < 2 ^ 32 := by
      have within := (List.getElem?_eq_some_iff.mp found).1
      rw [ok.length] at within
      exact within.trans s.greetTicket.toNat_lt
    have holds := (ok.holder (UInt32.ofNat n) h).mp (by rwa [UInt32.toNat_ofNat_of_lt' below])
    simp [inside, GreetPlace.myTicket] at holds
  have nodup : (s.tickets ++ [h]).Nodup := List.nodup_append.mpr ⟨ok.nodup, List.nodup_singleton h, by
    rintro g member _ last rfl
    exact absent (List.mem_singleton.mp last ▸ member)⟩
  have room : s.greetTicket.toNat + 1 < 2 ^ 32 := by
    have atMost := nodup.length_le_card
    rw [List.length_append, ok.length, List.length_singleton] at atMost
    omega
  have bound := UInt32.le_iff_toNat_le.mp ok.bound
  constructor
  · exact nodup
  · rw [List.length_append, ok.length, toNat_succ room, List.length_singleton]
  · intro t g
    have before := ok.holder t g
    by_cases here : g = h
    · subst here
      have last : s.tickets[t.toNat]? ≠ some g := fun found => absent (List.mem_of_getElem? found)
      simp only [update_self, GreetPlace.myTicket, Option.some.injEq, List.getElem?_append]
      split
      next old =>
        refine iff_of_false last ?_
        rintro rfl
        rw [ok.length] at old
        exact absurd old (Nat.lt_irrefl _)
      next =>
        rw [← UInt32.toNat_inj, ← ok.length]
        rw [List.getElem?_singleton]
        split <;> simp <;> omega
    · simp only [update_of_ne here, List.getElem?_append]
      split
      · exact before
      next outside =>
        refine iff_of_false ?_ fun holds => outside (ok.below holds)
        rw [List.getElem?_singleton]
        split <;> simp [Ne.symm here]
  · refine UInt32.le_iff_toNat_le.mpr ?_
    rw [toNat_succ room]
    exact bound.trans (Nat.le_succ _)
  · intro g
    by_cases here : g = h
    · subst here
      simp only [update_self]
      exact ⟨ok.bound, fun same => ok.silent same.symm⟩
    · simpa only [update_of_ne here] using ok.stands g
  · rw [List.take_append_of_le_length (ok.length ▸ bound)]
    exact ok.output
  · intro served
    have same : s.greetServing.toNat = (s.greetTicket + 1).toNat := congrArg UInt32.toNat served
    rw [toNat_succ room] at same
    omega

-- A step of the hart that is served, which keeps its ticket.
theorem GreetOk.holds {place : GreetPlace}
    {output more : List UInt8} (mine : (s.place h).myTicket = some s.greetServing)
    (keeps : place.myTicket = some s.greetServing) (stands : Stands (text h) more s.greetServing place)
    (printed : output = (s.tickets.take s.greetServing.toNat).flatMap text ++ more) :
    GreetOk text { s with place := update s.place h place, output := output } more := by
  refine { ok with
    holder := fun t g => ?_
    stands := fun g => ?_
    output := printed
    silent := fun same => ?_ }
  · rw [ok.holder t g]
    by_cases here : g = h
    · subst here
      simp only [update_self, mine, keeps]
    · simp only [update_of_ne here]
  · by_cases here : g = h
    · subst here
      simpa only [update_self] using stands
    · simp only [update_of_ne here]
      exact (ok.stands g).other (fun double => here (ok.unique double mine)) more
  · have within := ok.below mine
    rw [ok.length, congrArg UInt32.toNat same] at within
    exact absurd within (Nat.lt_irrefl _)

theorem GreetOk.unlock [Fintype H] (few : Fintype.card H < 2 ^ 32) {value : UInt32}
    (inside : s.place h = .store t value) :
    GreetOk text { s with place := update s.place h (.done t), greetServing := value + 1 } [] := by
  have own := ok.stands h
  rw [inside] at own
  obtain ⟨rfl, rfl, rfl⟩ := own
  have mine : (s.place h).myTicket = some s.greetServing := by rw [inside, GreetPlace.myTicket]
  have within := ok.below mine
  have room : s.greetServing.toNat + 1 < 2 ^ 32 := by
    have atMost := ok.nodup.length_le_card
    omega
  refine { ok with
    holder := fun t g => ?_
    bound := UInt32.le_iff_toNat_le.mpr ?_
    stands := fun g => ?_
    output := ?_
    silent := fun _ => rfl }
  · rw [ok.holder t g]
    by_cases here : g = h
    · subst here
      simp only [update_self, inside, GreetPlace.myTicket]
    · simp only [update_of_ne here]
  · rw [toNat_succ room, ← ok.length]
    exact within
  · by_cases here : g = h
    · subst here
      simp only [update_self]
      refine UInt32.lt_iff_toNat_lt.mpr ?_
      rw [toNat_succ room]
      exact Nat.lt_succ_self _
    · simp only [update_of_ne here]
      exact (ok.stands g).served (fun double => here (ok.unique double mine)) room
  · have line : s.tickets.take (s.greetServing.toNat + 1) = s.tickets.take s.greetServing.toNat ++ [h] := by
      rw [List.take_add_one, (ok.holder _ h).mpr mine, Option.toList_some]
    rw [toNat_succ room, line, List.flatMap_append, List.flatMap_singleton, List.append_nil]
    exact ok.output

theorem GreetOk.step [Fintype H] (few : Fintype.card H < 2 ^ 32) (h : H) :
    ∃ sent, GreetOk text (greetOnce text s h) sent := by
  have own := ok.stands h
  unfold greetOnce
  cases inside : s.place h with
  | start => exact ⟨sent, ok.take few inside⟩
  | spin t =>
    dsimp only
    split
    · exact ⟨sent, ok⟩
    next served =>
      rw [not_not] at served
      subst served
      have mine : (s.place h).myTicket = some s.greetServing := by rw [inside, GreetPlace.myTicket]
      rw [inside] at own
      obtain rfl := own.2 rfl
      exact ⟨[], ok.holds mine rfl ⟨rfl, rfl⟩ ok.output⟩
  | print t rest =>
    rw [inside] at own
    obtain ⟨rfl, whole⟩ := own
    have mine : (s.place h).myTicket = some s.greetServing := by rw [inside, GreetPlace.myTicket]
    cases rest with
    | nil =>
      rw [List.append_nil] at whole
      exact ⟨sent, ok.holds mine rfl ⟨rfl, rfl, whole⟩ ok.output⟩
    | cons byte rest =>
      refine ⟨sent ++ [byte], ok.holds mine rfl ⟨rfl, ?_⟩ ?_⟩
      · rw [List.append_assoc]
        exact whole
      · rw [ok.output, List.append_assoc]
  | store t value => exact ⟨[], ok.unlock few inside⟩
  | done t => exact ⟨sent, ok⟩

end Steps

variable [DecidableEq H] [Fintype H]

theorem greetRun_ok (few : Fintype.card H < 2 ^ 32) (text : H → List UInt8) (harts : List H) :
    ∃ sent, GreetOk text (greetRun text harts) sent := by
  have run : ∀ (s : Greeting H) sent, GreetOk text s sent →
      ∃ sent, GreetOk text (harts.foldl (greetOnce text) s) sent := by
    induction harts with
    | nil => exact fun s sent ok => ⟨sent, ok⟩
    | cons h harts ih =>
      intro s sent ok
      obtain ⟨sent, next⟩ := ok.step few h
      exact ih _ sent next
  refine run greetStart [] ?_
  constructor <;> simp [greetStart, GreetPlace.myTicket, Stands]

theorem greetRun_exclusive (few : Fintype.card H < 2 ^ 32) (text : H → List UInt8) (harts : List H) :
    let s := greetRun text harts
    (∀ h g, (s.place h).locked = true → (s.place g).locked = true → h = g) ∧
      (∀ t h, s.tickets[t.toNat]? = some h ↔ (s.place h).myTicket = some t) ∧
      (∀ h t, (s.place h).myTicket = some t → (t < s.greetServing ↔ s.place h = .done t)) ∧
      ∃ sent, s.output = (s.tickets.take s.greetServing.toNat).flatMap text ++ sent ∧
        (sent ≠ [] → ∃ h, (s.place h).locked = true ∧ sent <+: text h) := by
  obtain ⟨sent, ok⟩ := greetRun_ok few text harts
  refine ⟨fun h g first second => ?_, ok.holder, fun h t holds => (ok.stands h).done_iff holds, sent, ok.output,
    fun printed => ?_⟩
  · exact ok.unique ((ok.stands h).locked first).1 ((ok.stands g).locked second).1
  · have unserved : (greetRun text harts).greetServing.toNat < (greetRun text harts).tickets.length := by
      have bound := UInt32.le_iff_toNat_le.mp ok.bound
      have differs : (greetRun text harts).greetServing.toNat ≠ (greetRun text harts).greetTicket.toNat :=
        fun same => printed (ok.silent (UInt32.toNat_inj.mp same))
      rw [ok.length]
      exact Nat.lt_of_le_of_ne bound differs
    obtain ⟨h, holds⟩ := ok.next unserved
    obtain inside | ⟨-, silent⟩ := (ok.stands h).next holds
    · exact ⟨h, inside, ((ok.stands h).locked inside).2⟩
    · exact absurd silent printed

def threeHarts : List (Fin 8) := [2, 2, 2, 2, 2, 2, 0, 1, 0, 0, 1]

theorem greetRun_exclusive_threeHarts :
    let s := greetRun (fun _ => [0x48, 0x69]) threeHarts
    s.output = [0x48, 0x69, 0x48] ∧ (s.place 0).locked = true ∧ ∀ g, (s.place g).locked = true → g = 0 := by
  have inside : ((greetRun (fun _ => [0x48, 0x69]) threeHarts).place 0).locked = true := by decide
  have exclusive := (greetRun_exclusive (by simp) (fun _ => [0x48, 0x69]) threeHarts).1
  exact ⟨by decide, inside, fun g other => exclusive g 0 other inside⟩

omit [Fintype H] in
theorem greetOnce_moves (text : H → List UInt8)
    (ready : (s.place h).locked = true ∨ s.place h = .spin s.greetServing) :
    (greetOnce text s h).place h ≠ s.place h := by
  cases inside : s.place h with
  | start | done t => simp [inside, GreetPlace.locked] at ready
  | spin t =>
    obtain rfl : t = s.greetServing := by simpa [inside, GreetPlace.locked] using ready
    simp [greetOnce, inside]
  | print t rest => cases rest <;> simp [greetOnce, inside]
  | store t value => simp [greetOnce, inside]

-- The hart whose ticket is served is never in its spin loop for good.
theorem greetRun_progress (few : Fintype.card H < 2 ^ 32) (text : H → List UInt8) (harts : List H) :
    let s := greetRun text harts
    (∀ h t, (s.place h).myTicket = some t → s.place h = .done t) ∨
      ∃ g, (s.place g).myTicket = some s.greetServing ∧ (greetOnce text s g).place g ≠ s.place g := by
  obtain ⟨sent, ok⟩ := greetRun_ok few text harts
  refine or_iff_not_imp_right.mpr fun stuck h t holds => ?_
  have ticket := ok.below holds
  by_cases before : t < (greetRun text harts).greetServing
  · exact ((ok.stands h).done_iff holds).mp before
  · have after := UInt32.le_iff_toNat_le.mp (UInt32.not_lt.mp before)
    obtain ⟨g, next⟩ := ok.next (Nat.lt_of_le_of_lt after ticket)
    exact absurd ⟨g, next, greetOnce_moves text (((ok.stands g).next next).imp_right And.left)⟩ stuck

theorem greetRun_progress_threeHarts :
    let s := greetRun (fun _ => [0x48, 0x69]) threeHarts
    (s.place 1).myTicket = some 2 ∧
      ∃ g, (s.place g).myTicket = some s.greetServing ∧
        (greetOnce (fun _ => [0x48, 0x69]) s g).place g ≠ s.place g := by
  have waits : (greetRun (fun _ => [0x48, 0x69]) threeHarts).place 1 = .spin 2 := by rfl
  have holds : ((greetRun (fun _ => [0x48, 0x69]) threeHarts).place 1).myTicket = some 2 := by rw [waits]; rfl
  obtain finished | moves := greetRun_progress (by simp) (fun _ => [0x48, 0x69]) threeHarts
  · have ended := finished 1 2 holds
    rw [waits] at ended
    cases ended
  · exact ⟨holds, moves⟩

end OrangeKernel.Hart
