import OrangeKernel.Cpio.Contained

set_option autoImplicit false

namespace OrangeKernel.Cpio

open ByteScan
open Fdt (Text Terminated)

variable {bytes : List UInt8}

inductive Walks (bytes : List UInt8) : (cur : Nat) → List Newc → (ret : Int) → Prop
  | bad {cur : Nat} : Answers (cpioRecord bytes bytes.length cur) .bad → Walks bytes cur [] (-1)
  | trailer {cur : Nat} : Answers (cpioRecord bytes bytes.length cur) .trailer → TrailerAt bytes cur →
      Walks bytes cur [] 0
  | entry {cur : Nat} {r : Newc} {rest : List Newc} {ret : Int} : Holds bytes cur r.bytes →
      r.name.chars ≠ trailerName.chars → Walks bytes (cur + r.bytes.length) rest ret →
      Walks bytes cur (r :: rest) ret

theorem Newc.parsed_entry {r : Newc} (cur : Nat) (other : r.name.chars ≠ trailerName.chars) :
    r.parsed cur = .entry (r.call cur) (cur + r.bytes.length) := if_neg other

theorem walks_exists (bytes : List UInt8) (cur : Nat) : ∃ entries ret, Walks bytes cur entries ret := by
  induction left : bytes.length - cur using Nat.strong_induction_on generalizing cur with
  | _ left ih =>
    have reads : Runs True (cpioRecord bytes bytes.length cur) (ParsedAs bytes cur) := cpioRecord_reads cur
    obtain ⟨parsed, answers, parsedAs⟩ := reads.answered
    cases parsed with
    | bad => exact ⟨[], -1, .bad answers⟩
    | trailer => exact ⟨[], 0, .trailer answers parsedAs⟩
    | entry call after =>
      obtain ⟨r, holds, other, -, -⟩ := parsedAs
      have entry := Newc.entryIn holds
      have advances := entry.advances
      have inside := entry.inside
      obtain ⟨rest, ret, walks⟩ := ih _ (by omega) (cur + r.bytes.length) rfl
      exact ⟨r :: rest, ret, .entry holds other walks⟩

section Chain

variable {cur : Nat} {entries : List Newc} {ret : Int}

theorem Walks.makes (walks : Walks bytes cur entries ret) : Makes bytes cur (callsFrom cur entries) ret := by
  induction walks with
  | bad answers => exact Makes.stop answers (.inl ⟨rfl, rfl⟩)
  | trailer answers => exact Makes.stop answers (.inr ⟨rfl, rfl⟩)
  | @entry cur r rest ret holds other _ ih =>
    have answers := cpioRecord_written holds
    rw [r.parsed_entry cur other] at answers
    exact Makes.entry answers ih

theorem Walks.describe (walks : Walks bytes cur entries ret) :
    List.Forall₂ (Describes bytes) (callsFrom cur entries) entries := by
  induction walks with
  | bad => exact .nil
  | trailer => exact .nil
  | entry holds _ _ ih => exact .cons (Newc.call_describes holds) ih

structure Handed (bytes : List UInt8) (call : Call) : Prop where
  name : ∃ n, Terminated bytes call.name n ∧ call.name + n < call.data
  data : call.data + call.size.toNat ≤ bytes.length

theorem EntryIn.handed {call : Call} {after : Nat} (entry : EntryIn bytes cur call after) : Handed bytes call :=
  ⟨entry.name, entry.data.trans entry.inside⟩

def Behind (first second : Call) : Prop := first.data + first.size.toNat + headerSize ≤ second.name

theorem Walks.calls (walks : Walks bytes cur entries ret) :
    (∀ call ∈ callsFrom cur entries, Handed bytes call ∧ cur + headerSize ≤ call.name) ∧
      (callsFrom cur entries).Pairwise Behind := by
  induction walks with
  | bad => exact ⟨nofun, .nil⟩
  | trailer => exact ⟨nofun, .nil⟩
  | @entry cur r rest ret holds other _ ih =>
    have entry := Newc.entryIn holds
    obtain ⟨inside, ordered⟩ := ih
    rw [callsFrom, List.forall_mem_cons, List.pairwise_cons]
    refine ⟨⟨⟨entry.handed, Nat.le_of_eq entry.header.symm⟩, fun call mem => ?_⟩,
      fun call mem => ?_, ordered⟩
    · obtain ⟨handed, behind⟩ := inside call mem
      exact ⟨handed, by omega⟩
    · have behind := (inside call mem).2
      have data := entry.data
      unfold Behind
      omega

def ReachesTrailer (bytes : List UInt8) (cur : Nat) : Prop :=
  ∃ (entries : List Newc) (trailer : Newc), (∀ e ∈ entries, e.name.chars ≠ trailerName.chars) ∧
    trailer.name.chars = trailerName.chars ∧
    Holds bytes cur (entries.flatMap Newc.bytes ++ (trailer.header ++ trailer.name.bytes))

theorem Walks.returns (walks : Walks bytes cur entries ret) :
    ret = -1 ∨ ret = 0 ∧ ReachesTrailer bytes cur := by
  induction walks with
  | bad => exact .inl rfl
  | trailer _ trailerAt =>
    obtain ⟨trailer, isTrailer, holds⟩ := trailerAt
    exact .inr ⟨rfl, [], trailer, nofun, isTrailer, holds⟩
  | @entry cur r rest ret holds other _ ih =>
    refine ih.imp_right fun reached => ?_
    obtain ⟨zero, entries, trailer, named, isTrailer, restHolds⟩ := reached
    refine ⟨zero, r :: entries, trailer, List.forall_mem_cons.mpr ⟨other, named⟩, isTrailer, ?_⟩
    rw [List.flatMap_cons, List.append_assoc]
    exact holds.append restHolds

theorem Walks.runs {σ : Type} {fn : Call → σ → Scan σ} (walks : Walks bytes cur entries ret) (ctx : σ)
    (calls : ∀ call ∈ callsFrom cur entries, ∀ ctx, Runs True (fn call ctx) fun _ => True) :
    Runs True (loop (cpioRound bytes bytes.length fn) (cur, ctx)) fun _ => True := by
  -- The calls that are left are calls of this chain.
  refine Runs.loop (fun s => ∃ rest, Walks bytes s.1 rest ret ∧ callsFrom s.1 rest ⊆ callsFrom cur entries)
    (fun s => bytes.length - s.1) (fun s kept => ?_) ⟨entries, walks, List.Subset.refl _⟩
  obtain ⟨rest, left, subset⟩ := kept
  have record : Runs True (cpioRecord bytes bytes.length s.1) (ParsedAs bytes s.1) := cpioRecord_reads s.1
  cases left with
  | bad answers =>
    refine (record.known answers).bind fun parsed same => ?_
    subst same
    exact Runs.pure trivial
  | trailer answers =>
    refine (record.known answers).bind fun parsed same => ?_
    subst same
    exact Runs.pure trivial
  | @entry _ r rest _ holds other walks =>
    have answers := cpioRecord_written holds
    rw [r.parsed_entry s.1 other] at answers
    refine (record.known answers).bind fun parsed same => ?_
    subst same
    rw [callsFrom, List.cons_subset] at subset
    refine (calls _ subset.1 s.2).bind fun ctx _ => Runs.pure ⟨⟨rest, walks, subset.2⟩, fun _ => ?_⟩
    have entry := Newc.entryIn holds
    have advances := entry.advances
    have inside := entry.inside
    dsimp only
    omega

end Chain

theorem iterate_calls {start stop : UInt64} (ordered : start ≤ stop)
    (placed : bytes.length = stop.toNat - start.toNat) :
    ∃ (calls : List Call) (entries : List Newc) (ret : Int),
      (∀ (σ : Type) (fn : Call → σ → Scan σ) (ctx : σ),
        Agree (cpioIterate start stop bytes (some fn) ctx) (do
          let left ← calls.foldlM (fun ctx call => fn call ctx) ctx
          pure (ret, left)) ∧
        ((∀ call ∈ calls, ∀ ctx, Runs True (fn call ctx) fun _ => True) →
          Runs True (cpioIterate start stop bytes (some fn) ctx) fun _ => True)) ∧
      List.Forall₂ (Describes bytes) calls entries ∧ (∀ call ∈ calls, Handed bytes call) ∧
      calls.Pairwise Behind ∧
      (ret = -1 ∨ ret = 0 ∧ ReachesTrailer bytes 0) := by
  by_cases null : start = 0
  · -- No archive: the arguments are refused.
    have refused : start = 0 ∨ stop = 0 ∨ stop < start := .inl null
    refine ⟨[], [], -1, fun σ fn ctx => ⟨⟨0, fun fuel _ => ?_⟩, fun _ => ?_⟩, .nil, nofun, .nil, .inl rfl⟩
    · simp only [cpioIterate, if_pos refused]
      rfl
    · simp only [cpioIterate, if_pos refused]
      exact Runs.pure trivial
  · obtain ⟨entries, ret, walks⟩ := walks_exists bytes 0
    obtain ⟨handed, behind⟩ := walks.calls
    have accepted := accepts_range null ordered
    refine ⟨callsFrom 0 entries, entries, ret, fun σ fn ctx => ⟨walks.makes.iterate null ordered placed fn ctx,
      fun calls => ?_⟩, walks.describe, fun call mem => (handed call mem).1, behind, walks.returns⟩
    simp only [cpioIterate, if_neg accepted, ← placed]
    exact walks.runs ctx calls

theorem cpioIterate_safe (start stop : UInt64) (bytes : List UInt8) (ordered : start ≤ stop)
    (placed : bytes.length = stop.toNat - start.toNat) :
    ∃ (calls : List Call) (ret : Int),
      (∀ (σ : Type) (fn : Call → σ → Scan σ) (ctx : σ),
        Agree (cpioIterate start stop bytes (some fn) ctx) (do
          let left ← calls.foldlM (fun ctx call => fn call ctx) ctx
          pure (ret, left)) ∧
        ((∀ call ∈ calls, ∀ ctx, Runs True (fn call ctx) fun _ => True) →
          Contained (cpioIterate start stop bytes (some fn) ctx) ∧
            Terminates (cpioIterate start stop bytes (some fn) ctx))) ∧
      (∀ call ∈ calls, Handed bytes call) ∧ calls.Pairwise Behind ∧
        (ret = -1 ∨ ret = 0 ∧ ReachesTrailer bytes 0) ∧
      ∀ (name : Option Text) (wanted : Wanted) (st : FindCtx),
        Contained (cpioFind start stop bytes name wanted st) ∧
          ∃ found after, Answers (cpioFind start stop bytes name wanted st) (found, after) ∧
            (found = 0 → ret = 0) := by
  obtain ⟨calls, entries, ret, iterates, describe, handed, behind, returns⟩ := iterate_calls ordered placed
  have finds : ∀ name wanted st, Runs True (cpioFind start stop bytes name wanted st) fun _ => True :=
    cpioFind_runs placed
  refine ⟨calls, ret, fun σ fn ctx => ⟨(iterates σ fn ctx).1, fun runs => ((iterates σ fn ctx).2 runs).both⟩,
    handed,
    behind, returns, fun name wanted st => ⟨(finds name wanted st).contained, ?_⟩⟩
  cases name with
  | none => exact ⟨-1, st, Answers.pure _, nofun⟩
  | some name =>
    have iterated := (iterates FindCtx (cpioFindCb bytes name wanted) { st with found := false }).1.answers
      (Answers.bind (cpioFindCb_written name wanted st describe) (Answers.pure _))
    by_cases complete : ret = 0
    · refine ⟨(firstNamed name wanted st (calls.zip entries)).1, (firstNamed name wanted st (calls.zip entries)).2,
        Answers.bind iterated ?_, fun _ => complete⟩
      dsimp only
      rw [if_neg (fun differs => differs complete), firstNamed_ret]
      exact Answers.pure _
    · refine ⟨-1, (firstNamed name wanted st (calls.zip entries)).2, Answers.bind iterated ?_, nofun⟩
      dsimp only
      rw [if_pos complete]
      exact Answers.pure _

def cutOff : List UInt8 := (archive twoFiles endOfFiles []).take 200

theorem cpioIterate_safe_cutOff :
    ∃ (calls : List Call) (ret : Int),
      Agree (cpioIterate 0x1000 0x10c8 cutOff (some countFile) 0) (do
        let left ← calls.foldlM (fun ctx call => countFile call ctx) 0
        pure (ret, left)) ∧
      (∀ call ∈ calls, Handed cutOff call) ∧ (ret = -1 ∨ ret = 0 ∧ ReachesTrailer cutOff 0) := by
  obtain ⟨calls, ret, iterates, handed, -, returns, -⟩ :=
    cpioIterate_safe 0x1000 0x10c8 cutOff (by decide) (by decide +kernel)
  exact ⟨calls, ret, (iterates Nat countFile 0).1, handed, returns⟩

end OrangeKernel.Cpio
