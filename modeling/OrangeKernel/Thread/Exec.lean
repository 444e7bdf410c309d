import Mathlib.Data.FinEnum
import Mathlib.Data.Set.Finite.List
import OrangeKernel.Cpio.Contained
import OrangeKernel.Thread.UserMemory

set_option autoImplicit false

namespace OrangeKernel.Thread

open Function Memory ByteMemory
open Fdt (Text)

structure BootInfo where
  initrdStart : UInt64
  initrdEnd : UInt64

def BootInfo.archive (boot : BootInfo) (mem : Mem) : List UInt8 :=
  (List.range (boot.initrdEnd.toNat - boot.initrdStart.toNat)).map fun i => mem.byte (boot.initrdStart.toNat + i)

-- The loops of `build_user_program_path`: append while there is room for the NUL.
def appendChars (outSize : Nat) : (chars : List UInt8) → 0 ∉ chars → Text → Option Text
  | [], _, out => some out
  | c :: chars, clean, out =>
    if out.chars.length + 1 ≥ outSize then none
    else
      appendChars outSize chars (fun nul => clean (List.mem_cons_of_mem c nul))
        { chars := out.chars ++ [c]
          noNul := by
            simp only [List.mem_append, List.mem_singleton, not_or]
            exact ⟨out.noNul, fun same => clean (same ▸ List.mem_cons_self)⟩ }

def buildUserProgramPath (name : Text) (outSize : Nat) : Option Text :=
  if outSize = 0 then none
  else do
    let directory := Text.ofAscii "bin/"
    let suffix := Text.ofAscii ".bin"
    let first ← appendChars outSize directory.chars directory.noNul ⟨[], List.not_mem_nil⟩
    let named ← appendChars outSize name.chars name.noNul first
    appendChars outSize suffix.chars suffix.noNul named

def modeTypeMask : UInt32 := 0o170000
def modeRegular : UInt32 := 0o100000

-- `none` when the search never ends or leaves the archive, `none` inside when no regular file of
-- the right size is there.
def findProgram (boot : BootInfo) (fuel : Nat) (name : Text) (mem : Mem) : Option (Option Cpio.FindCtx) :=
  if boot.initrdStart = 0 ∨ boot.initrdEnd ≤ boot.initrdStart then some none
  else
    match buildUserProgramPath name 64 with
    | none => some none
    | some path =>
      match Cpio.cpioFind boot.initrdStart boot.initrdEnd (boot.archive mem) (some path) ⟨true, true, true⟩
          ⟨0, 0, 0, false⟩ fuel with
      | .error _ => none
      | .ok (ret, file) =>
        if ret ≠ 0 ∨ file.mode &&& modeTypeMask ≠ modeRegular ∨ file.size = 0 ∨ userCodeSize < file.size.toNat
        then some none else some (some file)

def execLoadImage (board : Board) (boot : BootInfo) (fuel : Nat) (name : Text) (mem : Mem) (k : Kernel) :
    Option (Option (UInt64 × UInt64) × Mem) := do
  match ← findProgram boot fuel name mem with
  | none => some (none, mem)
  | some file =>
    let busy ← threadUserImageBusy (threadCurrent k) k
    if busy then some (none, mem)
    else
      some (some (UInt64.ofNat (userCodeBase board), file.size),
        copyBytes (userCodeBase board) (boot.initrdStart.toNat + file.data) file.size.toNat 0 mem)

def userResetTrapContext (task : Addr) (k : Kernel) : Kernel :=
  match k.tc task with
  | none => k
  | some _ =>
    { k with tc := Function.update k.tc task (some (resetTrapContext task (k.userStackTop task) (k.userEntry task))) }

-- `none` inside when a byte may not be read or no NUL is found.
def readName (board : Board) (task : Addr) (path : UInt64) (mem : Mem) (k : Kernel) :
    (left : Nat) → Text → Option (Option Text)
  | 0, _ => some none
  | left + 1, name => do
    let at' := path + UInt64.ofNat name.chars.length
    let ok ← userRangeOk board task at' 1 false k
    if !ok then some none
    else
      let c := mem.byte at'.toNat
      if nul : c = 0 then some (some name)
      else
        readName board task path mem k left
          { chars := name.chars ++ [c]
            noNul := by
              simp only [List.mem_append, List.mem_singleton, not_or]
              exact ⟨name.noNul, fun same => nul same.symm⟩ }

-- `tc` is the context of thread `frame`.
def sysExec (board : Board) (boot : BootInfo) (fuel : Nat) (path : UInt64) (frame : Addr) (mem : Mem) (k : Kernel) :
    Option (Int × Mem × Kernel) :=
  match currentUserTask k, k.tc frame with
  | some task, some _ =>
    if path = 0 then some (-1, mem, k)
    else do
      let size ← threadUserGroupSize task k
      if size ≠ 1 then some (-1, mem, k)
      else
        match ← readName board task path mem k 63 ⟨[], List.not_mem_nil⟩ with
        | none => some (-1, mem, k)
        | some name =>
          if name.chars = [] then some (-1, mem, k)
          else
            match ← execLoadImage board boot fuel name mem k with
            | (none, loaded) => some (-1, loaded, k)
            | (some (entry, _), loaded) =>
              let reset := userResetTrapContext task { k with userEntry := Function.update k.userEntry task entry }
              some (1, loaded, { reset with
                tc := Function.update reset.tc frame ((reset.tc frame).map (TrapContext.set .a0 0)) })
  | _, _ => some (-1, mem, k)

def answerEcall (ret : Int) (execReset : Bool) (tc : TrapContext) : TrapContext :=
  let answered := tc.set .a0 (UInt64.ofInt ret)
  if execReset then answered else answered.set .sepc (tc.word .sepc + 4)

def handleUserExec (board : Board) (boot : BootInfo) (fuel : Nat) (frame : Addr) (mem : Mem) (k : Kernel) :
    Option (Int × Mem × Kernel) := do
  let tc ← k.tc frame
  let (ret, loaded, after) ← sysExec board boot fuel (tc.word .a0) frame mem k
  let finish := if 0 ≤ ret then answerEcall 0 true else answerEcall ret false
  some (ret, loaded, { after with tc := Function.update after.tc frame ((after.tc frame).map finish) })

variable {board : Board} {boot : BootInfo} {fuel : Nat} {name : Text} {mem mem' : Mem} {k : Kernel} {frame : Addr}

theorem execLoadImage_cases
    {image : Option (UInt64 × UInt64)} (loads : execLoadImage board boot fuel name mem k = some (image, mem')) :
    (image = none ∧ mem' = mem) ∨
      ∃ size, image = some (UInt64.ofNat (userCodeBase board), size) ∧
        threadUserImageBusy (threadCurrent k) k = some false := by
  unfold execLoadImage at loads
  cases found : findProgram boot fuel name mem with
  | none => simp [found] at loads
  | some program =>
    simp only [found, Option.bind_eq_bind, Option.bind_some] at loads
    cases program with
    | none =>
      simp only [Option.some.injEq, Prod.mk.injEq] at loads
      exact .inl ⟨loads.1.symm, loads.2.symm⟩
    | some file =>
      cases scanned : threadUserImageBusy (threadCurrent k) k with
      | none => simp [scanned] at loads
      | some busy =>
        cases busy with
        | true =>
          simp only [scanned, Option.bind_some, if_true, Option.some.injEq, Prod.mk.injEq] at loads
          exact .inl ⟨loads.1.symm, loads.2.symm⟩
        | false =>
          simp only [scanned, Option.bind_some, Bool.false_eq_true, if_false, Option.some.injEq, Prod.mk.injEq] at loads
          exact .inr ⟨file.size, loads.1.symm, rfl⟩

theorem cpioFind_ends (boot : BootInfo) (mem : Mem) (path : Text) : ByteScan.Runs True
    (Cpio.cpioFind boot.initrdStart boot.initrdEnd (boot.archive mem) (some path) ⟨true, true, true⟩
      ⟨0, 0, 0, false⟩)
    fun _ => True :=
  Cpio.cpioFind_runs (by simp [BootInfo.archive]) _ _ _

theorem findProgram_steady {later : Nat} {program : Option Cpio.FindCtx} (le : fuel ≤ later)
    (finds : findProgram boot fuel name mem = some program) : findProgram boot later name mem = some program := by
  unfold findProgram at finds ⊢
  split at finds
  next none => rw [if_pos none, finds]
  next some =>
    rw [if_neg some]
    cases builds : buildUserProgramPath name 64 with
    | none => rwa [builds] at finds
    | some path =>
      simp only [builds] at finds ⊢
      split at finds
      · cases finds
      next ret file answers =>
        rw [(cpioFind_ends boot mem path).steady le answers]
        exact finds

theorem appendChars_length {outSize : Nat} {chars : List UInt8} {clean : 0 ∉ chars} {out path : Text}
    (room : out.chars.length < outSize) (appends : appendChars outSize chars clean out = some path) :
    path.chars.length < outSize := by
  induction chars generalizing out with
  | nil =>
    cases appends
    exact room
  | cons c chars ih =>
    unfold appendChars at appends
    split at appends
    · cases appends
    next fits =>
      refine ih ?_ appends
      rw [List.length_append, List.length_singleton]
      omega

theorem buildUserProgramPath_length {outSize : Nat} {path : Text}
    (builds : buildUserProgramPath name outSize = some path) : path.chars.length < outSize := by
  unfold buildUserProgramPath at builds
  split at builds
  · cases builds
  next some =>
    obtain ⟨first, directory, builds⟩ := Option.bind_eq_some_iff.mp builds
    obtain ⟨named, name, suffix⟩ := Option.bind_eq_some_iff.mp builds
    have start := appendChars_length (Nat.pos_of_ne_zero some) directory
    exact appendChars_length (appendChars_length start name) suffix

-- There is enough fuel for every search of the archive.
def Searched (boot : BootInfo) (fuel : Nat) (mem : Mem) : Prop :=
  ∀ name, ∃ program, findProgram boot fuel name mem = some program

theorem searched_of_le (boot : BootInfo) (mem : Mem) :
    ∃ bound, ∀ fuel, bound ≤ fuel → Searched boot fuel mem := by
  have ends : ∀ path : Text, ∃ bound, ∀ fuel, bound ≤ fuel → ∃ result,
      Cpio.cpioFind boot.initrdStart boot.initrdEnd (boot.archive mem) (some path) ⟨true, true, true⟩
        ⟨0, 0, 0, false⟩ fuel = .ok result := by
    intro path
    obtain ⟨result, bound, answers⟩ := (cpioFind_ends boot mem path).terminates trivial
    exact ⟨bound, fun fuel enough => ⟨result, answers fuel enough⟩⟩
  choose bound ends using ends
  -- a path has fewer than 64 bytes, so there are finitely many of them
  have finite : {path : Text | path.chars.length < 64}.Finite :=
    (List.finite_length_lt UInt8 64).preimage fun first _ second _ same => by
      cases first
      cases second
      cases same
      rfl
  obtain ⟨most, upper⟩ := (finite.image bound).bddAbove
  refine ⟨most, fun fuel enough name => ?_⟩
  unfold findProgram
  split
  · exact ⟨none, rfl⟩
  · cases builds : buildUserProgramPath name 64 with
    | none => exact ⟨none, rfl⟩
    | some path =>
      have within := upper (Set.mem_image_of_mem bound (buildUserProgramPath_length builds))
      obtain ⟨⟨ret, file⟩, answers⟩ := ends path fuel (within.trans enough)
      simp only [answers]
      split
      · exact ⟨none, rfl⟩
      · exact ⟨some file, rfl⟩

theorem sysExec_cases {path : UInt64}
    {k' : Kernel} {ret : Int} (runs : sysExec board boot fuel path frame mem k = some (ret, mem', k')) :
    (ret = -1 ∧ mem' = mem ∧ k' = k) ∨
      (ret = 1 ∧ threadUserImageBusy (threadCurrent k) k = some false ∧
        ∃ task tc, currentUserTask k = some task ∧ threadUserGroupSize task k = some 1 ∧
          k' = { userResetTrapContext task { k with
            userEntry := update k.userEntry task (UInt64.ofNat (userCodeBase board)) } with tc := tc }) := by
  have refused : ∀ {r : Option (Int × Mem × Kernel)}, r = some (-1, mem, k) → r = some (ret, mem', k') →
      ret = -1 ∧ mem' = mem ∧ k' = k := by
    intro r known result
    simp only [known, Option.some.injEq, Prod.mk.injEq] at result
    exact ⟨result.1.symm, result.2.1.symm, result.2.2.symm⟩
  unfold sysExec at runs
  split at runs
  next task tc current framed =>
    split at runs
    · exact .inl (refused rfl runs)
    · obtain ⟨size, counted, runs⟩ := Option.bind_eq_some_iff.mp runs
      split at runs
      · exact .inl (refused rfl runs)
      next alone =>
        obtain ⟨read, -, runs⟩ := Option.bind_eq_some_iff.mp runs
        cases read with
        | none => exact .inl (refused rfl runs)
        | some name =>
          dsimp only at runs
          split at runs
          · exact .inl (refused rfl runs)
          · obtain ⟨⟨image, loaded⟩, loads, ends⟩ := Option.bind_eq_some_iff.mp runs
            obtain ⟨rfl, same⟩ | ⟨bytes, rfl, idle⟩ := execLoadImage_cases loads
            · exact .inl (refused (by rw [same]) ends)
            · simp only [Option.some.injEq, Prod.mk.injEq] at ends
              obtain ⟨rfl, -, rfl⟩ := ends
              exact .inr ⟨rfl, idle, task, _, current, not_not.mp alone ▸ counted, rfl⟩
  · exact .inl (refused rfl runs)

theorem userResetTrapContext_shape (task : Addr) (k : Kernel) :
    ∃ tc, userResetTrapContext task k = { k with tc := tc } := by
  unfold userResetTrapContext
  split <;> exact ⟨_, rfl⟩

end OrangeKernel.Thread
