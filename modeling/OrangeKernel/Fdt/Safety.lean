import OrangeKernel.Fdt.Compatible
import OrangeKernel.Fdt.Regions

set_option autoImplicit false

namespace OrangeKernel.Fdt

open ByteScan BigEndian

def Blob.upTo (fdt : Blob) (limit : Nat) : Blob := { fdt with bytes := fdt.bytes.take limit }

theorem WellFormed.take {bytes : List UInt8} {h : BlobHeader} (formed : WellFormed bytes h) :
    WellFormed (bytes.take h.total.toNat) h := by
  have header := formed.totalBounds.1
  have cell : ∀ {i : Nat} {v : UInt32}, Holds bytes i (be32 v) → i + 4 ≤ 40 →
      Holds (bytes.take h.total.toNat) i (be32 v) := fun holds inside => holds.take (by rw [be32_length]; omega)
  have block : ∀ {start size : Nat}, start + size ≤ h.total.toNat →
      ((bytes.take h.total.toNat).drop start).take size = (bytes.drop start).take size := fun inside => by
    rw [List.drop_take, List.take_take, Nat.min_eq_left (by omega)]
  exact
    { formed with
      magic := cell formed.magic (by decide)
      total := cell formed.total (by decide)
      offset := cell formed.offset (by decide)
      stringOffset := cell formed.stringOffset (by decide)
      reserveOffset := cell formed.reserveOffset (by decide)
      stringSize := cell formed.stringSize (by decide)
      size := cell formed.size (by decide)
      tree := by
        rw [block formed.stringsBlock.2, block formed.structBlock.2.2]
        exact formed.tree }

theorem Accepts.upTo {fdt : Blob} (accepts : Accepts fdt) (whole : fdt.declared ≤ fdt.bytes.length) :
    ∃ h doc, Describes (fdt.upTo fdt.declared) h doc := by
  obtain ⟨h, doc, describes⟩ := accepts.describes whole
  have declared := Blob.declared_holds describes.formed.total
  have formed : WellFormed (fdt.upTo fdt.declared).bytes h := declared ▸ describes.formed.take
  have long : (fdt.upTo fdt.declared).bytes.length = fdt.declared := by simp [Blob.upTo, whole]
  have header := describes.formed.totalBounds.1
  have total : ∀ total, Holds (fdt.upTo fdt.declared).bytes 4 (be32 total) →
      total.toNat ≤ (fdt.upTo fdt.declared).bytes.length := fun total holds => by
    rw [long, Blob.declared_holds holds.of_take]
  have decides : Runs True (fdtCheckHeader (fdt.upTo fdt.declared)) _ :=
    fdtCheckHeader_decides accepts.placed.1 accepts.placed.2 (by rw [long, declared]; exact header) total
  obtain ⟨fuel, result, answered⟩ := decides.ends trivial
  rcases decides.post fuel result answered with ⟨rfl, -⟩ | ⟨-, none⟩
  · refine Accepts.describes ⟨fuel, answered⟩ ?_
    rw [Blob.declared_holds formed.total, long, declared]
  · exact absurd ⟨h, formed⟩ none

theorem fdtCheckHeader_runs {fdt : Blob} (long : headerSize ≤ fdt.bytes.length)
    (whole : ∀ total, Holds fdt.bytes 4 (be32 total) → total.toNat ≤ fdt.bytes.length) :
    Runs True (fdtCheckHeader fdt) fun _ => True := by
  by_cases bad : fdt.addr = 0 ∨ fdt.addr &&& 3 ≠ 0
  · unfold fdtCheckHeader
    rw [if_pos bad]
    exact Runs.pure trivial
  · obtain ⟨placed, aligned⟩ := not_or.mp bad
    exact (fdtCheckHeader_decides placed (not_not.mp aligned) long whole).weaken fun _ _ => trivial

def Measurable (text : Option Text) : Prop := ∀ t, text = some t → t.chars.length < 2 ^ 32

def fdtIsNode (fdt : Blob) (offset : Int) : Scan Bool := do
  let structBase ← fdt.offDtStruct
  let size ← fdt.sizeDtStruct
  fdtIsNodeOffset fdt.bytes structBase size offset

structure ReadersSafe (fdt : Blob) : Prop where
  pathOffset : ∀ path, Contained (fdtPathOffset fdt path) ∧ Terminates (fdtPathOffset fdt path)
  isNodeOffset : ∀ offset, Contained (fdtIsNode fdt offset) ∧ Terminates (fdtIsNode fdt offset)
  getprop : ∀ node name, Contained (fdtGetprop fdt node name) ∧
    (Measurable name → Terminates (fdtGetprop fdt node name))
  findCompatible : ∀ compatible, Contained (fdtFindCompatible fdt compatible) ∧
    (Measurable compatible → Terminates (fdtFindCompatible fdt compatible))
  memoryRegions : ∀ limit, Contained (fdtGetMemoryRegions fdt limit) ∧ Terminates (fdtGetMemoryRegions fdt limit)
  reservedRegions : ∀ limit,
    Contained (fdtGetReservedMemoryRegions fdt limit) ∧ Terminates (fdtGetReservedMemoryRegions fdt limit)
  memreserveRegions : ∀ limit,
    Contained (fdtGetMemreserveRegions fdt limit) ∧ Terminates (fdtGetMemreserveRegions fdt limit)
  initrdRange : Contained (fdtGetInitrdRange fdt) ∧ Terminates (fdtGetInitrdRange fdt)
  timebase : Contained (fdtGetTimebaseFrequency fdt) ∧ Terminates (fdtGetTimebaseFrequency fdt)

variable {name : Text}

section Described

variable {ending : Prop} {fdt : Blob} {h : BlobHeader} {doc : Document} (describes : Describes fdt h doc)
include describes

theorem Describes.pathOffset_runs (path : Option Text) :
    Runs ending (fdtPathOffset fdt path) fun _ => True := by
  cases path with
  | none => exact Runs.pure trivial
  | some path =>
    by_cases absolute : ∃ rest, path.chars = slash :: rest
    · obtain ⟨rest, absolute⟩ := absolute
      exact (describes.pathOffset absolute).weaken fun _ _ => trivial
    · unfold fdtPathOffset
      dsimp only
      rw [if_neg describes.accepts.placed.1]
      refine (Runs.byteAt (by simp [Text.bytes])).bind fun c first => ?_
      rw [if_pos]
      · exact Runs.pure trivial
      · rintro rfl
        cases shape : path.chars with
        | nil => simp [Text.bytes, shape, slash] at first
        | cons a rest => exact absolute ⟨rest, by simpa [Text.bytes, shape] using first⟩

theorem Describes.getprop_runs (node : Int) (short : ending → name.chars.length < 2 ^ 32) :
    Runs ending (fdtGetprop fdt node (some name)) fun found =>
      ∀ ref, found = some ref → ref.data + ref.len.toNat ≤ fdt.bytes.length := by
  by_cases known : ∃ place ∈ doc.places, node = place.node.offset
  · obtain ⟨place, member, rfl⟩ := known
    refine (describes.getprop_at member short).weaken fun found same ref is => ?_
    obtain ⟨p, own, rfl⟩ := Option.map_eq_some_iff.mp (same.trans is)
    exact (describes.property member (ownProperty_some own).1).2.2.fits
  · refine (describes.getprop_none (fun place member same => known ⟨place, member, same⟩) name).weaken ?_
    rintro found rfl ref is
    cases is

theorem Describes.getU64Prop_runs (node : Int) (short : name.chars.length < 2 ^ 32) :
    Runs ending (fdtGetU64Prop fdt node name) fun _ => True := by
  refine (describes.getprop_runs node fun _ => short).bind fun found inside => ?_
  cases found with
  | none => exact Runs.pure trivial
  | some ref =>
    have bound := inside ref rfl
    dsimp only
    split
    · refine (cell_runs (by omega)).bind fun _ _ => ?_
      exact (cell_runs (by omega)).bind fun _ _ => Runs.pure trivial
    split
    · exact (cell_runs (by omega)).bind fun _ _ => Runs.pure trivial
    · exact Runs.pure trivial

theorem Describes.initrdRange_runs :
    Runs ending (fdtGetInitrdRange fdt) fun _ => True := by
  unfold fdtGetInitrdRange
  refine describes.check.bind ?_
  rw [if_neg (not_not.mpr rfl)]
  refine (describes.pathOffset_runs _).bind fun node _ => ?_
  split
  · exact Runs.pure trivial
  refine (describes.getU64Prop_runs node (by decide)).bind fun start _ => ?_
  cases start with
  | none => exact Runs.pure trivial
  | some start =>
    refine (describes.getU64Prop_runs node (by decide)).bind fun stop _ => ?_
    cases stop with
    | none => exact Runs.pure trivial
    | some stop => exact Runs.pure trivial

theorem Describes.timebase_runs :
    Runs ending (fdtGetTimebaseFrequency fdt) fun _ => True := by
  unfold fdtGetTimebaseFrequency
  rw [if_neg describes.accepts.placed.1]
  refine describes.check.bind ?_
  rw [if_neg (not_not.mpr rfl)]
  refine (describes.pathOffset_runs _).bind fun node _ => ?_
  split
  · exact Runs.pure trivial
  refine (describes.getprop_runs node fun _ => by decide).bind fun found inside => ?_
  cases found with
  | none => exact Runs.pure trivial
  | some ref =>
    have bound := inside ref rfl
    dsimp only
    split
    · exact Runs.pure trivial
    · exact (cell_runs (by omega)).bind fun _ _ => Runs.pure trivial

theorem Describes.memoryRegions_runs (limit : Int) :
    Runs ending (fdtGetMemoryRegions fdt limit) fun _ => True := by
  by_cases positive : 0 < limit
  · obtain ⟨limit, rfl⟩ := Int.eq_ofNat_of_zero_le positive.le
    exact (describes.memoryRegions (by omega)).weaken fun _ _ => trivial
  · unfold fdtGetMemoryRegions
    rw [if_pos (Or.inr (by omega))]
    exact Runs.pure trivial

theorem Describes.reservedRegions_runs (limit : Int) :
    Runs ending (fdtGetReservedMemoryRegions fdt limit) fun _ => True := by
  by_cases positive : 0 < limit
  · obtain ⟨limit, rfl⟩ := Int.eq_ofNat_of_zero_le positive.le
    cases found : doc.reservedMemory with
    | none => exact (describes.reserved_none (by omega) found).weaken fun _ _ => trivial
    | some place => exact (describes.reserved_some (by omega) found).weaken fun _ _ => trivial
  · unfold fdtGetReservedMemoryRegions
    rw [if_pos (Or.inr (by omega))]
    exact Runs.pure trivial

theorem Describes.memreserveRegions_runs (limit : Int) :
    Runs ending (fdtGetMemreserveRegions fdt limit) fun _ => True := by
  by_cases positive : 0 < limit
  · obtain ⟨limit, rfl⟩ := Int.eq_ofNat_of_zero_le positive.le
    exact (describes.memreserve (by omega)).weaken fun _ _ => trivial
  · unfold fdtGetMemreserveRegions
    rw [if_pos (by omega)]
    exact Runs.pure trivial

theorem Describes.safe : ReadersSafe fdt where
  pathOffset := fun path => (describes.pathOffset_runs path).both
  isNodeOffset := by
    intro offset
    have runs : Gives True (fdtIsNode fdt offset) _ :=
      describes.offDtStruct.bind (describes.sizeDtStruct.bind (describes.isNode offset))
    exact runs.both
  getprop := by
    intro node name
    cases name with
    | none =>
      have runs : Gives True (fdtGetprop fdt node none) none := Gives.pure _
      exact ⟨runs.contained, fun _ => runs.terminates trivial⟩
    | some name =>
      have runs : Runs (Measurable (some name)) (fdtGetprop fdt node (some name)) _ :=
        describes.getprop_runs node fun short => short name rfl
      exact ⟨runs.contained, runs.terminates⟩
  findCompatible := by
    intro compatible
    cases compatible with
    | none =>
      have runs : Gives True (fdtFindCompatible fdt none) (-1) := Gives.pure _
      exact ⟨runs.contained, fun _ => runs.terminates trivial⟩
    | some compatible =>
      have runs : Gives (Measurable (some compatible)) (fdtFindCompatible fdt (some compatible)) _ :=
        describes.findCompatible fun short => short compatible rfl
      exact ⟨runs.contained, runs.terminates⟩
  memoryRegions := fun limit => (describes.memoryRegions_runs limit).both
  reservedRegions := fun limit => (describes.reservedRegions_runs limit).both
  memreserveRegions := fun limit => (describes.memreserveRegions_runs limit).both
  initrdRange := describes.initrdRange_runs.both
  timebase := describes.timebase_runs.both

end Described

theorem fdtReaders_contained (fdt : Blob) (header : headerSize ≤ fdt.bytes.length)
    (whole : fdt.declared ≤ fdt.bytes.length) :
    (Contained (fdtCheckHeader (fdt.upTo (max headerSize fdt.declared))) ∧
      Terminates (fdtCheckHeader (fdt.upTo (max headerSize fdt.declared)))) ∧
    (Accepts fdt → ReadersSafe (fdt.upTo fdt.declared)) := by
  have size : headerSize = 40 := rfl
  constructor
  · have long : (fdt.upTo (max headerSize fdt.declared)).bytes.length = max headerSize fdt.declared := by
      simp only [Blob.upTo, List.length_take]
      omega
    refine Runs.both (fdtCheckHeader_runs (by omega) fun total holds => ?_)
    rw [long, Blob.declared_holds holds.of_take]
    exact Nat.le_max_right _ _
  · intro accepts
    obtain ⟨h, doc, describes⟩ := accepts.upTo whole
    exact describes.safe

theorem fdtReaders_contained_memory :
    headerSize ≤ memoryBlob.bytes.length ∧ memoryBlob.declared ≤ memoryBlob.bytes.length ∧
    Accepts memoryBlob ∧
      ReadersSafe (memoryBlob.upTo memoryBlob.declared) :=
  ⟨by decide +kernel, memoryBlob_whole, memoryBlob_accepted,
    (fdtReaders_contained memoryBlob (by decide +kernel) memoryBlob_whole).2 memoryBlob_accepted⟩

theorem getpropToken_endless {bytes : List UInt8} {stringsBase stop : Nat} {s : PropState}
    (below : s.cur < stop) (token : CellIs bytes s.cur fdtProp) (own : s.depth = 0)
    (endless : Endless (strLen name.bytes 0)) : Endless (getpropToken bytes stringsBase stop name s) := by
  unfold getpropToken
  rw [if_pos below]
  refine Endless.bind fun fuel t answered => ?_
  obtain rfl : t = fdtProp := Except.ok.inj (answered.symm.trans (token fuel))
  rw [if_neg (by decide), if_neg (by decide), if_pos rfl]
  refine Endless.bind fun _ len _ => Endless.bind fun _ nameoff _ => ?_
  refine Endless.left ?_
  simp only [own, decide_true, andAlso, if_true]
  exact Endless.left endless

theorem sampleBlob_endless (endless : Endless (strLen name.bytes 0)) :
    Endless (fdtGetprop sampleBlob 0 (some name)) := by
  obtain ⟨h, doc, describes⟩ := sampleBlob_accepted.describes (by decide)
  have checks : Gives True (fdtCheckHeader sampleBlob) 0 := describes.check
  have offset : h.offset.toNat = 56 := (cellIs_of_holds describes.formed.offset).unique (fun _ => rfl)
  have size : h.size.toNat = 28 := (cellIs_of_holds describes.formed.size).unique (fun _ => rfl)
  have isNode : Gives True (fdtIsNodeOffset sampleBlob.bytes h.offset.toNat h.size.toNat 0) _ := describes.isNode 0
  rw [offset, size] at isNode
  have node : fdtIsNodeOffset sampleBlob.bytes 56 28 0 100 = .ok true := by decide +kernel
  have rootName : Terminated sampleBlob.bytes 60 0 := ⟨rfl, fun i less => absurd less (Nat.not_lt_zero i)⟩
  have measured : Gives True (strLen sampleBlob.bytes 60) 0 := strLen_runs rootName fun _ => by decide
  -- Validation and the node test succeed; the walk then stands at the property and measures the name.
  refine Endless.bind fun fuel checked answered => ?_
  obtain rfl := checks.post fuel checked answered
  rw [if_neg (by decide)]
  refine Endless.bind fun fuel structBase answered => ?_
  obtain rfl : structBase = 56 := Except.ok.inj (answered.symm.trans rfl)
  refine Endless.bind fun fuel stringsBase _ => ?_
  refine Endless.bind fun fuel size answered => ?_
  obtain rfl : size = 28 := Except.ok.inj (answered.symm.trans rfl)
  rw [if_neg (by decide)]
  refine Endless.bind fun fuel found answered => ?_
  obtain rfl := isNode.unique answered node
  rw [if_neg (by decide)]
  dsimp only
  rw [if_neg (by decide)]
  refine Endless.bind fun fuel token answered => ?_
  obtain rfl : token = fdtBeginNode := Except.ok.inj (answered.symm.trans rfl)
  rw [if_neg (by decide)]
  refine Endless.bind fun fuel len answered => ?_
  obtain rfl := measured.post fuel len answered
  exact Endless.first (getpropToken_endless (by decide) (fun _ => rfl) rfl endless)

theorem fdtGetprop_endless :
    headerSize ≤ sampleBlob.bytes.length ∧ sampleBlob.declared ≤ sampleBlob.bytes.length ∧
    Accepts sampleBlob ∧
      ¬ Terminates (fdtGetprop (sampleBlob.upTo sampleBlob.declared) 0 (some (repeated (2 ^ 32)))) := by
  have same : sampleBlob.upTo sampleBlob.declared = sampleBlob := by
    unfold Blob.upTo
    exact congrArg (Blob.mk sampleBlob.addr) (by decide)
  rw [same]
  exact ⟨by decide, by decide, sampleBlob_accepted,
    (sampleBlob_endless (repeated_strLen (Nat.le_refl _))).not_terminates⟩

end OrangeKernel.Fdt
