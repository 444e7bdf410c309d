import OrangeKernel.Memory.Pages

set_option autoImplicit false

namespace OrangeKernel.Memory

open Machine AlignedBlock

def InPage (layout : Layout) (idx x : Nat) : Prop :=
  ∃ pa, indexToPa layout idx = some pa ∧ pa ≤ x ∧ x < pa + pageSize

def RangesApart (start size start' size' : Nat) : Prop :=
  start + size ≤ start' ∨ start' + size' ≤ start

variable {start size start' size' : Nat}

theorem rangesApart_of_bytes (pos : 0 < size) (pos' : 0 < size')
    (apart : ∀ x, start ≤ x → x < start + size → start' ≤ x → x < start' + size' → False) :
    RangesApart start size start' size' := by
  unfold RangesApart
  by_contra overlap
  by_cases before : start ≤ start'
  · exact apart start' before (by omega) (Nat.le_refl _) (by omega)
  · exact apart start (Nat.le_refl _) (by omega) (by omega) (by omega)

theorem RangesApart.symm (apart : RangesApart start size start' size') :
    RangesApart start' size' start size :=
  Or.symm apart

theorem RangesApart.mono {inner innerSize inner' innerSize' : Nat} (apart : RangesApart start size start' size')
    (left : start ≤ inner ∧ inner + innerSize ≤ start + size)
    (right : start' ≤ inner' ∧ inner' + innerSize' ≤ start' + size') :
    RangesApart inner innerSize inner' innerSize' := by
  unfold RangesApart at *
  omega

instance : Std.Symm MemRegionInfo.Apart :=
  ⟨fun _ _ => Or.symm⟩

variable {idx pa x : Nat}

namespace Layout.Ok

variable {layout : Layout} (ok : layout.Ok)
include ok

theorem contains_of_indexToPa (found : indexToPa layout idx = some pa) :
    ∃ r ∈ layout.regions, r.Contains idx ∧ r.addr idx = pa :=
  ok.paToIndex_some (ok.indexToPa_iff.mp found)

theorem region_of_byte {r s : MemRegionInfo} (left : r ∈ layout.regions) (right : s ∈ layout.regions)
    (inLeft : r.base ≤ x ∧ x < r.stop) (inRight : s.base ≤ x ∧ x < s.stop) : r = s := by
  by_contra different
  have apart := ok.apart.forall left right different
  unfold MemRegionInfo.Apart at apart
  omega

theorem inPage_region (inside : InPage layout idx x) :
    ∃ r ∈ layout.regions, r.Contains idx ∧ r.base ≤ x ∧ x < r.stop ∧
      (x - r.base) / pageSize = idx - r.firstIdx := by
  obtain ⟨pa, found, low, high⟩ := inside
  obtain ⟨r, member, contains, rfl⟩ := ok.contains_of_indexToPa found
  have bound := (ok.region r member).addr_lt contains
  refine ⟨r, member, contains, ?_, by omega, ?_⟩
  · unfold MemRegionInfo.addr at low
    omega
  · unfold MemRegionInfo.addr at low high
    apply Nat.div_eq_of_lt_le
    · omega
    · rw [Nat.succ_mul]
      omega

theorem inPage_unique {idx' : Nat} (left : InPage layout idx x) (right : InPage layout idx' x) :
    idx = idx' := by
  obtain ⟨r, member, contains, low, high, page⟩ := ok.inPage_region left
  obtain ⟨s, member', contains', low', high', page'⟩ := ok.inPage_region right
  obtain rfl := ok.region_of_byte member member' ⟨low, high⟩ ⟨low', high'⟩
  unfold MemRegionInfo.Contains at contains contains'
  omega

theorem inPage_of_block {order head : Nat} (block : BlockOk layout order head)
    (addr : indexToPa layout head = some pa) (low : pa ≤ x) (high : x < pa + 2 ^ order * pageSize) :
    ∃ q, Inside order head q ∧ InPage layout q x := by
  obtain ⟨-, r, member, first, last, -⟩ := block
  have pos := Nat.two_pow_pos order
  have contains : r.Contains head := by unfold MemRegionInfo.Contains; omega
  rw [ok.indexToPa_eq member contains] at addr
  cases addr
  have split := Nat.div_add_mod (x - r.addr head) pageSize
  have small := Nat.mod_lt (x - r.addr head) (show 0 < pageSize by decide)
  have few : (x - r.addr head) / pageSize < 2 ^ order := by
    rw [Nat.div_lt_iff_lt_mul (by decide)]
    omega
  generalize (x - r.addr head) / pageSize = page at *
  have inRegion : r.Contains (head + page) := by
    unfold MemRegionInfo.Contains
    omega
  have shift : r.addr (head + page) = r.addr head + pageSize * page := by
    unfold MemRegionInfo.addr
    rw [Nat.sub_add_comm first, Nat.add_mul, Nat.mul_comm page]
    omega
  refine ⟨head + page, by unfold Inside; omega, _, ok.indexToPa_eq member inRegion, ?_⟩
  omega

end Layout.Ok

theorem blocks_apart {layout : Layout} (ok : layout.Ok) {order head order' head' pa' : Nat}
    (block : BlockOk layout order head) (addr : indexToPa layout head = some pa)
    (block' : BlockOk layout order' head') (addr' : indexToPa layout head' = some pa')
    (apart : ∀ q, Inside order head q → ¬ Inside order' head' q) :
    RangesApart pa (2 ^ order * pageSize) pa' (2 ^ order' * pageSize) := by
  apply rangesApart_of_bytes
  · exact Nat.mul_pos (Nat.two_pow_pos order) (by decide)
  · exact Nat.mul_pos (Nat.two_pow_pos order') (by decide)
  · intro x low high low' high'
    obtain ⟨q, inside, page⟩ := ok.inPage_of_block block addr low high
    obtain ⟨q', inside', page'⟩ := ok.inPage_of_block block' addr' low' high'
    exact apart q inside (ok.inPage_unique page page' ▸ inside')

end OrangeKernel.Memory
