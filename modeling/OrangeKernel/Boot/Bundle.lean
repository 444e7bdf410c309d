import OrangeKernel.Boot.Loader
import OrangeKernel.Shared.Wire

set_option autoImplicit false

namespace OrangeKernel.Boot

open ByteMemory Wire
open Memory (Board)

def bundleMagic : Nat := 0x324F4F42

def checksum32 (data : List UInt8) : Nat := total data &&& 0xFFFFFFFF

-- `none` when a value does not fit; Python raises.
def pack (values : List Nat) : Option (List UInt8) :=
  if values.all (· < 0x100000000) then some (values.flatMap (digits 4)) else none

structure Bundle where
  header : List UInt8
  payload : List UInt8

def buildBundle (kernel initrd : List UInt8) : Option Bundle := do
  let fields ← pack [kernel.length, initrd.length, checksum32 kernel, checksum32 initrd]
  let payload := fields ++ kernel ++ initrd
  let header ← pack [bundleMagic, payload.length, checksum32 payload]
  return ⟨header, payload⟩

structure Sized (kernel initrd : List UInt8) : Prop where
  kernel : 1 ≤ kernel.length ∧ kernel.length ≤ 16 * 1024 * 1024
  initrd : 1 ≤ initrd.length ∧ initrd.length ≤ 64 * 1024 * 1024

def sum32 (data : List UInt8) : Nat := total data % 0x100000000

def payloadOf (kernel initrd : List UInt8) : List UInt8 :=
  digits 4 kernel.length ++ (digits 4 initrd.length ++ (digits 4 (sum32 kernel) ++ (digits 4 (sum32 initrd) ++
    (kernel ++ initrd))))

def headerOf (payload : List UInt8) : List UInt8 :=
  digits 4 bundleMagic ++ (digits 4 payload.length ++ digits 4 (sum32 payload))

theorem sum32_lt (data : List UInt8) : sum32 data < 256 ^ 4 := Nat.mod_lt _ (by decide)

theorem checksum32_eq (data : List UInt8) : checksum32 data = sum32 data :=
  Nat.and_two_pow_sub_one_eq_mod (total data) 32

@[simp] theorem payloadOf_length (kernel initrd : List UInt8) :
    (payloadOf kernel initrd).length = 16 + kernel.length + initrd.length := by
  simp [payloadOf]
  omega

theorem pack_eq {values : List Nat} (fit : ∀ value ∈ values, value < 256 ^ 4) :
    pack values = some (values.flatMap (digits 4)) := by
  unfold pack
  rw [if_pos]
  simpa using fit

variable {kernel initrd : List UInt8}

theorem Sized.fits (sized : Sized kernel initrd) :
    16 + kernel.length + initrd.length < 256 ^ 4 := by
  have kernelSize := sized.kernel
  have initrdSize := sized.initrd
  omega

theorem buildBundle_sized (sized : Sized kernel initrd) :
    buildBundle kernel initrd = some ⟨headerOf (payloadOf kernel initrd), payloadOf kernel initrd⟩ := by
  have fits := sized.fits
  have kernelSum := sum32_lt kernel
  have initrdSum := sum32_lt initrd
  have payloadSum := sum32_lt (payloadOf kernel initrd)
  have fields : pack [kernel.length, initrd.length, sum32 kernel, sum32 initrd] = some _ := pack_eq (by simp; omega)
  have header : pack [bundleMagic, (payloadOf kernel initrd).length, sum32 (payloadOf kernel initrd)] = some _ :=
    pack_eq (by simp [bundleMagic]; omega)
  have whole : [kernel.length, initrd.length, sum32 kernel, sum32 initrd].flatMap (digits 4) ++ kernel ++ initrd =
      payloadOf kernel initrd := by
    simp [payloadOf]
  simp only [buildBundle, checksum32_eq, fields, Option.bind_eq_bind, Option.bind_some, whole, header]
  simp [headerOf]

theorem payloadOf_iff {payload : List UInt8} (sized : Sized kernel initrd) :
    payload = payloadOf kernel initrd ↔ 16 ≤ payload.length ∧
      word (payload.take 4) = kernel.length ∧ word ((payload.drop 4).take 4) = initrd.length ∧
      word ((payload.drop 8).take 4) = sum32 kernel ∧ word ((payload.drop 12).take 4) = sum32 initrd ∧
      payload.drop 16 = kernel ++ initrd := by
  have fits := sized.fits
  unfold payloadOf
  rw [eq_digits_append_iff (by omega), eq_digits_append_iff (by omega), eq_digits_append_iff (sum32_lt kernel),
    eq_digits_append_iff (sum32_lt initrd)]
  simp only [List.drop_drop, List.length_drop]
  constructor
  · rintro ⟨-, kernelSize, -, initrdSize, -, kernelSum, last, initrdSum, contents⟩
    exact ⟨by omega, kernelSize, initrdSize, kernelSum, initrdSum, contents⟩
  · rintro ⟨long, kernelSize, initrdSize, kernelSum, initrdSum, contents⟩
    exact ⟨by omega, kernelSize, by omega, initrdSize, by omega, kernelSum, by omega, initrdSum, contents⟩

theorem headerOf_iff {line payload rest : List UInt8} (fits : payload.length < 256 ^ 4) :
    line = headerOf payload ++ payload ++ rest ↔ 12 ≤ line.length ∧
      word (line.take 4) = bundleMagic ∧ word ((line.drop 4).take 4) = payload.length ∧
      word ((line.drop 8).take 4) = sum32 payload ∧ line.drop 12 = payload ++ rest := by
  unfold headerOf
  simp only [List.append_assoc]
  rw [eq_digits_append_iff (by decide), eq_digits_append_iff fits, eq_digits_append_iff (sum32_lt payload)]
  simp only [List.drop_drop, List.length_drop]
  constructor
  · rintro ⟨-, magic, -, size, last, sum, contents⟩
    exact ⟨by omega, magic, size, sum, contents⟩
  · rintro ⟨long, magic, size, sum, contents⟩
    exact ⟨by omega, magic, by omega, size, by omega, sum, contents⟩

theorem digits_inj {value other : Nat} (fits : value < 256 ^ 4) (fitsToo : other < 256 ^ 4)
    (same : digits 4 value = digits 4 other) : value = other := by
  rw [← word_digits fits, ← word_digits fitsToo, same]

theorem bundle_apart {kernel' initrd' : List UInt8} (sized : Sized kernel initrd)
    (sized' : Sized kernel' initrd') {stream further rest : List UInt8}
    (off : OneOff (headerOf (payloadOf kernel initrd) ++ payloadOf kernel initrd) stream) :
    stream ++ further ≠ headerOf (payloadOf kernel' initrd') ++ payloadOf kernel' initrd' ++ rest := by
  intro same
  have fits := sized.fits
  have fits' := sized'.fits
  -- equal fields of the two streams can be taken off together
  have fields : ∀ {value value' : Nat} {xs ys : List UInt8}, digits 4 value ++ xs = digits 4 value' ++ ys →
      digits 4 value = digits 4 value' ∧ xs = ys := fun split =>
    List.append_inj split (by simp)
  simp only [headerOf, List.append_assoc] at off same
  rcases off.append with ⟨magic, rfl, wrong⟩ | ⟨tail, rfl, inTail⟩
  · rw [List.append_assoc] at same
    exact wrong.ne (List.append_inj same (by simp [wrong.length])).1
  rw [List.append_assoc] at same
  obtain ⟨-, same⟩ := fields same
  rcases inTail.append with ⟨size, rfl, wrong⟩ | ⟨last, rfl, inLast⟩
  · -- the lengths in the payload still tell the right size
    rw [List.append_assoc] at same
    obtain ⟨sizes, same⟩ := List.append_inj same (by simp [wrong.length])
    rw [List.append_assoc] at same
    obtain ⟨-, same⟩ := fields same
    simp only [payloadOf, List.append_assoc] at same
    obtain ⟨kernelSize, same⟩ := fields same
    obtain ⟨initrdSize, -⟩ := fields same
    have kernelLength := digits_inj (by omega) (by omega) kernelSize
    have initrdLength := digits_inj (by omega) (by omega) initrdSize
    refine wrong.ne (sizes.trans ?_)
    rw [payloadOf_length, payloadOf_length, kernelLength, initrdLength]
  rw [List.append_assoc] at same
  obtain ⟨sizes, same⟩ := fields same
  have length := digits_inj (by simpa using fits) (by simpa using fits') sizes
  rcases inLast.append with ⟨sum, rfl, wrong⟩ | ⟨received, rfl, wrong⟩
  · rw [List.append_assoc] at same
    obtain ⟨sums, same⟩ := List.append_inj same (by simp [wrong.length])
    obtain ⟨payload, -⟩ := List.append_inj same length
    rw [payload] at wrong
    exact wrong.ne sums
  · rw [List.append_assoc] at same
    obtain ⟨sums, same⟩ := fields same
    obtain ⟨payload, -⟩ := List.append_inj same (wrong.length.trans length)
    have sum : sum32 (payloadOf kernel initrd) = sum32 (payloadOf kernel' initrd') :=
      digits_inj (sum32_lt _) (sum32_lt _) sums
    rw [payload] at wrong
    exact wrong.total_mod (by decide) sum.symm

end OrangeKernel.Boot
