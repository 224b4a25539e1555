import KsSql.Util.Bytes
import Mathlib.Data.BitVec

/-!
# CRC-32

The standard CRC-32, bit by bit: the register starts with all bits set, takes a byte at a time into
its low end, is shifted out eight times, and is complemented in the end. A shift loses nothing, because
the polynomial sets the bit that the shift has cleared (`crcShift_injective`). So the register behind a
text determines the register before it, and a text in which one byte is exchanged has another checksum
(`crc32_exchange`).
-/

namespace KsSql

/-- The generator polynomial, least significant bit first. -/
def crcPolynomial : BitVec 32 := 0xEDB88320#32

/-- Shift the register by one bit. -/
def crcShift (c : BitVec 32) : BitVec 32 :=
  if c.getLsbD 0 then (c >>> 1) ^^^ crcPolynomial else c >>> 1

/-- Shift the register `n` times. -/
def crcShifts : Nat → BitVec 32 → BitVec 32
  | 0, c => c
  | n + 1, c => crcShifts n (crcShift c)

/-- Take a byte into the register. -/
def crcByte (c : BitVec 32) (b : UInt8) : BitVec 32 := crcShifts 8 (c ^^^ b.toBitVec.setWidth 32)

/-- The register behind a text. -/
def crcBytes (c : BitVec 32) (l : Bytes) : BitVec 32 := l.foldl crcByte c

/-- `crc32fast::Hasher` over one text. -/
def crc32 (l : Bytes) : Nat := (~~~ crcBytes (BitVec.allOnes 32) l).toNat

theorem crc32_lt (l : Bytes) : crc32 l < 2 ^ 32 := BitVec.isLt _

/-- The highest bit behind a shift is the lowest bit before it. -/
theorem getLsbD_crcShift_high (c : BitVec 32) : (crcShift c).getLsbD 31 = c.getLsbD 0 := by
  have hout : (c >>> 1).getLsbD 31 = false := by
    rw [BitVec.getLsbD_ushiftRight]
    exact BitVec.getLsbD_of_ge c 32 le_rfl
  rw [crcShift]
  split <;> rename_i hlow
  · rw [BitVec.getLsbD_xor, hout, hlow]
    rfl
  · rw [hout, Bool.eq_false_iff.2 hlow]

/-- **A shift loses nothing.** -/
theorem crcShift_injective : Function.Injective crcShift := by
  intro a b h
  have hlow : a.getLsbD 0 = b.getLsbD 0 := by
    rw [← getLsbD_crcShift_high, h, getLsbD_crcShift_high]
  have hshift : a >>> 1 = b >>> 1 := by
    rw [crcShift, crcShift, ← hlow] at h
    split at h
    · exact (BitVec.xor_left_inj _).1 h
    · exact h
  refine BitVec.eq_of_getLsbD_eq fun i _ ↦ ?_
  rcases i with - | i
  · exact hlow
  · have hbit := congrArg (BitVec.getLsbD · i) hshift
    simp only [BitVec.getLsbD_ushiftRight, Nat.add_comm 1 i] at hbit
    exact hbit

theorem crcShifts_injective : ∀ n : Nat, Function.Injective (crcShifts n)
  | 0 => Function.injective_id
  | n + 1 => (crcShifts_injective n).comp crcShift_injective

/-- A byte taken in loses nothing of the register. -/
theorem crcByte_injective (b : UInt8) : Function.Injective (crcByte · b) := fun _ _ h ↦
  (BitVec.xor_left_inj _).1 (crcShifts_injective 8 h)

/-- Nor does it hide the byte. -/
theorem crcByte_right_injective (c : BitVec 32) : Function.Injective (crcByte c) := by
  intro b b' h
  have hwide := (BitVec.xor_right_inj _).1 (crcShifts_injective 8 h)
  have hnat := congrArg BitVec.toNat hwide
  simp only [BitVec.toNat_setWidth, UInt8.toNat_toBitVec] at hnat
  rw [Nat.mod_eq_of_lt (b.toNat_lt.trans (by norm_num)),
    Nat.mod_eq_of_lt (b'.toNat_lt.trans (by norm_num))] at hnat
  exact UInt8.toNat_inj.1 hnat

theorem crcBytes_injective : ∀ l : Bytes, Function.Injective (crcBytes · l)
  | [] => Function.injective_id
  | b :: l => (crcBytes_injective l).comp (crcByte_injective b)

theorem crcBytes_append (c : BitVec 32) (l l' : Bytes) :
    crcBytes c (l ++ l') = crcBytes (crcBytes c l) l' := List.foldl_append ..

/-- The checksum tells the registers apart. -/
theorem crc32_eq_iff {l l' : Bytes} :
    crc32 l = crc32 l' ↔ crcBytes (BitVec.allOnes 32) l = crcBytes (BitVec.allOnes 32) l' := by
  rw [crc32, crc32, BitVec.toNat_inj, BitVec.not_inj]

/-- **The checksum detects the exchange of a byte**, and with it every change to a single bit. -/
theorem crc32_exchange (pre post : Bytes) {b b' : UInt8} :
    crc32 (pre ++ b :: post) = crc32 (pre ++ b' :: post) ↔ b = b' := by
  refine ⟨fun h ↦ ?_, fun h ↦ by rw [h]⟩
  rw [crc32_eq_iff, crcBytes_append, crcBytes_append] at h
  exact crcByte_right_injective _ (crcBytes_injective post h)

/-- Zero bytes leave a cleared register cleared. -/
theorem crcBytes_replicate_zero : ∀ n : Nat, crcBytes 0 (List.replicate n 0) = 0
  | 0 => rfl
  | n + 1 => by
    have hzero : crcByte 0 0 = 0 := by decide
    rw [List.replicate_succ, crcBytes, List.foldl_cons, hzero]
    exact crcBytes_replicate_zero n

/-- The checksum of the nine digits, as the standard gives it. -/
example : crc32 (bytes "123456789") = 0xCBF43926 := by decide +kernel

end KsSql
