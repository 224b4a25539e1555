import Mathlib.Data.List.Lex
import Mathlib.Order.Lattice
import Mathlib.Data.UInt
import Mathlib.Tactic.NormNum

/-!
# Byte strings

A `Vec<u8>` is a list of bytes, ordered lexicographically, and a `String` is the byte string of its
UTF-8 encoding: concatenation, prefix tests and comparison of strings are the same operations on
their encodings, so one type serves both. `ByteLen` is the one thing the storage layer asks of the
keys and values it stores: how many bytes their byte string has.
-/

/-- Bytes are ordered by their values. -/
instance UInt8.instLinearOrder : LinearOrder UInt8 where
  le_refl := UInt8.le_refl
  le_trans _ _ _ := UInt8.le_trans
  lt_iff_le_not_ge a b := by
    rw [UInt8.lt_iff_toNat_lt, UInt8.le_iff_toNat_le, UInt8.le_iff_toNat_le]
    omega
  le_antisymm _ _ := UInt8.le_antisymm
  le_total := UInt8.le_total
  toDecidableLE := inferInstance
  toDecidableEq := inferInstance
  toDecidableLT := inferInstance

namespace KsSql

/-- A byte string: `Vec<u8>`, and the UTF-8 encoding of a `String`. -/
abbrev Bytes := List UInt8

/-- Byte strings are ordered lexicographically, and compared for equality byte by byte. -/
instance Bytes.instLinearOrder : LinearOrder Bytes where
  toPartialOrder := inferInstanceAs (PartialOrder (List UInt8))
  le_total := @le_total (List UInt8) _
  toDecidableLE := inferInstanceAs (DecidableLE (List UInt8))
  toDecidableLT := inferInstanceAs (DecidableLT (List UInt8))
  toDecidableEq := instDecidableEqList
  compare a b := if a < b then .lt else if a = b then .eq else .gt
  compare_eq_compareOfLessAndEq a b := by
    unfold compareOfLessAndEq
    congr

instance Bytes.instLawfulBEq : LawfulBEq Bytes := List.instLawfulBEq

/-- The bytes of a text constant of the source. -/
def bytes (s : String) : Bytes := s.toUTF8.data.toList

theorem bytes_injective : Function.Injective bytes := fun _ _ h ↦
  String.toByteArray_inj.1 (ByteArray.ext (Array.toList_inj.1 h))

/-- Different numbers are printed differently. -/
theorem bytes_toString_inj {m n : Nat} : bytes (toString m) = bytes (toString n) ↔ m = n := by
  refine bytes_injective.eq_iff.trans ⟨fun h ↦ ?_, congrArg toString⟩
  have hdigits : Nat.toDigits 10 m = Nat.toDigits 10 n := String.ofList_injective h
  rw [← Nat.ofDigitChars_ten_toDigits (n := m), hdigits, Nat.ofDigitChars_ten_toDigits]

/-- Stored data has a length in bytes: the length of the `Vec<u8>` that holds it. -/
class ByteLen (α : Type) where
  /-- The number of bytes of the stored byte string. -/
  byteLen : α → Nat

export ByteLen (byteLen)

instance : ByteLen Bytes := ⟨List.length⟩

@[simp] theorem byteLen_bytes (b : Bytes) : byteLen b = b.length := rfl

end KsSql
