import KsSql.Util.Bytes

/-!
# Fixed-width little-endian words

Length prefixes on disk are `u32` words in little-endian order. `u32le` writes a number's low 32
bits, as the cast `as u32` followed by `to_le_bytes` does, and `ofLe` reads a byte string back as
a number, whatever its length. A number below `2 ^ 32` survives the round trip.
-/

namespace KsSql

/-- The number whose little-endian digits in base 256 are the given bytes. -/
def ofLe : Bytes → Nat
  | [] => 0
  | b :: rest => b.toNat + 256 * ofLe rest

/-- The `w` low bytes of `n`, least significant first. -/
def toLe : Nat → Nat → Bytes
  | 0, _ => []
  | w + 1, n => UInt8.ofNat n :: toLe w (n / 256)

/-- `(n as u32).to_le_bytes()` -/
def u32le (n : Nat) : Bytes := toLe 4 n

/-- `(n as u64).to_le_bytes()` -/
def u64le (n : Nat) : Bytes := toLe 8 n

@[simp] theorem length_toLe (w n : Nat) : (toLe w n).length = w := by
  induction w generalizing n with
  | zero => rfl
  | succ w ih => rw [toLe, List.length_cons, ih]

@[simp] theorem length_u32le (n : Nat) : (u32le n).length = 4 := length_toLe 4 n

theorem ofLe_toLe (w n : Nat) : ofLe (toLe w n) = n % 256 ^ w := by
  induction w generalizing n with
  | zero => simp [toLe, ofLe, Nat.mod_one]
  | succ w ih =>
    rw [toLe, ofLe, ih, UInt8.toNat_ofNat', pow_succ' 256 w]
    exact (Nat.mod_mul (a := 256)).symm

theorem ofLe_u32le {n : Nat} (h : n < 2 ^ 32) : ofLe (u32le n) = n := by
  rw [u32le, ofLe_toLe, Nat.mod_eq_of_lt (by norm_num at h ⊢; exact h)]

/-- A word of `w` bytes is below `256 ^ w`. -/
theorem ofLe_lt (l : Bytes) : ofLe l < 256 ^ l.length := by
  induction l with
  | nil => exact Nat.one_pos
  | cons b l ih =>
    have hb : b.toNat < 256 := b.toNat_lt
    rw [ofLe, List.length_cons, pow_succ]
    omega

/-- A run of zero bytes reads as zero. -/
theorem ofLe_replicate_zero (w : Nat) : ofLe (List.replicate w 0) = 0 := by
  induction w with
  | zero => rfl
  | succ w ih => rw [List.replicate_succ, ofLe, ih]; rfl

end KsSql
