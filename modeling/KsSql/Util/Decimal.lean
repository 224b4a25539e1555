import KsSql.Util.Bytes
import Mathlib.Algebra.Order.Ring.Rat

/-!
# Decimal numbers

The value of a number as it is written: digits with at most one point among them, an optional sign in
front, and an optional exponent behind (`Decimal.parse`). Numbers that are written differently can have
the same value, and the order of their texts is not the order of their values.
-/

namespace KsSql.Decimal

/-- The number that digits stand for. No digits stand for zero. -/
def natural? (digits : Bytes) : Option Nat :=
  if digits.all fun d ↦ 48 ≤ d && d ≤ 57 then
    some (digits.foldl (fun n d ↦ 10 * n + (d.toNat - 48)) 0)
  else none

/-- Digits with a sign in front. -/
def integer? : Bytes → Option Int
  | 45 :: digits => if digits = [] then none else (natural? digits).map fun n : Nat ↦ -(n : Int)
  | 43 :: digits => if digits = [] then none else (natural? digits).map Nat.cast
  | digits => if digits = [] then none else (natural? digits).map Nat.cast

/-- Digits with at most one point among them. -/
def mantissa? (text : Bytes) : Option Rat :=
  match text.splitOn 46 with
  | [whole] => if whole = [] then none else (natural? whole).map Nat.cast
  | [whole, fraction] =>
    if whole = [] ∧ fraction = [] then none
    else do
      let a ← natural? whole
      let b ← natural? fraction
      some (a + b / 10 ^ fraction.length)
  | _ => none

/-- A number without a sign. -/
def unsigned? (text : Bytes) : Option Rat :=
  match (text.map fun c ↦ if c = 69 then 101 else c).splitOn 101 with
  | [mantissa] => mantissa? mantissa
  | [mantissa, exponent] => do
    let a ← mantissa? mantissa
    let k ← integer? exponent
    some (a * 10 ^ k)
  | _ => none

/-- The value of a text that is a number. -/
def parse : Bytes → Option Rat
  | 45 :: text => (unsigned? text).map fun q ↦ -q
  | 43 :: text => unsigned? text
  | text => unsigned? text

/-! ### The characters of a number -/

/-- A digit, a sign, the point or the letter in front of an exponent. -/
def isPart (c : UInt8) : Bool :=
  (48 ≤ c && c ≤ 57) || c = 43 || c = 45 || c = 46 || c = 69 || c = 101

theorem mem_of_mem_intercalate {c sep : UInt8} : ∀ {pieces : List Bytes},
    c ∈ [sep].intercalate pieces → c = sep ∨ ∃ piece ∈ pieces, c ∈ piece
  | [], h => absurd h List.not_mem_nil
  | [piece], h => .inr ⟨piece, List.mem_singleton_self piece, by
      rwa [List.intercalate_singleton] at h⟩
  | piece :: piece' :: pieces, h => by
    rw [List.intercalate_cons_cons, List.mem_append, List.mem_append] at h
    rcases h with (h | h) | h
    · exact .inr ⟨piece, List.mem_cons_self, h⟩
    · exact .inl (List.mem_singleton.1 h)
    · rcases mem_of_mem_intercalate h with h | ⟨p, hp, hc⟩
      · exact .inl h
      · exact .inr ⟨p, List.mem_cons_of_mem piece hp, hc⟩

/-- What holds of a separator and of the pieces between holds of a text. -/
theorem forall_of_splitOn (sep : UInt8) {text : Bytes} {P : UInt8 → Prop} (hsep : P sep)
    (h : ∀ piece ∈ text.splitOn sep, ∀ c ∈ piece, P c) : ∀ c ∈ text, P c := by
  intro c hc
  have hsplit : [sep].intercalate (text.splitOn sep) = text := List.intercalate_splitOn sep
  rw [← hsplit] at hc
  rcases mem_of_mem_intercalate hc with rfl | ⟨piece, hpiece, hmem⟩
  · exact hsep
  · exact h piece hpiece c hmem

theorem isPart_of_natural? {digits : Bytes} {n : Nat} (h : natural? digits = some n) :
    ∀ c ∈ digits, isPart c = true := by
  rw [natural?] at h
  split at h
  · rename_i hall
    intro c hc
    rw [isPart, List.all_eq_true.1 hall c hc]
    rfl
  · cases h

theorem isPart_of_integer? {text : Bytes} {k : Int} (h : integer? text = some k) :
    ∀ c ∈ text, isPart c = true := by
  have hdigits : ∀ {β : Type} {digits : Bytes} {f : Nat → β} {b : β},
      (if digits = [] then none else (natural? digits).map f) = some b →
        ∀ c ∈ digits, isPart c = true := by
    intro β digits f b hb
    split at hb
    · cases hb
    · obtain ⟨n, hn, -⟩ := Option.map_eq_some_iff.1 hb
      exact isPart_of_natural? hn
  rw [integer?.eq_def] at h
  split at h
  · exact List.forall_mem_cons.2 ⟨rfl, hdigits h⟩
  · exact List.forall_mem_cons.2 ⟨rfl, hdigits h⟩
  · exact hdigits h

theorem isPart_of_mantissa? {text : Bytes} {q : Rat} (h : mantissa? text = some q) :
    ∀ c ∈ text, isPart c = true := by
  refine forall_of_splitOn 46 rfl fun piece hpiece ↦ ?_
  rw [mantissa?] at h
  split at h
  · rename_i whole heq
    rw [heq, List.mem_singleton] at hpiece
    subst hpiece
    split at h
    · cases h
    · obtain ⟨n, hn, -⟩ := Option.map_eq_some_iff.1 h
      exact isPart_of_natural? hn
  · rename_i whole fraction heq
    split at h
    · cases h
    · obtain ⟨a, ha, h⟩ := Option.bind_eq_some_iff.1 h
      obtain ⟨b, hb, -⟩ := Option.bind_eq_some_iff.1 h
      rw [heq, List.mem_cons, List.mem_singleton] at hpiece
      rcases hpiece with rfl | rfl
      · exact isPart_of_natural? ha
      · exact isPart_of_natural? hb
  · cases h

theorem isPart_of_unsigned? {text : Bytes} {q : Rat} (h : unsigned? text = some q) :
    ∀ c ∈ text, isPart c = true := by
  have hmapped : ∀ c ∈ text.map fun c ↦ if c = 69 then 101 else c, isPart c = true := by
    refine forall_of_splitOn 101 rfl fun piece hpiece ↦ ?_
    rw [unsigned?] at h
    split at h
    · rename_i mantissa heq
      rw [heq, List.mem_singleton] at hpiece
      exact hpiece ▸ isPart_of_mantissa? h
    · rename_i mantissa exponent heq
      obtain ⟨a, ha, h⟩ := Option.bind_eq_some_iff.1 h
      obtain ⟨k, hk, -⟩ := Option.bind_eq_some_iff.1 h
      rw [heq, List.mem_cons, List.mem_singleton] at hpiece
      rcases hpiece with rfl | rfl
      · exact isPart_of_mantissa? ha
      · exact isPart_of_integer? hk
    · cases h
  intro c hc
  by_cases he : c = 69
  · rw [he]
    rfl
  · simpa only [if_neg he] using hmapped _ (List.mem_map_of_mem hc)

/-- **A number consists of digits, signs, points and exponents.** -/
theorem isPart_of_parse {text : Bytes} {q : Rat} (h : parse text = some q) :
    ∀ c ∈ text, isPart c = true := by
  rw [parse.eq_def] at h
  split at h
  · obtain ⟨r, hr, -⟩ := Option.map_eq_some_iff.1 h
    exact List.forall_mem_cons.2 ⟨rfl, isPart_of_unsigned? hr⟩
  · exact List.forall_mem_cons.2 ⟨rfl, isPart_of_unsigned? h⟩
  · exact isPart_of_unsigned? h

example : parse (bytes "-12.50") = some (-25 / 2) := by decide +kernel

example : parse (bytes "9e1") = some 90 ∧ parse (bytes "ten") = none := by decide +kernel

/-! ### Numbers that are only digits -/

/-- A number without a point and an exponent. -/
theorem unsigned?_of_natural? {digits : Bytes} {n : Nat} (hne : digits ≠ [])
    (h : natural? digits = some n) : unsigned? digits = some (n : Rat) := by
  have hall : ∀ d ∈ digits, (48 ≤ d && d ≤ 57) = true := by
    rw [natural?] at h
    split at h
    · rename_i hall
      exact List.all_eq_true.1 hall
    · cases h
  have hno : ∀ c : UInt8, (48 ≤ c && c ≤ 57) = false → c ∉ digits := fun c hc hmem ↦ by
    rw [hall c hmem] at hc
    cases hc
  have hmap : digits.map (fun c ↦ if c = 69 then (101 : UInt8) else c) = digits :=
    (List.map_congr_left fun c hc ↦ if_neg fun heq : c = 69 ↦ hno 69 (by decide) (heq ▸ hc)).trans
      (List.map_id' digits)
  rw [unsigned?, hmap, List.splitOn_eq_singleton (hno 101 (by decide))]
  show mantissa? digits = _
  rw [mantissa?, List.splitOn_eq_singleton (hno 46 (by decide))]
  show (if digits = [] then none else _) = _
  rw [if_neg hne, h]
  rfl

end KsSql.Decimal
