import Mathlib.Data.List.DropRight
import Mathlib.Data.List.Infix

/-!
# Texts

A text is the list of its characters. `trim` and its kin are those of the standard library of the
source: they go by the property `White_Space` of a character.

The lemmas say what they make of a text with a character in it that they do not take away: what stands
before the character and what stands after it are trimmed on their own (`trim_append_cons`,
`trimStartMatches_append_cons`).
-/

/-- A text. -/
abbrev Text := List Char

namespace Text

/-- The characters with the property `White_Space`. -/
def whiteSpace : Text :=
  [9, 10, 11, 12, 13, 32, 0x85, 0xA0, 0x1680, 0x2000, 0x2001, 0x2002, 0x2003, 0x2004, 0x2005, 0x2006,
    0x2007, 0x2008, 0x2009, 0x200A, 0x2028, 0x2029, 0x202F, 0x205F, 0x3000].map Char.ofNat

/-- `char::is_whitespace` -/
def isWhitespace (c : Char) : Bool := c ∈ whiteSpace

/-- `str::trim_start` -/
def trimStart (t : Text) : Text := t.dropWhile isWhitespace

/-- `str::trim_end` -/
def trimEnd (t : Text) : Text := t.rdropWhile isWhitespace

/-- `str::trim` -/
def trim (t : Text) : Text := trimEnd (trimStart t)

/-- The rounds of `str::trim_start_matches`. -/
def trimRounds (pat : Text) : Nat → Text → Text
  | 0, t => t
  | n + 1, t => if pat.isPrefixOf t then trimRounds pat n (t.drop pat.length) else t

/-- `str::trim_start_matches`, which takes a pattern away as often as the text starts with it. -/
def trimStartMatches (pat t : Text) : Text := trimRounds pat t.length t

/-- The UTF-8 encoding. -/
def utf8 (t : Text) : List UInt8 := t.flatMap String.utf8EncodeChar

variable {c : Char}

/-! ### Trimming -/

/-- What comes before a character that is no white space is trimmed on its own. -/
theorem trimStart_append_cons (hc : isWhitespace c = false) (a b : Text) :
    trimStart (a ++ c :: b) = trimStart a ++ c :: b := by
  rw [trimStart, trimStart, List.dropWhile_append]
  split
  · rename_i h
    rw [List.isEmpty_iff.1 h, List.dropWhile_cons_of_neg (by rw [hc]; nofun), List.nil_append]
  · rfl

/-- What comes after a character that is no white space is trimmed on its own. -/
theorem trimEnd_append_cons (hc : isWhitespace c = false) (a b : Text) :
    trimEnd (a ++ c :: b) = a ++ c :: trimEnd b := by
  have hstart := trimStart_append_cons hc b.reverse a.reverse
  rw [trimStart, trimStart] at hstart
  rw [trimEnd, trimEnd, List.rdropWhile, List.rdropWhile, List.reverse_append, List.reverse_cons,
    List.append_assoc, List.singleton_append, hstart, List.reverse_append, List.reverse_cons,
    List.reverse_reverse, List.append_assoc, List.singleton_append]

theorem trim_append_cons (hc : isWhitespace c = false) (a b : Text) :
    trim (a ++ c :: b) = trimStart a ++ c :: trimEnd b := by
  rw [trim, trimStart_append_cons hc, trimEnd_append_cons hc]

/-- Trimming the end takes white space away. -/
theorem exists_trimStart_eq (t : Text) :
    ∃ w, trimStart t = trim t ++ w ∧ ∀ c ∈ w, isWhitespace c = true := by
  refine ⟨((trimStart t).reverse.takeWhile isWhitespace).reverse, ?_, fun c hc ↦ ?_⟩
  · rw [trim, trimEnd, List.rdropWhile, ← List.reverse_append, List.takeWhile_append_dropWhile,
      List.reverse_reverse]
  · exact List.mem_takeWhile_imp (List.mem_reverse.1 hc)

/-! ### Taking a pattern away -/

/-- Enough rounds are as good as more. -/
theorem trimRounds_of_le {pat : Text} (hpat : pat ≠ []) : ∀ {n m : Nat} {t : Text},
    t.length ≤ n → n ≤ m → trimRounds pat m t = trimRounds pat n t
  | 0, 0, _, _, _ => rfl
  | 0, m + 1, t, ht, _ => by
    obtain rfl := List.eq_nil_of_length_eq_zero (Nat.le_zero.1 ht)
    rw [trimRounds, trimRounds, if_neg]
    intro h
    exact hpat (List.prefix_nil.1 (List.isPrefixOf_iff_prefix.1 h))
  | n + 1, 0, _, _, hm => absurd hm (Nat.not_succ_le_zero n)
  | n + 1, m + 1, t, ht, hm => by
    have hpos := List.length_pos_iff.2 hpat
    rw [trimRounds, trimRounds]
    refine if_congr Iff.rfl (trimRounds_of_le hpat ?_ (Nat.le_of_succ_le_succ hm)) rfl
    rw [List.length_drop]
    omega

/-- A pattern without the character reaches no further than it. -/
theorem isPrefixOf_append_cons {pat : Text} (hc : c ∉ pat) (a b : Text) :
    pat.isPrefixOf (a ++ c :: b) = pat.isPrefixOf a := by
  rw [Bool.eq_iff_iff, List.isPrefixOf_iff_prefix, List.isPrefixOf_iff_prefix]
  refine ⟨fun h ↦ ?_, fun h ↦ h.trans (List.prefix_append a _)⟩
  rcases Nat.lt_or_ge a.length pat.length with hlt | hle
  · refine absurd ?_ hc
    have hwhole : a ++ [c] <+: a ++ c :: b :=
      ⟨b, by rw [List.append_assoc, List.singleton_append]⟩
    have hprefix : a ++ [c] <+: pat := by
      refine List.prefix_of_prefix_length_le hwhole h ?_
      rw [List.length_append, List.length_singleton]
      exact hlt
    exact hprefix.subset (List.mem_append_right a List.mem_cons_self)
  · exact List.prefix_of_prefix_length_le h (List.prefix_append a _) hle

theorem trimRounds_append_cons {pat : Text} (hc : c ∉ pat) (b : Text) : ∀ (n : Nat) (a : Text),
    trimRounds pat n (a ++ c :: b) = trimRounds pat n a ++ c :: b
  | 0, _ => rfl
  | n + 1, a => by
    rw [trimRounds, trimRounds, isPrefixOf_append_cons hc]
    split
    · rename_i h
      rw [List.drop_append_of_le_length (List.isPrefixOf_iff_prefix.1 h).length_le,
        trimRounds_append_cons hc b n]
    · rfl

/-- A pattern without the character is taken away from what comes before it. -/
theorem trimStartMatches_append_cons {pat : Text} (hpat : pat ≠ []) (hc : c ∉ pat) (a b : Text) :
    trimStartMatches pat (a ++ c :: b) = trimStartMatches pat a ++ c :: b := by
  rw [trimStartMatches, trimStartMatches, trimRounds_append_cons hc]
  have hlen : a.length ≤ (a ++ c :: b).length := by
    rw [List.length_append]
    omega
  rw [trimRounds_of_le hpat le_rfl hlen]

/-! ### Encoding -/

theorem utf8_append (a b : Text) : utf8 (a ++ b) = utf8 a ++ utf8 b := List.flatMap_append

theorem utf8_cons (c : Char) (t : Text) : utf8 (c :: t) = String.utf8EncodeChar c ++ utf8 t :=
  List.flatMap_cons

end Text
