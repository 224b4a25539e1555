import KsSql.Util.Text

/-!
# What trimming and stripping leave

A text is white space, what `trim` leaves, and white space (`exists_trim`); what is left has no white
space at its ends, and is what `trim` finds in whatever white space it stands (`trim_around`). In the same
way a text is a number of copies of a pattern and what `trim_start_matches` leaves, which does not start
with the pattern (`exists_times`), and nothing else is left (`trimStartMatches_times`).
-/

namespace Text

/-- Nothing but white space. -/
def Blank (w : Text) : Prop := ∀ c ∈ w, isWhitespace c = true

instance : DecidablePred Blank := fun w ↦ inferInstanceAs (Decidable (∀ c ∈ w, isWhitespace c = true))

variable {t w w' : Text} {c : Char}

theorem blank_nil : Blank [] := nofun

theorem Blank.append (h : Blank w) (h' : Blank w') : Blank (w ++ w') :=
  List.forall_mem_append.2 ⟨h, h'⟩

/-! ### Trimming -/

theorem trimStart_isSuffix (t : Text) : trimStart t <:+ t := List.dropWhile_suffix _

theorem trimEnd_isPrefix (t : Text) : trimEnd t <+: t := List.rdropWhile_prefix _ _

theorem trim_blank (h : Blank w) : trim w = [] := by
  have hstart : trimStart w = [] := List.dropWhile_eq_nil_iff.2 h
  rw [trim, hstart]
  rfl

/-- A text is what `trim` leaves, with white space around it. -/
theorem exists_trim (t : Text) : ∃ w w', Blank w ∧ Blank w' ∧ t = w ++ trim t ++ w' := by
  obtain ⟨w', hend, hw'⟩ := exists_trimStart_eq t
  refine ⟨t.takeWhile isWhitespace, w', fun c hc ↦ List.mem_takeWhile_imp hc, hw', ?_⟩
  rw [List.append_assoc, ← hend]
  exact List.takeWhile_append_dropWhile.symm

/-- A text that `trim` leaves alone has no white space at its ends. -/
theorem trim_eq_self_iff : trim t = t ↔
    (∀ c ∈ t.head?, isWhitespace c = false) ∧ ∀ c ∈ t.getLast?, isWhitespace c = false := by
  have hhead : trimStart t = t ↔ ∀ c ∈ t.head?, isWhitespace c = false := by
    rcases t with - | ⟨x, t⟩
    · exact iff_of_true rfl fun _ hc ↦ absurd hc (Option.not_mem_none _)
    · refine ⟨fun h c hc ↦ ?_, fun h ↦ ?_⟩
      · obtain rfl := Option.some.inj hc
        by_contra hspace
        have hlength := congrArg List.length h
        rw [trimStart, List.dropWhile_cons_of_pos (eq_true_of_ne_false hspace)] at hlength
        have hle := (trimStart_isSuffix t).length_le
        rw [trimStart] at hle
        rw [List.length_cons] at hlength
        omega
      · exact List.dropWhile_cons_of_neg (by rw [h x rfl]; exact Bool.false_ne_true)
  have hlast : trimEnd t = t ↔ ∀ c ∈ t.getLast?, isWhitespace c = false := by
    rw [trimEnd, List.rdropWhile_eq_self_iff]
    refine ⟨fun h c hc ↦ ?_, fun h hne hspace ↦ ?_⟩
    · obtain ⟨init, rfl⟩ := List.getLast?_eq_some_iff.1 hc
      have hnot := h (List.append_ne_nil_of_right_ne_nil _ (List.cons_ne_nil _ _))
      rw [List.getLast_append_singleton] at hnot
      exact eq_false_of_ne_true hnot
    · rw [h _ (List.getLast?_eq_some_getLast hne)] at hspace
      cases hspace
  rw [← hhead, ← hlast]
  refine ⟨fun h ↦ ?_, fun hboth ↦ by rw [trim, hboth.1, hboth.2]⟩
  -- neither end has lost a character
  have hstart : trimStart t = t := by
    refine (trimStart_isSuffix t).eq_of_length_le ?_
    have hle := (trimEnd_isPrefix (trimStart t)).length_le
    rw [← trim, h] at hle
    exact hle
  refine ⟨hstart, ?_⟩
  rw [trim, hstart] at h
  exact h

/-- What `trim` leaves is left alone by it. -/
theorem trim_trim (t : Text) : trim (trim t) = trim t := by
  refine trim_eq_self_iff.2 ⟨fun c hc ↦ ?_, fun c hc ↦ ?_⟩
  · obtain ⟨rest, hrest⟩ := trimEnd_isPrefix (trimStart t)
    have hhead : (trimStart t).head? = some c := by
      rw [← hrest, List.head?_append, ← trim, hc]
      rfl
    have hnot := List.head?_dropWhile_not isWhitespace t
    rw [← trimStart, hhead] at hnot
    exact hnot
  · have hne : trim t ≠ [] := fun e ↦ by rw [e] at hc; cases hc
    have hnot := List.rdropWhile_last_not isWhitespace (trimStart t) hne
    have hlast := List.getLast?_eq_some_getLast hne
    obtain rfl := Option.some.inj (hlast.symm.trans hc)
    exact eq_false_of_ne_true hnot

/-- White space around a text that `trim` leaves alone. -/
theorem trim_around (ht : trim t = t) (hw : Blank w) (hw' : Blank w') : trim (w ++ t ++ w') = t := by
  rcases t with - | ⟨x, t⟩
  · rw [List.append_nil]
    exact trim_blank (hw.append hw')
  · obtain ⟨hhead, hlast⟩ := trim_eq_self_iff.1 ht
    have hsplit := List.dropLast_append_getLast (List.cons_ne_nil x t)
    have hx : isWhitespace x = false := hhead x rfl
    have hy : isWhitespace ((x :: t).getLast (List.cons_ne_nil x t)) = false :=
      hlast _ (List.getLast?_eq_some_getLast _)
    have hstart : trimStart w = [] := List.dropWhile_eq_nil_iff.2 hw
    have hend : trimEnd w' = [] := List.rdropWhile_eq_nil_iff.2 hw'
    have hleft : trimStart (w ++ x :: (t ++ w')) = x :: t ++ w' := by
      rw [trimStart_append_cons hx, hstart]
      rfl
    rw [List.append_assoc, List.cons_append, trim, hleft, ← hsplit, List.append_assoc,
      List.singleton_append, trimEnd_append_cons hy, hend]

/-- White space at the end makes no difference. -/
theorem trim_append_blank (t : Text) (hw : Blank w) : trim (t ++ w) = trim t := by
  obtain ⟨w₁, w₂, hw₁, hw₂, heq⟩ := exists_trim t
  have haround : t ++ w = w₁ ++ trim t ++ (w₂ ++ w) := by
    rw [← List.append_assoc, ← heq]
  rw [haround]
  exact trim_around (trim_trim t) hw₁ (hw₂.append hw)

/-! ### Stripping -/

/-- Copies of a pattern. -/
def times (n : Nat) (pat : Text) : Text := (List.replicate n pat).flatten

theorem times_succ (n : Nat) (pat : Text) : times (n + 1) pat = pat ++ times n pat := by
  rw [times, List.replicate_succ, List.flatten_cons, times]

theorem times_one (pat : Text) : times 1 pat = pat := by
  rw [times_succ]
  exact List.append_nil pat

variable {pat rest : Text}

/-- All copies of the pattern are taken away. -/
theorem trimStartMatches_times (hpat : pat ≠ []) (hrest : ¬ pat <+: rest) (n : Nat) :
    trimStartMatches pat (times n pat ++ rest) = rest := by
  have hrounds : ∀ n m, n ≤ m → trimRounds pat m (times n pat ++ rest) = rest := by
    intro n
    induction n with
    | zero =>
      rintro (- | m) -
      · rfl
      · exact if_neg fun h ↦ hrest (List.isPrefixOf_iff_prefix.1 h)
    | succ n ih =>
      rintro (- | m) hm
      · exact absurd hm (Nat.not_succ_le_zero n)
      · rw [times_succ, List.append_assoc, trimRounds,
          if_pos (List.isPrefixOf_iff_prefix.2 (List.prefix_append _ _)), List.drop_left]
        exact ih m (Nat.le_of_succ_le_succ hm)
  refine hrounds n _ ?_
  have hlength : n ≤ (times n pat).length := by
    induction n with
    | zero => exact Nat.zero_le _
    | succ n ih =>
      have hpos := List.length_pos_iff.2 hpat
      rw [times_succ, List.length_append]
      omega
  rw [List.length_append]
  omega

/-- A text is copies of the pattern, and what is left. -/
theorem exists_times (hpat : pat ≠ []) (t : Text) : ∃ n,
    t = times n pat ++ trimStartMatches pat t ∧ ¬ pat <+: trimStartMatches pat t := by
  have hrounds : ∀ (m : Nat) (t : Text), t.length ≤ m →
      ∃ n, t = times n pat ++ trimRounds pat m t ∧ ¬ pat <+: trimRounds pat m t := by
    intro m
    induction m with
    | zero =>
      intro t ht
      obtain rfl := List.eq_nil_of_length_eq_zero (Nat.le_zero.1 ht)
      exact ⟨0, rfl, fun h ↦ hpat (List.prefix_nil.1 h)⟩
    | succ m ih =>
      intro t ht
      rw [trimRounds]
      split
      · rename_i hstarts
        obtain ⟨rest, rfl⟩ := List.isPrefixOf_iff_prefix.1 hstarts
        have hpos := List.length_pos_iff.2 hpat
        rw [List.length_append] at ht
        obtain ⟨n, hn, hnot⟩ := ih rest (by omega)
        rw [List.drop_left]
        exact ⟨n + 1, by rw [times_succ, List.append_assoc, ← hn], hnot⟩
      · rename_i hstarts
        exact ⟨0, rfl, fun h ↦ hstarts (List.isPrefixOf_iff_prefix.2 h)⟩
  exact hrounds t.length t le_rfl

end Text
