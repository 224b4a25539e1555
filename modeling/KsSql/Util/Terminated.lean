import Mathlib.Data.List.Basic

/-!
# Terminated texts

Texts that are written one after another, each with the same letter behind it. The stream gives them back
where the letter is not in them. In general it gives them back to a reader who knows how often the letter
is in each of them, and to nobody else (`eq_iff_of_terminated_eq`): a text that stands twice, with the
letter in between, can be cut off before the second time.
-/

variable {α : Type}

/-- Texts, each with a letter behind it. -/
def terminated (c : α) (texts : List (List α)) : List α := texts.flatMap (· ++ [c])

@[simp]
theorem terminated_nil (c : α) : terminated c [] = [] := rfl

@[simp]
theorem terminated_cons (c : α) (x : List α) (texts : List (List α)) :
    terminated c (x :: texts) = x ++ c :: terminated c texts := by
  rw [terminated, List.flatMap_cons, List.append_assoc]
  rfl

/-- A text that ends with a letter and one that does as well: they end at the same place if they have the
letter inside equally often. -/
theorem append_cons_inj_of_count [DecidableEq α] {c : α} {x y s t : List α}
    (h : x ++ c :: s = y ++ c :: t) (hcount : x.count c = y.count c) : x = y ∧ s = t := by
  have hnil : ∀ {x z s t : List α}, c :: s = z ++ c :: t → x.count c = (x ++ z).count c → z = [] := by
    rintro x (- | ⟨d, z⟩) s t heq hcount
    · rfl
    · -- the longer one has the letter once more, at the end of the shorter one
      obtain rfl : c = d := (List.cons.inj heq).1
      rw [List.count_append, List.count_cons_self] at hcount
      omega
  rcases List.append_eq_append_iff.1 h with ⟨z, rfl, heq⟩ | ⟨z, rfl, heq⟩
  · obtain rfl := hnil heq hcount
    exact ⟨(List.append_nil _).symm, (List.cons.inj heq).2⟩
  · obtain rfl := hnil heq hcount.symm
    exact ⟨List.append_nil _, (List.cons.inj heq).2.symm⟩

/-- With the numbers of terminators inside, the stream says which texts were written. -/
theorem terminated_inj [DecidableEq α] {c : α} : ∀ {a b : List (List α)},
    terminated c a = terminated c b → a.map (List.count c) = b.map (List.count c) → a = b
  | [], [], _, _ => rfl
  | x :: a, y :: b, h, hcounts => by
    rw [terminated_cons, terminated_cons] at h
    obtain ⟨hcount, htail⟩ := List.cons.inj hcounts
    obtain ⟨rfl, hrest⟩ := append_cons_inj_of_count h hcount
    rw [terminated_inj hrest htail]

/-- **What a reader has to know.** -/
theorem eq_iff_of_terminated_eq [DecidableEq α] {c : α} {a b : List (List α)}
    (h : terminated c a = terminated c b) : a = b ↔ a.map (List.count c) = b.map (List.count c) :=
  ⟨fun heq ↦ congrArg _ heq, terminated_inj h⟩

/-- A text, and the same text twice: their order is lost. -/
theorem terminated_swap (c : α) (x : List α) (texts : List (List α)) :
    terminated c ((x ++ c :: x) :: x :: texts) = terminated c (x :: (x ++ c :: x) :: texts) := by
  simp only [terminated_cons, List.append_assoc, List.cons_append]
