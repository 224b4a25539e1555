import Mathlib.Data.List.Basic
import Mathlib.Data.List.Perm.Basic

/-!
# Two tests on a list

Whether two tests select the same elements of a list, where an element is seen only through its image
under a map that decides both tests. Filtering comes to the same exactly if the tests agree on every
element (`map_filter_perm_iff`), and finding the first few elements that pass exactly if they agree on
those that come before enough are found (`map_take_filter_eq_iff`).
-/

variable {α β : Type} {f : α → β} {p q : α → Bool} {l : List α}

/-- To collect the images of the elements that pass is to filter first. -/
theorem filterMap_ite_eq_map_filter (p : α → Bool) (f : α → β) (l : List α) :
    l.filterMap (fun a ↦ if p a then some (f a) else none) = (l.filter p).map f := by
  induction l with
  | nil => rfl
  | cons a l ih =>
    rw [List.filterMap_cons, List.filter_cons, ih]
    by_cases h : p a = true
    · rw [if_pos h, if_pos h, List.map_cons]
    · rw [if_neg h, if_neg h]

/-- The images of elements decide how they are tested. -/
def Decides (f : α → β) (p : α → Bool) (l : List α) : Prop :=
  ∀ a ∈ l, ∀ b ∈ l, f a = f b → p a = p b

theorem Decides.of_cons {a : α} (h : Decides f p (a :: l)) : Decides f p l :=
  fun b hb c hc ↦ h b (List.mem_cons_of_mem a hb) c (List.mem_cons_of_mem a hc)

/-- An element whose image is among those of the elements that pass passes, too. -/
theorem Decides.pass {a : α} (h : Decides f p l) (ha : a ∈ l) (hmem : f a ∈ (l.filter p).map f) :
    p a = true := by
  obtain ⟨b, hb, heq⟩ := List.mem_map.1 hmem
  rw [List.mem_filter] at hb
  exact (h a ha b hb.1 heq.symm).trans hb.2

/-- **Two tests select the same images exactly if they agree.** -/
theorem map_filter_perm_iff (hp : Decides f p l) (hq : Decides f q l) :
    ((l.filter p).map f).Perm ((l.filter q).map f) ↔ ∀ a ∈ l, p a = q a := by
  refine ⟨fun h a ha ↦ ?_, fun h ↦ (List.filter_congr h) ▸ List.Perm.refl _⟩
  rw [Bool.eq_iff_iff]
  constructor
  · exact fun hpa ↦ hq.pass ha
      (h.mem_iff.1 (List.mem_map_of_mem (List.mem_filter.2 ⟨ha, hpa⟩)))
  · exact fun hqa ↦ hp.pass ha
      (h.mem_iff.2 (List.mem_map_of_mem (List.mem_filter.2 ⟨ha, hqa⟩)))

/-- Agreement on the elements before enough are found, one element at a time. -/
theorem forall_split_cons_iff {a : α} {n : Nat} :
    (∀ before b after, a :: l = before ++ b :: after → before.countP q < n + 1 → p b = q b) ↔
      p a = q a ∧ ∀ before b after, l = before ++ b :: after →
        before.countP q + (if q a then 1 else 0) < n + 1 → p b = q b := by
  constructor
  · refine fun h ↦ ⟨h [] a l rfl (Nat.succ_pos n), fun before b after heq hcount ↦ ?_⟩
    refine h (a :: before) b after (congrArg (a :: ·) heq) ?_
    rwa [List.countP_cons]
  · rintro ⟨hfirst, hrest⟩ before b after heq hcount
    rcases before with - | ⟨c, before⟩
    · obtain ⟨rfl, rfl⟩ := List.cons.inj heq
      exact hfirst
    · obtain ⟨rfl, rfl⟩ := List.cons.inj heq
      rw [List.countP_cons] at hcount
      exact hrest before b after rfl hcount

/-- **Two tests find the same first images exactly if they agree until enough are found.** -/
theorem map_take_filter_eq_iff (hp : Decides f p l) (hq : Decides f q l) (n : Nat) :
    ((l.filter p).take n).map f = ((l.filter q).take n).map f ↔
      ∀ before a after, l = before ++ a :: after → before.countP q < n → p a = q a := by
  induction l generalizing n with
  | nil => exact iff_of_true rfl fun before a after h ↦ absurd h (by simp)
  | cons a l ih =>
    rcases n with - | n
    · exact iff_of_true rfl fun _ _ _ _ h ↦ absurd h (Nat.not_lt_zero _)
    rw [forall_split_cons_iff]
    -- the image of an element that only one of the tests lets pass is not found by the other
    have hmiss : ∀ {q' : α → Bool} {bs : List β}, Decides f q' (a :: l) → q' a = false →
        f a :: bs ≠ ((l.filter q').take (n + 1)).map f := by
      intro q' bs hq' hqa heq
      have hmem : f a ∈ ((l.filter q').take (n + 1)).map f := heq ▸ List.mem_cons_self
      obtain ⟨b, hb, hfb⟩ := List.mem_map.1 hmem
      have hpass := hq'.pass List.mem_cons_self (List.mem_map.2
        ⟨b, List.mem_filter.2 ⟨List.mem_cons_of_mem a (List.mem_of_mem_filter (List.mem_of_mem_take hb)),
          (List.mem_filter.1 (List.mem_of_mem_take hb)).2⟩, hfb⟩)
      rw [hqa] at hpass
      cases hpass
    cases hpa : p a <;> cases hqa : q a
    · rw [List.filter_cons_of_neg (Bool.eq_false_iff.1 hpa),
        List.filter_cons_of_neg (Bool.eq_false_iff.1 hqa), ih hp.of_cons hq.of_cons, and_iff_right rfl]
      rfl
    · rw [List.filter_cons_of_neg (Bool.eq_false_iff.1 hpa), List.filter_cons_of_pos hqa]
      exact iff_of_false (fun h ↦ hmiss hp hpa h.symm) fun h ↦ nomatch h.1
    · rw [List.filter_cons_of_pos hpa, List.filter_cons_of_neg (Bool.eq_false_iff.1 hqa)]
      exact iff_of_false (fun h ↦ hmiss hq hqa h) fun h ↦ nomatch h.1
    · rw [List.filter_cons_of_pos hpa, List.filter_cons_of_pos hqa, List.take_succ_cons,
        List.take_succ_cons, List.map_cons, List.map_cons, List.cons_inj_right,
        ih hp.of_cons hq.of_cons, and_iff_right rfl]
      simp only [if_true, Nat.add_lt_add_iff_right]
