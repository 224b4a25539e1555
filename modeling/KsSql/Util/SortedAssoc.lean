import Mathlib.Data.List.InsertIdx
import Mathlib.Order.Lattice

/-!
# Association lists kept in key order

`upsert k v l` puts the binding `k ↦ v` into a list kept in key order, replacing the binding of `k`
if there is one. It is the abstract effect of inserting into an ordered store. Where a store keeps
its bindings in several pieces, `upsert` on the whole is `upsert` on the one piece whose range holds
the key (`upsert_append_left`, `upsert_append_right`), and where a piece keeps keys and values in
two parallel lists, it is one list operation on each (`upsert_zip_insertIdx`, `upsert_zip_set`).
-/

namespace SortedAssoc

variable {K V : Type} [LinearOrder K]

/-- Bind `k` to `v` in a list kept in key order. -/
def upsert (k : K) (v : V) : List (K × V) → List (K × V)
  | [] => [(k, v)]
  | (k', v') :: rest =>
    if k < k' then (k, v) :: (k', v') :: rest
    else if k' < k then (k', v') :: upsert k v rest
    else (k, v) :: rest

@[simp] theorem upsert_nil (k : K) (v : V) : upsert k v [] = [(k, v)] := rfl

/-- A piece that lies below the key is passed over. -/
theorem upsert_append_left {k : K} {v : V} {A : List (K × V)} (hA : ∀ a ∈ A, a.1 < k)
    (B : List (K × V)) : upsert k v (A ++ B) = A ++ upsert k v B := by
  induction A with
  | nil => rfl
  | cons a A ih =>
    have ha : a.1 < k := hA a List.mem_cons_self
    rw [List.cons_append, upsert, if_neg (lt_asymm ha), if_pos ha,
      ih fun x hx ↦ hA x (List.mem_cons_of_mem a hx), List.cons_append]

/-- A piece that lies above the key is left alone. -/
theorem upsert_append_right {k : K} {v : V} {C : List (K × V)} (hC : ∀ c ∈ C, k < c.1)
    (A : List (K × V)) : upsert k v (A ++ C) = upsert k v A ++ C := by
  induction A with
  | nil =>
    cases C with
    | nil => rfl
    | cons c C =>
      rw [List.nil_append, upsert_nil, List.singleton_append, upsert,
        if_pos (hC c List.mem_cons_self)]
  | cons a A ih =>
    rw [List.cons_append, upsert, upsert]
    split
    · rfl
    · split
      · rw [ih, List.cons_append]
      · rfl

/-- An absent key goes between the smaller and the greater ones. -/
theorem upsert_of_absent {k : K} {v : V} {A B : List (K × V)} (hA : ∀ a ∈ A, a.1 < k)
    (hB : ∀ b ∈ B, k < b.1) : upsert k v (A ++ B) = A ++ (k, v) :: B := by
  have h := upsert_append_right (v := v) hB []
  rw [List.nil_append, upsert_nil, List.singleton_append] at h
  rw [upsert_append_left hA, h]

/-- A present key has its binding replaced. -/
theorem upsert_of_present {k : K} {v w : V} {A : List (K × V)} (hA : ∀ a ∈ A, a.1 < k)
    (B : List (K × V)) : upsert k v (A ++ (k, w) :: B) = A ++ (k, v) :: B := by
  rw [upsert_append_left hA, upsert, if_neg (lt_irrefl k), if_neg (lt_irrefl k)]

/-! ### What the bindings are afterwards -/

theorem lookup_upsert_self (k : K) (v : V) (l : List (K × V)) :
    (upsert k v l).lookup k = some v := by
  induction l with
  | nil => simp
  | cons a l ih =>
    rw [upsert]
    split
    · exact List.lookup_cons_self
    · split
      · rename_i h
        rw [List.lookup_cons, beq_eq_false_iff_ne.2 (ne_of_gt h), ih]
      · exact List.lookup_cons_self

theorem lookup_upsert_of_ne {k k' : K} (hne : k' ≠ k) (v : V) (l : List (K × V)) :
    (upsert k v l).lookup k' = l.lookup k' := by
  induction l with
  | nil => rw [upsert_nil, List.lookup_cons, beq_eq_false_iff_ne.2 hne]
  | cons a l ih =>
    rw [upsert]
    split
    · rw [List.lookup_cons, beq_eq_false_iff_ne.2 hne]
    · split
      · rw [List.lookup_cons, List.lookup_cons, ih]
      · rename_i h1 h2
        have hk : a.1 = k := le_antisymm (not_lt.1 h1) (not_lt.1 h2)
        rw [List.lookup_cons, List.lookup_cons, beq_eq_false_iff_ne.2 hne,
          beq_eq_false_iff_ne.2 (hk ▸ hne)]

/-- The keys afterwards: the old ones and the inserted one. -/
theorem mem_keys_upsert {k x : K} {v : V} {l : List (K × V)} :
    x ∈ (upsert k v l).map Prod.fst ↔ x = k ∨ x ∈ l.map Prod.fst := by
  induction l with
  | nil => simp
  | cons a l ih =>
    rw [upsert]
    split
    · simp
    · split
      · rw [List.map_cons, List.mem_cons, ih, List.map_cons, List.mem_cons]
        exact or_left_comm
      · rename_i h1 h2
        have hk : a.1 = k := le_antisymm (not_lt.1 h1) (not_lt.1 h2)
        rw [List.map_cons, List.map_cons, List.mem_cons, List.mem_cons, hk]
        exact ⟨fun h ↦ h.imp_right Or.inr, fun h ↦ h.elim Or.inl id⟩

/-- A binding afterwards is the inserted one or an old one. -/
theorem mem_upsert {k : K} {v : V} {l : List (K × V)} {x : K × V} (hx : x ∈ upsert k v l) :
    x = (k, v) ∨ x ∈ l := by
  induction l with
  | nil => exact Or.inl (List.mem_singleton.1 hx)
  | cons a l ih =>
    rw [upsert] at hx
    split at hx
    · exact (List.mem_cons.1 hx).imp_right id
    · split at hx
      · rcases List.mem_cons.1 hx with rfl | hx
        · exact Or.inr List.mem_cons_self
        · exact (ih hx).imp_right (List.mem_cons_of_mem a)
      · exact (List.mem_cons.1 hx).imp_right (List.mem_cons_of_mem a)

/-- The two things an `upsert` does to a list in order: a new binding goes between the smaller and
the greater keys, or the binding of the key is replaced. -/
theorem upsert_cases {l : List (K × V)} (hl : (l.map Prod.fst).Pairwise (· < ·)) (k : K) (v : V) :
    (∃ A B, l = A ++ B ∧ upsert k v l = A ++ (k, v) :: B ∧ (∀ a ∈ A, a.1 < k) ∧
      ∀ b ∈ B, k < b.1) ∨
    ∃ A w B, l = A ++ (k, w) :: B ∧ upsert k v l = A ++ (k, v) :: B := by
  induction l with
  | nil => exact Or.inl ⟨[], [], rfl, rfl, nofun, nofun⟩
  | cons a l ih =>
    rw [List.map_cons, List.pairwise_cons] at hl
    have hgt : ∀ b ∈ l, a.1 < b.1 := fun b hb ↦ hl.1 b.1 (List.mem_map_of_mem hb)
    rcases lt_trichotomy k a.1 with hlt | heq | hlt
    · refine Or.inl ⟨[], a :: l, rfl, by rw [upsert, if_pos hlt]; rfl, nofun, fun b hb ↦ ?_⟩
      rcases List.mem_cons.1 hb with rfl | hb
      · exact hlt
      · exact lt_trans hlt (hgt b hb)
    · refine Or.inr ⟨[], a.2, l, by rw [heq]; rfl, ?_⟩
      rw [upsert, if_neg (heq ▸ lt_irrefl k), if_neg (heq ▸ lt_irrefl k)]
      rfl
    · have hup : upsert k v (a :: l) = a :: upsert k v l := by
        rw [upsert, if_neg (lt_asymm hlt), if_pos hlt]
      rcases ih hl.2 with ⟨A, B, rfl, heq, hA, hB⟩ | ⟨A, w, B, rfl, heq⟩
      · refine Or.inl ⟨a :: A, B, rfl, by rw [hup, heq]; rfl, fun b hb ↦ ?_, hB⟩
        rcases List.mem_cons.1 hb with rfl | hb
        · exact hlt
        · exact hA b hb
      · exact Or.inr ⟨a :: A, w, B, rfl, by rw [hup, heq]; rfl⟩

/-! ### Keys and values in parallel lists -/

/-- Inserting at a position is splicing there. -/
theorem insertIdx_eq_take_append {α : Type} {l : List α} {i : Nat} (hi : i ≤ l.length) (x : α) :
    l.insertIdx i x = l.take i ++ x :: l.drop i := by
  induction l generalizing i with
  | nil => obtain rfl : i = 0 := Nat.le_zero.1 hi; rfl
  | cons a l ih =>
    cases i with
    | zero => rfl
    | succ i =>
      rw [List.insertIdx_succ_cons, ih (Nat.le_of_succ_le_succ hi), List.take_succ_cons,
        List.drop_succ_cons, List.cons_append]

omit [LinearOrder K] in
theorem mem_fst_of_mem_zip {ks : List K} {vs : List V} {x : K × V} (h : x ∈ ks.zip vs) :
    x.1 ∈ ks := (List.of_mem_zip (a := x.1) (b := x.2) h).1

/-- Inserting an absent key and its value at the insertion point is an `upsert`. -/
theorem upsert_zip_insertIdx {ks : List K} {vs : List V} {k : K} {v : V} {i : Nat}
    (hlen : ks.length = vs.length) (hi : i ≤ ks.length) (hlt : ∀ x ∈ ks.take i, x < k)
    (hgt : ∀ x ∈ ks.drop i, k < x) :
    (ks.insertIdx i k).zip (vs.insertIdx i v) = upsert k v (ks.zip vs) := by
  have hsplit : ks.zip vs = (ks.take i).zip (vs.take i) ++ (ks.drop i).zip (vs.drop i) := by
    rw [← List.zip_append (by simp only [List.length_take]; omega), List.take_append_drop,
      List.take_append_drop]
  rw [insertIdx_eq_take_append hi, insertIdx_eq_take_append (hlen ▸ hi),
    List.zip_append (by simp only [List.length_take]; omega), hsplit,
    upsert_of_absent (fun a ha ↦ hlt _ (mem_fst_of_mem_zip ha))
      fun b hb ↦ hgt _ (mem_fst_of_mem_zip hb)]
  rfl

/-- Overwriting the value of a present key in place is an `upsert`. -/
theorem upsert_zip_set {ks : List K} {vs : List V} {k : K} {v : V} {i : Nat}
    (hlen : ks.length = vs.length) (hks : ks.Pairwise (· < ·)) (hi : ks[i]? = some k) :
    ks.zip (vs.set i v) = upsert k v (ks.zip vs) := by
  obtain ⟨hik, hki⟩ := List.getElem?_eq_some_iff.1 hi
  have hiv : i < vs.length := hlen ▸ hik
  have hks' : ks = ks.take i ++ k :: ks.drop (i + 1) := by
    rw [← hki, List.getElem_cons_drop, List.take_append_drop]
  have hvs' : vs = vs.take i ++ vs[i] :: vs.drop (i + 1) := by
    rw [List.getElem_cons_drop, List.take_append_drop]
  have hset : vs.set i v = vs.take i ++ v :: vs.drop (i + 1) := by
    rw [List.set_eq_take_append_cons_drop, if_pos hiv]
  have hlen' : (ks.take i).length = (vs.take i).length := by simp only [List.length_take]; omega
  have hlt : ∀ a ∈ (ks.take i).zip (vs.take i), a.1 < k := by
    intro a ha
    rw [hks', List.pairwise_append] at hks
    exact hks.2.2 a.1 (mem_fst_of_mem_zip ha) k List.mem_cons_self
  have hzip : ks.zip vs =
      (ks.take i).zip (vs.take i) ++ (k, vs[i]) :: (ks.drop (i + 1)).zip (vs.drop (i + 1)) := by
    conv_lhs => rw [hks', hvs']
    rw [List.zip_append hlen', List.zip_cons_cons]
  rw [hset, hzip, upsert_of_present hlt]
  conv_lhs => rw [hks']
  rw [List.zip_append hlen', List.zip_cons_cons]

end SortedAssoc
