import KsSql.Storage.QuietInsert

/-!
# What a split below the root puts at stake

A split below the root writes the upper half of a child to a new page and then the lower half over
the child, and leaves the parent, which is to refer to the new page, for later. Until then the keys
of the upper half cannot be found. The middle key is one of them, if every separator is a key of the
subtree to its right (`Anchored`); that is so in every run of insertions that are done and split at
new separators only (`anchored_of_insertAll`).

`Shrinks` describes such a loss as a change of the tokens of a subtree, and `Loses` adds that a key
other than the inserted one is gone.
-/

namespace KsSql

open Token PageProgram BPlusTree

variable {K V : Type}

/-- The keys of the bindings among a list of tokens. -/
def Token.keysOf (T : List (Token K V)) : List K := (bindings T).map Prod.fst

@[simp] theorem Token.keysOf_append (T T' : List (Token K V)) :
    keysOf (T ++ T') = keysOf T ++ keysOf T' := by
  rw [keysOf, bindings_append, List.map_append, keysOf, keysOf]

@[simp] theorem Token.keysOf_inner (p : Nat) (T : List (Token K V)) :
    keysOf (inner p :: T) = keysOf T := rfl

@[simp] theorem Token.keysOf_sep (s : K) (T : List (Token K V)) :
    keysOf (sep s :: T) = keysOf T := rfl

/-- Every separator of a node is a key of the subtree to its right. -/
def AnchoredNode (P : Nat → Node K V) (h : Nat) (node : Node K V) : Prop :=
  ∀ i s c, node.keys[i]? = some s → node.children[i + 1]? = some c → s ∈ keysOf (tokens P h c)

/-- Every separator below a page is a key of the subtree to its right. -/
def Anchored (P : Nat → Node K V) : Nat → Nat → Prop
  | 0, _ => True
  | h + 1, p => AnchoredNode P h (P p) ∧ ∀ c ∈ (P p).children, Anchored P h c

theorem anchored_congr {P P' : Nat → Node K V} {h p : Nat}
    (hP : ∀ q ∈ ids (tokens P h p), P' q = P q) (ha : Anchored P h p) : Anchored P' h p := by
  induction h generalizing p with
  | zero => trivial
  | succ h ih =>
    rw [ids_tokens_succ] at hP
    have hchild : ∀ c ∈ (P p).children, ∀ q ∈ ids (tokens P h c), P' q = P q := fun c hc q hq ↦
      hP q (List.mem_cons_of_mem p (List.mem_flatMap.2 ⟨c, hc, hq⟩))
    rw [Anchored, hP p List.mem_cons_self]
    refine ⟨fun i s c hs hc ↦ ?_, fun c hc ↦ ih (hchild c hc) (ha.2 c hc)⟩
    rw [tokens_congr (hchild c (List.mem_of_getElem? hc))]
    exact ha.1 i s c hs hc

variable [LinearOrder K]

/-! ### The halves of a split -/

section Split

variable {P : Nat → Node K V} {n h p c i : Nat} {m : K}

/-- The middle key of a node is a key of its subtree. -/
theorem midKey_mem_keysOf (hc : TreeShape (· < ·) P h c) (ha : Anchored P h c)
    (hm : (P c).midKey? = some m) : m ∈ keysOf (tokens P h c) := by
  cases h with
  | zero =>
    have hkeys := map_fst_entries (V := V) hc
    rw [tokens, keysOf, bindings_leaf, bindings_ofEntries, hkeys]
    exact List.mem_of_getElem? hm
  | succ h =>
    have hlen := hc.1.length_eq
    have hlt := (List.getElem?_eq_some_iff.1 hm).1
    obtain ⟨d, hd⟩ : ∃ d, (P c).children[(P c).mid + 1]? = some d :=
      ⟨_, List.getElem?_eq_getElem (by omega)⟩
    have hmem := ha.1 _ m d hm hd
    rw [keysOf, tokens, bindings_inner, bindings_weave, List.mem_map]
    obtain ⟨e, he, rfl⟩ := List.mem_map.1 hmem
    exact ⟨e, List.mem_flatMap.2 ⟨d, List.mem_of_getElem? hd, he⟩, rfl⟩

/-- The keys below a split node are those below its halves: smaller than the middle key on the left,
and not smaller on the right. -/
theorem keysOf_split (hc : TreeShape (· < ·) P h c) (hnodup : (ids (tokens P h c)).Nodup)
    (hlt : ∀ q ∈ ids (tokens P h c), q < n) (hm : (P c).midKey? = some m)
    (hord : Ordered (· < ·) (tokens P h c)) :
    keysOf (tokens P h c) =
        keysOf (tokens (splitPages P n c) h c) ++ keysOf (tokens (splitPages P n c) h n) ∧
      (∀ x ∈ keysOf (tokens (splitPages P n c) h c), x < m) ∧
      ∀ x ∈ keysOf (tokens (splitPages P n c) h n), m ≤ x := by
  have hsplit := splits_tokens upper_lt hc hnodup hlt hm
  have hord' := hsplit.ordered [] [] (by simpa only [List.nil_append, List.append_nil] using hord)
  simp only [List.nil_append, List.append_nil] at hord'
  obtain ⟨-, hright, hleft⟩ := List.pairwise_append.1 hord'
  have hmem : ∀ {T : List (Token K V)} {x : K}, x ∈ keysOf T → ∃ w, entry x w ∈ T := by
    intro T x hx
    obtain ⟨⟨x', w⟩, he, rfl⟩ := List.mem_map.1 hx
    obtain ⟨a, ha, hab⟩ := List.mem_filterMap.1 he
    cases a <;> cases hab
    exact ⟨w, ha⟩
  refine ⟨?_, fun x hx ↦ ?_, fun x hx ↦ ?_⟩
  · rw [keysOf, ← hsplit.bindings_eq, bindings_append, bindings_sep, List.map_append, keysOf, keysOf]
  · obtain ⟨w, hw⟩ := hmem hx
    exact hleft _ hw _ List.mem_cons_self
  · obtain ⟨w, hw⟩ := hmem hx
    exact (List.pairwise_cons.1 hright).1 _ hw

/-- The halves of a node keep the separators of the node anchored. -/
theorem anchored_halves (hc : TreeShape (· < ·) P h c) (hnodup : (ids (tokens P h c)).Nodup)
    (hlt : ∀ q ∈ ids (tokens P h c), q < n) (ha : Anchored P h c) :
    Anchored (splitPages P n c) h c ∧ Anchored (splitPages P n c) h n := by
  have hne : n ≠ c := by
    have := hlt c (mem_ids_tokens P h c)
    omega
  cases h with
  | zero => exact ⟨trivial, trivial⟩
  | succ h =>
    rw [ids_tokens_succ, List.nodup_cons] at hnodup
    have hpages : ∀ d ∈ (P c).children, ∀ q ∈ ids (tokens P h d), splitPages P n c q = P q := by
      intro d hd q hq
      have hq' : q ∈ (P c).children.flatMap fun d ↦ ids (tokens P h d) :=
        List.mem_flatMap.2 ⟨d, hd, hq⟩
      have hqn : q < n := hlt q (by rw [ids_tokens_succ]; exact List.mem_cons_of_mem c hq')
      exact splitPages_of_ne (fun e ↦ hnodup.1 (e ▸ hq')) (by omega)
    have hchild : ∀ d ∈ (P c).children, Anchored (splitPages P n c) h d := fun d hd ↦
      anchored_congr (hpages d hd) (ha.2 d hd)
    have hnode : ∀ i s d, (P c).keys[i]? = some s → (P c).children[i + 1]? = some d →
        s ∈ keysOf (tokens (splitPages P n c) h d) := by
      intro i s d hs hd
      rw [tokens_congr (hpages d (List.mem_of_getElem? hd))]
      exact ha.1 i s d hs hd
    rw [Anchored, Anchored, splitPages_left, splitPages_right hne, hc.1.splitLeft_eq,
      hc.1.splitRight_eq]
    refine ⟨⟨fun i s d hs hd ↦ ?_, fun d hd ↦ hchild d (List.mem_of_mem_take hd)⟩,
      fun i s d hs hd ↦ ?_, fun d hd ↦ hchild d (List.mem_of_mem_drop hd)⟩
    · have hi := (List.getElem?_eq_some_iff.1 hs).1
      have hi' := (List.getElem?_eq_some_iff.1 hd).1
      rw [List.length_take] at hi hi'
      rw [List.getElem?_take_of_lt (by omega)] at hs hd
      exact hnode i s d hs hd
    · rw [List.getElem?_drop] at hs hd
      exact hnode _ s d hs (by rw [← hd]; congr 1)

/-- **A split** of a child at a key that is no separator of its parent keeps the separators
anchored. -/
theorem anchored_split (hp : TreeShape (· < ·) P (h + 1) p)
    (hnodup : (ids (tokens P (h + 1) p)).Nodup) (hlt : ∀ q ∈ ids (tokens P (h + 1) p), q < n)
    (hord : Ordered (· < ·) (tokens P (h + 1) p)) (ha : Anchored P (h + 1) p)
    (hi : i ≤ (P p).keys.length) (hc : (P p).children[i]? = some c)
    (hm : (P c).midKey? = some m) (hnew : m ∉ (P p).keys) :
    AnchoredNode (splitPages P n c) h { P p with
        keys := (P p).keys.insertIdx i m
        children := (P p).children.insertIdx (i + 1) n } ∧
      ∀ d ∈ (P p).children.insertIdx (i + 1) n, Anchored (splitPages P n c) h d := by
  have hlen := hp.1.length_eq
  have hch := children_eq_of_getElem? hc
  have hcmem := List.mem_of_getElem? hc
  have hnodup' := hnodup
  rw [ids_tokens_succ, List.nodup_cons] at hnodup'
  have hother := splitPages_other hnodup hlt hc
  obtain ⟨-, hcnodup, hcord, hcids⟩ := hp.child hnodup hord hc
  have hclt : ∀ q ∈ ids (tokens P h c), q < n := fun q hq ↦ hlt q (hcids q hq)
  obtain ⟨hkeysEq, hleft, hright⟩ := keysOf_split (hp.2.2 c hcmem) hcnodup hclt hm hcord
  have hmid := midKey_mem_keysOf (hp.2.2 c hcmem) (ha.2 c hcmem) hm
  obtain ⟨haL, haR⟩ := anchored_halves (hp.2.2 c hcmem) hcnodup hclt (ha.2 c hcmem)
  have hnewCh : (P p).children.insertIdx (i + 1) n =
      (P p).children.take i ++ c :: n :: (P p).children.drop (i + 1) := by
    rw [SortedAssoc.insertIdx_eq_take_append (by have := (List.getElem?_eq_some_iff.1 hc).1; omega),
      List.take_add_one, hc]
    simp only [Option.toList_some, List.append_assoc, List.singleton_append]
  -- the separators with the new one are in order, so that those before it are smaller
  have hsortedKeys : ((P p).keys.insertIdx i m).Pairwise (· ≤ ·) := by
    have hsplit := (splits_node upper_lt hp hnodup hlt hi hc hm).2
    have := hsplit.ordered [] [] (by simpa only [List.nil_append, List.append_nil] using hord)
    simp only [List.nil_append, List.append_nil] at this
    refine pairwise_of_ordered_weave ?_ (List.pairwise_cons.1 this).2
    rw [List.length_insertIdx_of_le_length hi, List.length_insertIdx_of_le_length
      (by have := (List.getElem?_eq_some_iff.1 hc).1; omega)]
    omega
  refine ⟨fun j s d hs hd ↦ ?_, fun d hd ↦ ?_⟩
  · rcases Nat.lt_trichotomy j i with hj | rfl | hj
    · have hs' := hs
      rw [List.getElem?_insertIdx_of_lt hj] at hs
      rw [List.getElem?_insertIdx_of_lt (by omega)] at hd
      have hmem := ha.1 j s d hs hd
      rcases Nat.lt_or_ge (j + 1) i with hj' | hj'
      · rw [tokens_congr (hother d (Or.inl (List.mem_iff_getElem?.2
          ⟨j + 1, by rw [List.getElem?_take_of_lt hj', hd]⟩)))]
        exact hmem
      · obtain rfl : j + 1 = i := by omega
        obtain rfl : c = d := Option.some.inj (hc.symm.trans hd)
        have hsm : s ≤ m := by
          have hself : ((P p).keys.insertIdx (j + 1) m)[j + 1]? = some m := by
            rw [List.getElem?_insertIdx_self, if_pos hi]
          exact BinarySearch.le_of_getElem?_of_le hsortedKeys (Nat.le_succ j) hs' hself
        rw [hkeysEq] at hmem
        rcases List.mem_append.1 hmem with hmem | hmem
        · exact hmem
        · have := le_antisymm hsm (hright s hmem)
          exact absurd (this ▸ List.mem_of_getElem? hs) hnew
    · rw [List.getElem?_insertIdx_self, if_pos hi] at hs
      rw [List.getElem?_insertIdx_self, if_pos (by
        have := (List.getElem?_eq_some_iff.1 hc).1; omega)] at hd
      obtain rfl := Option.some.inj hs
      obtain rfl := Option.some.inj hd
      rw [hkeysEq] at hmid
      rcases List.mem_append.1 hmid with hmid | hmid
      · exact absurd (hleft m hmid) (lt_irrefl m)
      · exact hmid
    · rw [List.getElem?_insertIdx_of_gt hj] at hs
      rw [List.getElem?_insertIdx_of_gt (by omega)] at hd
      have hd' : (P p).children[j - 1 + 1]? = some d := by
        rw [← hd]; congr 1; omega
      rw [tokens_congr (hother d (Or.inr (List.mem_iff_getElem?.2 ⟨j - (i + 1), by
        rw [List.getElem?_drop, ← hd]; congr 1; omega⟩)))]
      exact ha.1 (j - 1) s d hs hd'
  · rw [hnewCh, List.mem_append, List.mem_cons, List.mem_cons] at hd
    rcases hd with hd | rfl | rfl | hd
    · exact anchored_congr (hother d (Or.inl hd)) (ha.2 d (List.mem_of_mem_take hd))
    · exact haL
    · exact haR
    · exact anchored_congr (hother d (Or.inr hd)) (ha.2 d (List.mem_of_mem_drop hd))

end Split

/-! ### What is left of a subtree -/

section Shrinks

variable {k : K} {v : V} {P P₁ P₂ : Nat → Node K V} {n n₁ n₂ h p : Nat}
  {T T₁ T₂ : List (Token K V)}

/-- What is left of a subtree when an insertion of `k ↦ v` stopped half way: it is in order, and its
keys are old ones and perhaps the inserted one. -/
structure Shrinks (k : K) (v : V) (P P' : Nat → Node K V) (n : Nat) (T T' : List (Token K V)) :
    Prop where
  frame : ∀ q < n, q ∉ ids T → P' q = P q
  ids_mem : ∀ q ∈ ids T', q ∈ ids T ∨ n ≤ q
  keeps : Keeps (· < ·) k v T T'
  keys_sub : ∀ x ∈ keysOf T', x = k ∨ x ∈ keysOf T

/-- A key other than the inserted one is gone. -/
def LosesKey (k : K) (T T' : List (Token K V)) : Prop :=
  ∃ m ∈ keysOf T, m ≠ k ∧ m ∉ keysOf T'

theorem Shrinks.refl : Shrinks k v P P n T T :=
  ⟨fun _ _ _ ↦ rfl, fun _ ↦ Or.inl, fun _ _ _ _ ↦ id, fun _ ↦ Or.inr⟩

theorem Shrinks.trans (h₁ : Shrinks k v P P₁ n T T₁) (hn : n ≤ n₁)
    (h₂ : Shrinks k v P₁ P₂ n₁ T₁ T₂) : Shrinks k v P P₂ n T T₂ where
  frame q hq hT := by
    have hT₁ : q ∉ ids T₁ := fun hmem ↦ (h₁.ids_mem q hmem).elim hT fun hnq ↦ by omega
    rw [h₂.frame q (by omega) hT₁, h₁.frame q hq hT]
  ids_mem q hq := (h₂.ids_mem q hq).elim (h₁.ids_mem q) fun hnq ↦ Or.inr (hn.trans hnq)
  keeps A C hA hC hord := h₂.keeps A C hA hC (h₁.keeps A C hA hC hord)
  keys_sub x hx := (h₂.keys_sub x hx).elim Or.inl (h₁.keys_sub x)

theorem LosesKey.of_shrinks (h₁ : LosesKey k T T₁) (h₂ : Shrinks k v P₁ P₂ n₁ T₁ T₂) :
    LosesKey k T T₂ := by
  obtain ⟨m, hm, hmk, hm₁⟩ := h₁
  exact ⟨m, hm, hmk, fun hm₂ ↦ (h₂.keys_sub m hm₂).elim hmk hm₁⟩

/-- An insertion that is done stopped half way at its end. -/
theorem Inserts.shrinks (h : Inserts (· < ·) k v P P₁ n n₁ T T₁) : Shrinks k v P P₁ n T T₁ where
  frame := h.frame
  ids_mem q hq := (h.ids_mem q hq).imp_right And.left
  keeps := h.keeps
  keys_sub x hx := by
    rw [keysOf, h.upserted.eq_upsert, SortedAssoc.mem_keys_upsert] at hx
    exact hx

/-- A split whose parent has not been written yet leaves the lower half. -/
theorem shrinks_split {c : Nat} {m : K} (hc : TreeShape (· < ·) P h c)
    (hnodup : (ids (tokens P h c)).Nodup) (hlt : ∀ q ∈ ids (tokens P h c), q < n)
    (hm : (P c).midKey? = some m) (hord : Ordered (· < ·) (tokens P h c)) (ha : Anchored P h c)
    (hmk : m ≠ k) :
    TreeShape (· < ·) (splitPages P n c) h c ∧
      Shrinks k v P (splitPages P n c) n (tokens P h c) (tokens (splitPages P n c) h c) ∧
      LosesKey k (tokens P h c) (tokens (splitPages P n c) h c) := by
  have hsplit := splits_tokens upper_lt hc hnodup hlt hm
  obtain ⟨hkeys, hleft, -⟩ := keysOf_split hc hnodup hlt hm hord
  refine ⟨(treeShape_split hc hnodup hlt hm).1, ⟨hsplit.frame, fun q hq ↦ ?_,
    fun A C _ _ hord ↦ ?_, fun x hx ↦ Or.inr ?_⟩, m, midKey_mem_keysOf hc ha hm, hmk,
    fun hmem ↦ lt_irrefl m (hleft m hmem)⟩
  · refine (hsplit.ids_mem q ?_).imp_right And.left
    rw [ids_append]
    exact List.mem_append_left _ hq
  · refine List.Pairwise.sublist ?_ (hsplit.ordered A C hord)
    rw [List.append_assoc]
    exact List.Sublist.append_left (List.Sublist.append_left (List.sublist_append_right _ _) _) A
  · rw [hkeys]
    exact List.mem_append_left _ hx

/-- **A change of one child** that shrank it, below a node that was not written, shrinks the node's
subtree. -/
theorem shrinks_node {d i : Nat} (hp : TreeShape (· < ·) P (h + 1) p)
    (hnodup : (ids (tokens P (h + 1) p)).Nodup) (hlt : ∀ q ∈ ids (tokens P (h + 1) p), q < n)
    (hord : Ordered (· < ·) (tokens P (h + 1) p)) (hi : i ≤ (P p).keys.length)
    (hd : (P p).children[i]? = some d) (hSL : ∀ s ∈ (P p).keys.take i, s ≤ k)
    (hSR : ∀ s ∈ (P p).keys.drop i, k < s)
    (hd' : TreeShape (· < ·) P₁ h d)
    (hshrinks : Shrinks k v P P₁ n (tokens P h d) (tokens P₁ h d)) :
    P₁ p = P p ∧ TreeShape (· < ·) P₁ (h + 1) p ∧
      Shrinks k v P P₁ n (tokens P (h + 1) p) (tokens P₁ (h + 1) p) ∧
      (LosesKey k (tokens P h d) (tokens P₁ h d) →
        LosesKey k (tokens P (h + 1) p) (tokens P₁ (h + 1) p)) := by
  have hlen := hp.1.length_eq
  have hch := children_eq_of_getElem? hd
  have hL : ((P p).keys.take i).length = ((P p).children.take i).length := by
    simp only [List.length_take]
    omega
  have hR : ((P p).keys.drop i).length = ((P p).children.drop (i + 1)).length := by
    simp only [List.length_drop]
    omega
  have hks : (P p).keys = (P p).keys.take i ++ (P p).keys.drop i :=
    (List.take_append_drop i _).symm
  have hnodup' : (p :: ids (weave (tokens P h) (P p).children (P p).keys)).Nodup := hnodup
  have hdids : ∀ q ∈ ids (tokens P h d), q ∈ ids (weave (tokens P h) (P p).children (P p).keys) :=
    fun q hq ↦ by
      rw [ids_weave]
      exact List.mem_flatMap.2 ⟨d, List.mem_of_getElem? hd, hq⟩
  -- the node's own page is not below the child
  have hself : P₁ p = P p := hshrinks.frame p (hlt p (mem_ids_tokens P _ p)) fun hmem ↦
    (List.nodup_cons.1 hnodup').1 (hdids p hmem)
  obtain ⟨hother, hpd, htokens⟩ := tokens_around hch hks hL hR hnodup' hlt hshrinks.frame
    hshrinks.ids_mem
  have hshape := treeShape_around hp.1 hp.2.1 hp.2.2 hd' hother hpd
  have hback : Function.update P₁ p (P p) = P₁ := by rw [← hself, Function.update_eq_self]
  rw [hback] at htokens hshape
  have hold : tokens P (h + 1) p =
      (inner p :: weaveLeft (tokens P h) ((P p).children.take i) ((P p).keys.take i)) ++
        (tokens P h d ++ weaveRight (tokens P h) ((P p).keys.drop i)
          ((P p).children.drop (i + 1))) := by
    rw [tokens, List.cons_append, ← weave_append _ hL hR, ← hch, ← hks]
  have hkeysNodup := Token.pairwise_bindings hord
  rw [hold] at hord hkeysNodup
  obtain ⟨hbefore, hbehind⟩ := before_around (p := p) (v := v) upper_lt
    (List.pairwise_cons.1 hord).2 hSL hSR
  rw [hold, htokens] at *
  refine ⟨hself, hshape, ⟨fun q hq hmem ↦ ?_, fun q hq ↦ ?_, hshrinks.keeps.context hbefore hbehind,
    fun x hx ↦ ?_⟩, ?_⟩
  · simp only [ids_append, List.mem_append, not_or] at hmem
    exact hshrinks.frame q hq hmem.2.1
  · simp only [ids_append, List.mem_append] at hq ⊢
    rcases hq with hq | hq | hq
    · exact Or.inl (Or.inl hq)
    · exact (hshrinks.ids_mem q hq).imp_left fun hq ↦ Or.inr (Or.inl hq)
    · exact Or.inl (Or.inr (Or.inr hq))
  · simp only [keysOf_append, List.mem_append] at hx ⊢
    rcases hx with hx | hx | hx
    · exact Or.inr (Or.inl hx)
    · exact (hshrinks.keys_sub x hx).imp_right fun hx ↦ Or.inr (Or.inl hx)
    · exact Or.inr (Or.inr (Or.inr hx))
  · rintro ⟨m, hm, hmk, hm'⟩
    rw [bindings_append, bindings_append, List.map_append, List.map_append,
      List.pairwise_append] at hkeysNodup
    obtain ⟨-, hR', hL'⟩ := hkeysNodup
    refine ⟨m, ?_, hmk, ?_⟩
    · simp only [keysOf_append, List.mem_append]
      exact Or.inr (Or.inl hm)
    · simp only [keysOf_append, List.mem_append, not_or]
      refine ⟨fun hmL ↦ ?_, hm', fun hmR ↦ ?_⟩
      · exact lt_irrefl m (hL' m hmL m (List.mem_append_left _ hm))
      · exact lt_irrefl m ((List.pairwise_append.1 hR').2.2 m hm m hmR)

end Shrinks

/-! ### Insertions that are done -/

section Done

variable [ByteLen K] [ByteLen V] {bs : BinarySearch K} {k : K} {v : V} {fuel : Nat}

omit [ByteLen K] [ByteLen V] in
/-- A node with anchored separators, written to its page after an insertion below one child. -/
theorem anchored_node {P P' : Nat → Node K V} {n n' h p d : Nat} {L R : List Nat} {SL SR : List K}
    {node : Node K V} (hch : node.children = L ++ d :: R) (hks : node.keys = SL ++ SR)
    (hL : SL.length = L.length) (hR : SR.length = R.length)
    (hnodup : (p :: ids (weave (tokens P h) node.children node.keys)).Nodup)
    (hlt : ∀ q ∈ p :: ids (weave (tokens P h) node.children node.keys), q < n)
    (ha : AnchoredNode P h node) (hchildren : ∀ c ∈ node.children, Anchored P h c)
    (hd : Inserts (· < ·) k v P P' n n' (tokens P h d) (tokens P' h d)) (hd' : Anchored P' h d) :
    Anchored (Function.update P' p node) (h + 1) p := by
  obtain ⟨hother, hself, -⟩ := tokens_around hch hks hL hR hnodup hlt hd.frame
    fun q hq ↦ (hd.ids_mem q hq).imp_right And.left
  rw [Anchored, Function.update_self]
  refine ⟨fun i s c hs hc ↦ ?_, fun c hc ↦ ?_⟩
  · have hmem := ha i s c hs hc
    by_cases hcd : c = d
    · subst hcd
      rw [tokens_congr hself, keysOf, hd.upserted.eq_upsert, SortedAssoc.mem_keys_upsert]
      exact Or.inr hmem
    · rw [tokens_congr (hother c (List.mem_of_getElem? hc) hcd)]
      exact hmem
  · by_cases hcd : c = d
    · subst hcd
      exact anchored_congr hself hd'
    · exact anchored_congr (hother c hc hcd) (hchildren c hc)

variable (bs k v) in
/-- What the descent does with a given number of steps: separators that are anchored stay so. -/
def AnchorsBelow (fuel : Nat) : Prop :=
  ∀ {t : BPlusTree K V} {h p : Nat}, t.pager.Sized → TreeShape (· < ·) t.pager.pages h p →
    (ids (tokens t.pager.pages h p)).Nodup → Ordered (· < ·) (tokens t.pager.pages h p) →
    OnRoute bs (NewSeparator k) k t.pager.pages fuel (t.pager.pages p) →
    Anchored t.pager.pages h p →
    (pagerDevice K V).wp PagesBelow (insertNonFull bs fuel p (t.pager.pages p) k v)
      (fun _ t' ↦ Anchored t'.pager.pages h p) (fun _ _ ↦ True) t

/-- The descent into one child, and the write of the node after it. -/
theorem wp_anchored_descend (ih : AnchorsBelow bs k v fuel) {t : BPlusTree K V} {h p d : Nat}
    {L R : List Nat} {SL SR : List K}
    {node : Node K V} (ht : t.pager.Sized) (hp : p < t.pager.pageCount)
    (hch : node.children = L ++ d :: R) (hks : node.keys = SL ++ SR)
    (hL : SL.length = L.length) (hR : SR.length = R.length)
    (hshape : ∀ c ∈ node.children, TreeShape (· < ·) t.pager.pages h c)
    (hnodup : (p :: ids (weave (tokens t.pager.pages h) node.children node.keys)).Nodup)
    (hord : Ordered (· < ·) (weave (tokens t.pager.pages h) node.children node.keys))
    (ha : AnchoredNode t.pager.pages h node)
    (hchildren : ∀ c ∈ node.children, Anchored t.pager.pages h c)
    (hroute : OnRoute bs (NewSeparator k) k t.pager.pages fuel (t.pager.pages d)) :
    (pagerDevice K V).wp PagesBelow
      (insertNonFull bs fuel d (t.pager.pages d) k v >>= fun _ ↦ saveNode p node)
      (fun _ t' ↦ Anchored t'.pager.pages (h + 1) p) (fun _ _ ↦ True) t := by
  have hdmem : d ∈ node.children := by rw [hch]; simp
  have hdsub : (tokens t.pager.pages h d).Sublist
      (weave (tokens t.pager.pages h) node.children node.keys) := by
    rw [hch, hks, weave_append _ hL hR]
    exact (List.sublist_append_left _ _).trans (List.sublist_append_right _ _)
  have hlt : ∀ q ∈ p :: ids (weave (tokens t.pager.pages h) node.children node.keys),
      q < t.pager.pageCount := by
    intro q hq
    rcases List.mem_cons.1 hq with rfl | hq
    · exact hp
    · rw [ids_weave, List.mem_flatMap] at hq
      obtain ⟨c, hc, hq⟩ := hq
      exact lt_of_mem_ids ht (hshape c hc) q hq
  have hdnodup := (List.nodup_cons.1 hnodup).2.sublist (hdsub.filterMap _)
  have hdord := List.Pairwise.sublist hdsub hord
  refine Device.wp_bind guard_pagesBelow (Device.wp_mono (Device.wp_and
    (ih ht (hshape d hdmem) hdnodup hdord hroute (hchildren d hdmem))
    (insertsBelow upper_lt v (newSeparator_spec k) fuel ht (hshape d hdmem) hdnodup hdord
      hroute)) (fun _ t₁ _ h₁ ↦ ?_) fun _ _ _ _ ↦ trivial)
  obtain ⟨ha₁, ht₁, hshape₁, hins₁⟩ := h₁
  refine wp_saveNode ht₁ (lt_of_lt_of_le hp hins₁.count_le) node
    (fun t₂ _ hpages₂ _ ↦ ?_) fun _ _ ↦ trivial
  rw [hpages₂]
  exact anchored_node hch hks hL hR hnodup hlt ha hchildren hins₁ ha₁

/-- **An insertion that is done** and splits at new separators keeps the separators anchored. -/
theorem anchorsBelow : ∀ fuel, AnchorsBelow bs k v fuel := by
  intro fuel
  induction fuel with
  | zero => exact fun _ _ _ _ _ _ ↦ Device.wp_fail fun _ ↦ trivial
  | succ fuel ih =>
    intro t h p ht hp hnodup hord hroute ha
    have hlt := lt_of_mem_ids ht hp
    cases h with
    | zero =>
      have hleaf : (t.pager.pages p).LeafShape := hp
      simp only [insertNonFull, hleaf.isLeaf]
      exact wp_insertLeaf bs ht (hlt p (mem_ids_tokens _ 0 p)) hleaf k v
        (fun _ _ _ _ _ _ _ _ ↦ trivial) fun _ _ ↦ trivial
    | succ h =>
      have hlen := hp.1.length_eq
      have hplt := hlt p (mem_ids_tokens _ _ p)
      simp only [insertNonFull, hp.1.isInternal]
      unfold OnRoute at hroute
      simp only [hp.1.isInternal] at hroute
      obtain ⟨hi, hSL, hSR⟩ := childIndex_spec bs upper_lt hp.1 hp.2.1 k
      generalize childIndex bs (t.pager.pages p) k = i at hi hSL hSR hroute ⊢
      have hc : (t.pager.pages p).children[i]? = some (t.pager.pages p).children[i] :=
        List.getElem?_eq_getElem (by omega)
      generalize (t.pager.pages p).children[i] = c at hc
      simp only [hc] at hroute ⊢
      have hcmem := List.mem_of_getElem? hc
      obtain ⟨-, hcnodup, -, hcids⟩ := hp.child hnodup hord hc
      have hnodup' : (p :: ids (weave (tokens t.pager.pages h) (t.pager.pages p).children
          (t.pager.pages p).keys)).Nodup := by
        rw [← ids_inner]; exact hnodup
      have hord' := (List.pairwise_cons.1 hord).2
      refine Device.wp_read ?_
      show (pagerDevice K V).wp PagesBelow
        (if (t.pager.pages c).isFull then _ else _) _ _ t
      unfold SplitStep at hroute
      split
      · rename_i hfull
        obtain ⟨⟨m, hm⟩, hcan⟩ := exists_midKey_of_treeShape (hp.2.2 c hcmem) hfull
        simp only [if_pos hfull, hm] at hroute
        obtain ⟨hnew, hroute⟩ := hroute
        obtain ⟨hkm, hseps⟩ := newSeparator_spec k m _ hnew
        obtain ⟨hshape₁, hsplit⟩ :=
          splits_node (n := t.pager.pageCount) upper_lt hp hnodup hlt hi hc hm
        obtain ⟨hnode₁, ha₁⟩ := anchored_split hp hnodup hlt hord ha hi hc hm hnew.2
        refine Device.wp_bind guard_pagesBelow (wp_splitChild ht (hlt c (hcids c
          (mem_ids_tokens _ h c))) hm hcan ⟨hi, by omega⟩
          (fun t₁ ht₁ hpages₁ hcount₁ ↦ ?_) fun _ _ _ _ _ _ ↦ trivial)
        rw [← splitPages] at hpages₁
        have hroute₁ := onRoute_half (n := t.pager.pageCount) (hp.2.2 c hcmem) hcnodup
          (fun q hq ↦ hlt q (hcids q hq)) hroute
        rw [← hpages₁] at hshape₁ hsplit hroute₁ hnode₁ ha₁
        have hord₁ := hsplit.ordered [] [] (by
          simpa only [List.nil_append, List.append_nil] using hord)
        simp only [List.nil_append, List.append_nil] at hord₁
        have hord₁ := (List.pairwise_cons.1 hord₁).2
        have hnodup₁ := hsplit.nodup
        rw [ids_inner] at hnodup₁
        obtain ⟨hkey, hnext, L, R, SL, SR, hch₁, hks₁, hlenL, hlenR, -, -⟩ :=
          exists_half (m := m) hp.1 hi hc t.pager.pageCount hSL hSR hkm
        simp only [hkey, hnext]
        exact Device.wp_read (wp_anchored_descend ih ht₁ (by omega) hch₁ hks₁ hlenL hlenR
          hshape₁ hnodup₁ hord₁ hnode₁ ha₁ hroute₁)
      · rename_i hfull
        rw [if_neg hfull] at hroute
        have hL : ((t.pager.pages p).keys.take i).length =
            ((t.pager.pages p).children.take i).length := by
          simp only [List.length_take]
          omega
        have hR : ((t.pager.pages p).keys.drop i).length =
            ((t.pager.pages p).children.drop (i + 1)).length := by
          simp only [List.length_drop]
          omega
        exact wp_anchored_descend ih ht hplt (children_eq_of_getElem? hc)
          (List.take_append_drop i _).symm hL hR hp.2.2 hnodup' hord' ha.1 ha.2 hroute

end Done

/-! ### Insertions that stop half way -/

section Stopped

variable [ByteLen K] [ByteLen V] {bs : BinarySearch K} {k : K} {v : V}

omit [ByteLen K] [ByteLen V] in
/-- After the split of a child, whatever an insertion into one of the halves left of it: the lower
half is what the node, not written yet, still refers to. -/
theorem shrinks_half {P P₁ P₂ : Nat → Node K V} {n h c d : Nat} {m : K}
    (hc : TreeShape (· < ·) P h c) (hnodup : (ids (tokens P h c)).Nodup)
    (hlt : ∀ q ∈ ids (tokens P h c), q < n) (hm : (P c).midKey? = some m)
    (hord : Ordered (· < ·) (tokens P h c)) (ha : Anchored P h c) (hmk : m ≠ k)
    (hP₁ : P₁ = splitPages P n c) (hd : d = n ∨ d = c) (hshape : TreeShape (· < ·) P₂ h d)
    (hshrinks : Shrinks k v P₁ P₂ (n + 1) (tokens P₁ h d) (tokens P₂ h d)) :
    TreeShape (· < ·) P₂ h c ∧ Shrinks k v P P₂ n (tokens P h c) (tokens P₂ h c) ∧
      LosesKey k (tokens P h c) (tokens P₂ h c) := by
  obtain ⟨hshape₁, hshrinks₁, hlost₁⟩ := shrinks_split (v := v) hc hnodup hlt hm hord ha hmk
  rw [← hP₁] at hshape₁ hshrinks₁ hlost₁
  rcases hd with rfl | rfl
  · -- the upper half is out of sight
    have hsplit := splits_tokens upper_lt hc hnodup hlt hm
    rw [← hP₁] at hsplit
    have hnd := hsplit.nodup
    rw [ids_append, ids_sep] at hnd
    have hright : ∀ q ∈ ids (tokens P₁ h d), q ∈ ids (tokens P h c) ∨ d ≤ q := fun q hq ↦
      (hsplit.ids_mem q (by
        rw [ids_append, ids_sep]; exact List.mem_append_right _ hq)).imp_right And.left
    have hleft : ∀ q ∈ ids (tokens P₁ h c), P₂ q = P₁ q := fun q hq ↦ by
      refine hshrinks.frame q ?_ fun hq' ↦ (List.nodup_append.1 hnd).2.2 q hq q hq' rfl
      rcases hsplit.ids_mem q (by
        rw [ids_append]; exact List.mem_append_left _ hq) with hq | hq
      · have := hlt q hq
        omega
      · exact hq.2
    rw [tokens_congr hleft]
    refine ⟨treeShape_congr hleft hshape₁, ⟨fun q hq hmem ↦ ?_, hshrinks₁.ids_mem, hshrinks₁.keeps,
      hshrinks₁.keys_sub⟩, hlost₁⟩
    rw [hshrinks.frame q (by omega) fun hq' ↦ (hright q hq').elim hmem fun hdq ↦ by omega]
    exact hshrinks₁.frame q hq hmem
  · exact ⟨hshape, hshrinks₁.trans (Nat.le_succ n) hshrinks, hlost₁.of_shrinks hshrinks⟩

/-- The pages after a split fit. -/
theorem fits_splitPages {P : Nat → Node K V} {n h c : Nat} {m : K} (hc : TreeShape (· < ·) P h c)
    (hfits : ∀ q, (P q).Fits) (hm : (P c).midKey? = some m) :
    ((P c).splitRight.Fits ∧ ((P c).splitLeft n).Fits) ∧ ∀ q, (splitPages P n c q).Fits := by
  have hhalves : ((P c).splitLeft n).Fits ∧ (P c).splitRight.Fits := by
    cases h with
    | zero => exact Node.LeafShape.fits_split hc (hfits c) hm n
    | succ h => exact hc.1.fits_split (hfits c) n
  refine ⟨hhalves.symm, fun q ↦ ?_⟩
  rw [splitPages]
  by_cases hq : q = c
  · rw [hq, Function.update_self]
    exact hhalves.1
  · rw [Function.update_of_ne hq]
    by_cases hqn : q = n
    · rw [hqn, Function.update_self]
      exact hhalves.2
    · rw [Function.update_of_ne hqn]
      exact hfits q

/-- What an insertion of `k ↦ v` that was refused left of the subtree below a page. When a node did
not fit, a key is gone, unless the descent met no full node. -/
structure LeftBehind (bs : BinarySearch K) (k : K) (v : V) (fuel : Nat) (t : BPlusTree K V)
    (h p : Nat) (e : StorageError) (t' : BPlusTree K V) : Prop where
  sized : t'.pager.Sized
  count_le : t.pager.pageCount ≤ t'.pager.pageCount
  shape : TreeShape (· < ·) t'.pager.pages h p
  shrinks : Shrinks k v t.pager.pages t'.pager.pages t.pager.pageCount
    (tokens t.pager.pages h p) (tokens t'.pager.pages h p)
  lost : e = .nodeTooLarge →
    OnRoute bs (fun _ _ ↦ False) k t.pager.pages fuel (t.pager.pages p) ∨
      LosesKey k (tokens t.pager.pages h p) (tokens t'.pager.pages h p)

/-- Pages that no subtree uses may have been written. -/
theorem LeftBehind.of_unused {fuel h p : Nat} {e : StorageError} {t t' : BPlusTree K V}
    (ht' : t'.pager.Sized) (hcount : t.pager.pageCount ≤ t'.pager.pageCount)
    (hp : TreeShape (· < ·) t.pager.pages h p)
    (hlt : ∀ q ∈ ids (tokens t.pager.pages h p), q < t.pager.pageCount)
    (hpages : ∀ q < t.pager.pageCount, t'.pager.pages q = t.pager.pages q)
    (he : e = .nodeTooLarge →
      OnRoute bs (fun _ _ ↦ False) k t.pager.pages fuel (t.pager.pages p)) :
    LeftBehind bs k v fuel t h p e t' := by
  have hsame : ∀ q ∈ ids (tokens t.pager.pages h p), t'.pager.pages q = t.pager.pages q :=
    fun q hq ↦ hpages q (hlt q hq)
  refine ⟨ht', hcount, treeShape_congr hsame hp, ?_, fun h ↦ Or.inl (he h)⟩
  rw [tokens_congr hsame]
  exact ⟨fun q hq _ ↦ hpages q hq, fun _ ↦ Or.inl, fun _ _ _ _ ↦ id, fun _ ↦ Or.inr⟩

/-- **An insertion that is refused**, by the size of a node or by the queue, leaves a tree in order,
with no keys but old ones and the inserted one. When a node did not fit, a key is gone unless the
descent met no full node. -/
theorem wp_insertNonFull_leftBehind : ∀ {fuel : Nat} {t : BPlusTree K V} {h p : Nat},
    t.pager.Sized → TreeShape (· < ·) t.pager.pages h p →
    (ids (tokens t.pager.pages h p)).Nodup → Ordered (· < ·) (tokens t.pager.pages h p) →
    OnRoute bs (NewSeparator k) k t.pager.pages fuel (t.pager.pages p) →
    Anchored t.pager.pages h p → (∀ q, (t.pager.pages q).Fits) →
    (pagerDevice K V).wp PagesBelow (insertNonFull bs fuel p (t.pager.pages p) k v)
      (fun _ _ ↦ True) (LeftBehind bs k v fuel t h p) t := by
  intro fuel
  induction fuel with
  | zero =>
    intro t h p ht hp _ _ _ _ _
    exact Device.wp_fail fun _ ↦ .of_unused ht le_rfl hp (lt_of_mem_ids ht hp) (fun _ _ ↦ rfl)
      fun _ ↦ trivial
  | succ fuel ih =>
    intro t h p ht hp hnodup hord hroute ha hfits
    have hlt := lt_of_mem_ids ht hp
    cases h with
    | zero =>
      have hleaf : (t.pager.pages p).LeafShape := hp
      simp only [insertNonFull, hleaf.isLeaf]
      refine wp_insertLeaf bs ht (hlt p (mem_ids_tokens _ 0 p)) hleaf k v
        (fun _ _ _ _ _ _ _ _ ↦ trivial) fun e _ ↦
        .of_unused ht le_rfl hp hlt (fun _ _ ↦ rfl) fun _ ↦ ?_
      simp only [OnRoute, hleaf.isLeaf]
    | succ h =>
      have hlen := hp.1.length_eq
      have hplt := hlt p (mem_ids_tokens _ _ p)
      simp only [insertNonFull, hp.1.isInternal]
      unfold OnRoute at hroute
      simp only [hp.1.isInternal] at hroute
      obtain ⟨hi, hSL, hSR⟩ := childIndex_spec bs upper_lt hp.1 hp.2.1 k
      have hquiet : OnRoute bs (fun _ _ ↦ False) k t.pager.pages (fuel + 1) (t.pager.pages p) ↔
          ∀ c, (t.pager.pages p).children[childIndex bs (t.pager.pages p) k]? = some c →
            SplitStep (fun _ _ ↦ False) k (t.pager.pages p).keys (t.pager.pages c)
              (OnRoute bs (fun _ _ ↦ False) k t.pager.pages fuel) := by
        simp only [OnRoute, hp.1.isInternal]
        rcases (t.pager.pages p).children[childIndex bs (t.pager.pages p) k]? with _ | c
        · simp
        · simp
      generalize childIndex bs (t.pager.pages p) k = i at hi hSL hSR hroute hquiet ⊢
      have hc : (t.pager.pages p).children[i]? = some (t.pager.pages p).children[i] :=
        List.getElem?_eq_getElem (by omega)
      generalize (t.pager.pages p).children[i] = c at hc
      simp only [hc] at hroute ⊢
      obtain ⟨hcshape, hcnodup, hcord, hcids⟩ := hp.child hnodup hord hc
      have hclt : ∀ q ∈ ids (tokens t.pager.pages h c), q < t.pager.pageCount :=
        fun q hq ↦ hlt q (hcids q hq)
      have hca := ha.2 c (List.mem_of_getElem? hc)
      -- whatever became of the child, with the node itself not written
      have hlift : ∀ {e : StorageError} {t' : BPlusTree K V}, t'.pager.Sized →
          t.pager.pageCount ≤ t'.pager.pageCount → TreeShape (· < ·) t'.pager.pages h c →
          Shrinks k v t.pager.pages t'.pager.pages t.pager.pageCount
            (tokens t.pager.pages h c) (tokens t'.pager.pages h c) →
          (e = .nodeTooLarge →
            OnRoute bs (fun _ _ ↦ False) k t.pager.pages (fuel + 1) (t.pager.pages p) ∨
              LosesKey k (tokens t.pager.pages h c) (tokens t'.pager.pages h c)) →
          LeftBehind bs k v (fuel + 1) t (h + 1) p e t' := by
        intro e t' ht' hcount hshape hshrinks hlost
        obtain ⟨-, hshape', hshrinks', hlost'⟩ :=
          shrinks_node hp hnodup hlt hord hi hc hSL hSR hshape hshrinks
        exact ⟨ht', hcount, hshape', hshrinks', fun he ↦ (hlost he).imp_right hlost'⟩
      refine Device.wp_read ?_
      show (pagerDevice K V).wp PagesBelow
        (if (t.pager.pages c).isFull then _ else _) _ _ t
      unfold SplitStep at hroute
      split
      · rename_i hfull
        obtain ⟨⟨m, hm⟩, hcan⟩ := exists_midKey_of_treeShape hcshape hfull
        simp only [if_pos hfull, hm] at hroute
        obtain ⟨hnew, hroute⟩ := hroute
        obtain ⟨hkm, hseps⟩ := newSeparator_spec k m _ hnew
        obtain ⟨hhalves, hfits₁⟩ := fits_splitPages (n := t.pager.pageCount) hcshape hfits hm
        obtain ⟨hshape₁, hsplit⟩ :=
          splits_node (n := t.pager.pageCount) upper_lt hp hnodup hlt hi hc hm
        obtain ⟨-, ha₁⟩ := anchored_split hp hnodup hlt hord ha hi hc hm hnew.2
        refine Device.wp_of_gwp (G := onPages fun _ _ ↦ True) (Device.gwp_bind guard_pagesBelow
          (gwp_splitChild ht (hclt c (mem_ids_tokens _ h c)) hm hcan ⟨hi, by omega⟩
          ⟨trivial, trivial, trivial⟩ (fun t₁ ht₁ hpages₁ hcount₁ ↦ ?_)
          fun e t₁ _ he ht₁ hcount₁ hpages₁ ↦ ?_))
        · rw [← splitPages] at hpages₁
          have hroute₁ := onRoute_half (n := t.pager.pageCount) hcshape hcnodup hclt hroute
          rw [← hpages₁] at hshape₁ hsplit hroute₁ ha₁ hfits₁
          have hord₁ := hsplit.ordered [] [] (by
            simpa only [List.nil_append, List.append_nil] using hord)
          simp only [List.nil_append, List.append_nil] at hord₁
          have hord₁ := (List.pairwise_cons.1 hord₁).2
          have hnodup₁ := hsplit.nodup
          rw [ids_inner] at hnodup₁
          obtain ⟨hkey, hnext, L, R, SL, SR, hch₁, hks₁, hlenL, hlenR, -, -⟩ :=
            exists_half (m := m) hp.1 hi hc t.pager.pageCount hSL hSR hkm
          have hhalf : (if m < k then t.pager.pageCount else c) = t.pager.pageCount ∨
              (if m < k then t.pager.pageCount else c) = c := by
            split
            · exact Or.inl rfl
            · exact Or.inr rfl
          generalize (if m < k then t.pager.pageCount else c) = d at hroute₁ hnext hch₁ hhalf
          have hdmem : d ∈ (t.pager.pages p).children.insertIdx (i + 1) t.pager.pageCount := by
            rw [hch₁]; simp
          have hdsub : (tokens t₁.pager.pages h d).Sublist (weave (tokens t₁.pager.pages h)
              ((t.pager.pages p).children.insertIdx (i + 1) t.pager.pageCount)
              ((t.pager.pages p).keys.insertIdx i m)) := by
            rw [hch₁, hks₁, weave_append _ hlenL hlenR]
            exact (List.sublist_append_left _ _).trans (List.sublist_append_right _ _)
          have hdnodup := (List.nodup_cons.1 hnodup₁).2.sublist (hdsub.filterMap _)
          have hdord := List.Pairwise.sublist hdsub hord₁
          -- what the descent into one of the halves left, refused or done
          have hleft : ∀ {e : StorageError} {t₂ : BPlusTree K V}, t₂.pager.Sized →
              t₁.pager.pageCount ≤ t₂.pager.pageCount → TreeShape (· < ·) t₂.pager.pages h d →
              Shrinks k v t₁.pager.pages t₂.pager.pages t₁.pager.pageCount
                (tokens t₁.pager.pages h d) (tokens t₂.pager.pages h d) →
              LeftBehind bs k v (fuel + 1) t (h + 1) p e t₂ := by
            intro e t₂ ht₂ hcount₂ hshape₂ hshrinks₂
            rw [hcount₁] at hshrinks₂
            obtain ⟨hshape, hshrinks, hlost⟩ := shrinks_half hcshape hcnodup hclt hm hcord hca
              hnew.1 hpages₁ hhalf hshape₂ hshrinks₂
            exact hlift ht₂ (by omega) hshape hshrinks fun _ ↦ Or.inr hlost
          simp only [hkey, hnext]
          refine Device.gwp_of_wp (fun _ _ ↦ trivial) (Device.wp_read ?_)
          show (pagerDevice K V).wp PagesBelow
            (insertNonFull bs fuel d (t₁.pager.pages d) k v >>= fun _ ↦ saveNode p _) _ _ t₁
          refine Device.wp_bind guard_pagesBelow (Device.wp_mono (Device.wp_and
            (ih ht₁ (hshape₁ d hdmem) hdnodup hdord hroute₁ (ha₁ d hdmem) hfits₁)
            (insertsBelow upper_lt v (newSeparator_spec k) fuel ht₁ (hshape₁ d hdmem) hdnodup hdord
              hroute₁)) (fun _ t₂ _ h₂ ↦ ?_) fun e t₂ _ h₂ ↦
              hleft h₂.1.sized h₂.1.count_le h₂.1.shape h₂.1.shrinks)
          obtain ⟨-, ht₂, hshape₂, hins₂⟩ := h₂
          exact wp_saveNode ht₂ (by have := hins₂.count_le; omega) _ (fun _ _ _ _ ↦ trivial)
            fun e _ ↦ hleft ht₂ hins₂.count_le hshape₂ hins₂.shrinks
        · refine .of_unused ht₁ (by omega) hp hlt (fun q hq ↦ ?_) fun h ↦ ?_
          · rcases hpages₁ with hpages₁ | hpages₁
            · rw [hpages₁]
            · rw [hpages₁, Function.update_of_ne (by omega)]
          · rw [he hhalves] at h
            cases h
      · rename_i hfull
        rw [if_neg hfull] at hroute
        refine Device.wp_bind guard_pagesBelow (Device.wp_mono (Device.wp_and
          (ih ht hcshape hcnodup hcord hroute hca hfits)
          (insertsBelow upper_lt v (newSeparator_spec k) fuel ht hcshape hcnodup hcord hroute))
          (fun _ t₁ _ h₁ ↦ ?_) fun e t₁ _ h₁ ↦ ?_)
        · obtain ⟨-, ht₁, hshape₁, hins₁⟩ := h₁
          refine Device.wp_of_gwp (G := onPages fun _ _ ↦ True) (gwp_saveNode ht₁
            (by have := hins₁.count_le; omega) _ trivial (fun _ _ _ _ ↦ trivial) fun e _ he ↦ ?_)
          refine hlift ht₁ hins₁.count_le hshape₁ hins₁.shrinks fun h ↦ ?_
          rw [he (hfits p)] at h
          cases h
        · refine hlift h₁.1.sized h₁.1.count_le h₁.1.shape h₁.1.shrinks fun he ↦
            (h₁.1.lost he).imp_left fun hquiet' ↦ hquiet.2 fun c' hc' ↦ ?_
          obtain rfl : c = c' := Option.some.inj (hc.symm.trans hc')
          rw [SplitStep, if_neg hfull]
          exact hquiet'

/-- **An insertion that splits a node below the root** passes a point at which a key is gone. -/
theorem exists_truncated {fuel : Nat} : ∀ {t : BPlusTree K V} {h p : Nat},
    t.pager.Sized → TreeShape (· < ·) t.pager.pages h p →
    (ids (tokens t.pager.pages h p)).Nodup → Ordered (· < ·) (tokens t.pager.pages h p) →
    OnRoute bs (NewSeparator k) k t.pager.pages fuel (t.pager.pages p) →
    Anchored t.pager.pages h p →
    ((pagerDevice K V).run (insertNonFull bs fuel p (t.pager.pages p) k v) t).1 = .ok () →
    ((pagerDevice K V).run (insertNonFull bs fuel p (t.pager.pages p) k v) t).2.PagesBelow →
    ¬ OnRoute bs (fun _ _ ↦ False) k t.pager.pages fuel (t.pager.pages p) →
    ∃ s ∈ (pagerDevice K V).points (insertNonFull bs fuel p (t.pager.pages p) k v) t,
      TreeShape (· < ·) s.pager.pages h p ∧
      Shrinks k v t.pager.pages s.pager.pages t.pager.pageCount (tokens t.pager.pages h p)
        (tokens s.pager.pages h p) ∧
      LosesKey k (tokens t.pager.pages h p) (tokens s.pager.pages h p) := by
  induction fuel with
  | zero => exact fun _ _ _ _ _ _ _ _ hloud ↦ absurd trivial hloud
  | succ fuel ih =>
    intro t h p ht hp hnodup hord hroute ha hok hb hloud
    have hlt := lt_of_mem_ids ht hp
    cases h with
    | zero =>
      have hleaf : (t.pager.pages p).LeafShape := hp
      exact absurd (by simp only [OnRoute, hleaf.isLeaf]) hloud
    | succ h =>
      have hlen := hp.1.length_eq
      simp only [insertNonFull, hp.1.isInternal] at hok hb ⊢
      simp only [OnRoute, hp.1.isInternal] at hroute hloud
      obtain ⟨hi, hSL, hSR⟩ := childIndex_spec bs upper_lt hp.1 hp.2.1 k
      generalize childIndex bs (t.pager.pages p) k = i at hi hSL hSR hroute hloud hok hb ⊢
      have hc : (t.pager.pages p).children[i]? = some (t.pager.pages p).children[i] :=
        List.getElem?_eq_getElem (by omega)
      generalize (t.pager.pages p).children[i] = c at hc
      simp only [hc] at hroute hloud hok hb ⊢
      obtain ⟨hcshape, hcnodup, hcord, hcids⟩ := hp.child hnodup hord hc
      have hclt : ∀ q ∈ ids (tokens t.pager.pages h c), q < t.pager.pageCount :=
        fun q hq ↦ hlt q (hcids q hq)
      have hca := ha.2 c (List.mem_of_getElem? hc)
      change ((pagerDevice K V).run
        (if (t.pager.pages c).isFull then _ else _) t).1 = _ at hok
      change ((pagerDevice K V).run
        (if (t.pager.pages c).isFull then _ else _) t).2.PagesBelow at hb
      show ∃ s ∈ (pagerDevice K V).points (if (t.pager.pages c).isFull then _ else _) t, _
      unfold SplitStep at hroute hloud
      by_cases hfull : (t.pager.pages c).isFull
      · obtain ⟨⟨m, hm⟩, hcan⟩ := exists_midKey_of_treeShape hcshape hfull
        simp only [if_pos hfull, hm] at hroute hok hb ⊢
        obtain ⟨node, t₁, hrun, hrest⟩ := Device.exists_run_of_bind _ hok
        rw [hrest] at hb
        have hpages := Device.outcome_of_wp (wp_splitChild (Q := fun _ t' ↦ t'.pager.pages =
          splitPages t.pager.pages t.pager.pageCount c) (F := fun _ _ ↦ True) ht
          (hclt c (mem_ids_tokens _ h c)) hm hcan ⟨hi, by omega⟩ (fun _ _ h _ ↦ h)
          fun _ _ _ _ _ _ ↦ trivial) hrun (guard_pagesBelow.run _ hb)
        obtain ⟨s, hs, hsp⟩ := Device.exists_point (D := pagerDevice K V)
          (fun s : BPlusTree K V ↦ s.pager.pages)
          (fun _ _ _ _ hlog ↦ congrArg Pager.pages (pager_of_log hlog)) (fun _ ↦ rfl)
          (splitChild (t.pager.pages p) i c) t
        rw [hrun] at hsp
        have hsplit : s.pager.pages = splitPages t.pager.pages t.pager.pageCount c :=
          hsp.trans hpages
        obtain ⟨hshape, hshrinks, hlost⟩ := shrinks_split (v := v) hcshape hcnodup hclt hm hcord
          hca hroute.1.1
        rw [← hsplit] at hshape hshrinks hlost
        obtain ⟨-, hshape', hshrinks', hlost'⟩ :=
          shrinks_node hp hnodup hlt hord hi hc hSL hSR hshape hshrinks
        exact ⟨s, Device.mem_points_bind _ hs, hshape', hshrinks', hlost' hlost⟩
      · simp only [if_neg hfull] at hroute hloud hok hb ⊢
        obtain ⟨_, t₁, hrun, hrest⟩ := Device.exists_run_of_bind _ hok
        rw [hrest] at hb
        change (pagerDevice K V).run (insertNonFull bs fuel c (t.pager.pages c) k v) t = _ at hrun
        obtain ⟨s, hs, hshape, hshrinks, hlost⟩ := ih ht hcshape hcnodup hcord hroute hca
          (by rw [hrun]) (by rw [hrun]; exact guard_pagesBelow.run _ hb) hloud
        obtain ⟨-, hshape', hshrinks', hlost'⟩ :=
          shrinks_node hp hnodup hlt hord hi hc hSL hSR hshape hshrinks
        exact ⟨s, Device.mem_points_bind _ hs, hshape', hshrinks', hlost' hlost⟩

end Stopped

/-! ### The whole insertion -/

section Root

variable {t t₁ : BPlusTree K V} {h : Nat} {k : K} {v : V} {bs : BinarySearch K}

omit [LinearOrder K] in
/-- A node's content, copied to a page that is not in use, has the same subtrees below it. -/
theorem copy_children {P : Nat → Node K V} {n p : Nat} (hn : n ∉ ids (tokens P (h + 1) p)) :
    ∀ c ∈ (P p).children, ∀ q ∈ ids (tokens P h c), Function.update P n (P p) q = P q := by
  intro c hc q hq
  refine Function.update_of_ne (fun e ↦ hn ?_) _ _
  rw [← e, ids_tokens_succ]
  exact List.mem_cons_of_mem p (List.mem_flatMap.2 ⟨c, hc, hq⟩)

omit [LinearOrder K] in
/-- The copy of a node whose separators are anchored has anchored separators. -/
theorem anchored_copy {P : Nat → Node K V} {n p : Nat} (ha : Anchored P h p)
    (hn : n ∉ ids (tokens P h p)) : Anchored (Function.update P n (P p)) h n := by
  cases h with
  | zero => trivial
  | succ h =>
    have hP := copy_children hn
    rw [Anchored, Function.update_self]
    refine ⟨fun i s c hs hc ↦ ?_, fun c hc ↦ anchored_congr (hP c hc) (ha.2 c hc)⟩
    rw [tokens_congr (hP c (List.mem_of_getElem? hc))]
    exact ha.1 i s c hs hc

omit [LinearOrder K] in
/-- The copy of a node uses its own page and those below the node. -/
theorem mem_ids_copy {P : Nat → Node K V} {n p q : Nat} (hn : n ∉ ids (tokens P h p))
    (hq : q ∈ ids (tokens (Function.update P n (P p)) h n)) : q = n ∨ q ∈ ids (tokens P h p) := by
  cases h with
  | zero =>
    rw [tokens, ids_leaf, ids_ofEntries] at hq
    exact Or.inl (List.mem_singleton.1 hq)
  | succ h =>
    rw [ids_tokens_succ, Function.update_self] at hq
    rw [ids_tokens_succ]
    refine (List.mem_cons.1 hq).imp_right fun hq ↦ List.mem_cons_of_mem p ?_
    obtain ⟨c, hc, hq⟩ := List.mem_flatMap.1 hq
    rw [tokens_congr (copy_children hn c hc)] at hq
    exact List.mem_flatMap.2 ⟨c, hc, hq⟩

variable [ByteLen K] [ByteLen V]

/-- **The tree under its new root** is in search-tree order, has the bindings it had, and its
separators are anchored. -/
theorem searchTree_descent (ht : SearchTree (· < ·) t h)
    (ha : Anchored t.pager.pages h rootPageId) (ht₁ : t₁.pager.Sized)
    (hpages : t₁.pager.pages = t.descentPages) :
    SearchTree (· < ·) t₁ (t.descentHeight h) ∧
      t₁.bindings (t.descentHeight h) = t.bindings h ∧
      Anchored t₁.pager.pages (t.descentHeight h) rootPageId := by
  rw [descentHeight]
  rw [descentPages] at hpages
  split
  · rename_i hfull
    obtain ⟨⟨m, hm⟩, -⟩ := exists_midKey_of_treeShape ht.shape hfull
    simp only [if_pos hfull, hm] at hpages
    have hlt := lt_of_mem_ids ht.sized ht.shape
    have hpos : rootPageId < t.pager.pageCount := ht.sized.pos
    have hfree : t.pager.pageCount ∉ ids (tokens t.pager.pages h rootPageId) :=
      fun hmem ↦ lt_irrefl _ (hlt _ hmem)
    have hltP : ∀ q ∈ ids (tokens (Function.update t.pager.pages t.pager.pageCount
        (t.pager.pages rootPageId)) h t.pager.pageCount), q < t.pager.pageCount + 1 :=
      fun q hq ↦ (mem_ids_copy hfree hq).elim (fun e ↦ e ▸ Nat.lt_succ_self _)
        fun hq ↦ Nat.lt_succ_of_lt (hlt q hq)
    obtain ⟨hshape, hnodup, hord, hlinked, hbindings, hroot⟩ := copy_root ht hfree
    have hcopy := anchored_copy ha hfree
    have hmid : (Function.update t.pager.pages t.pager.pageCount (t.pager.pages rootPageId)
        t.pager.pageCount).midKey? = some m := by rw [Function.update_self, hm]
    rw [rootSplitPages] at hpages
    generalize Function.update t.pager.pages t.pager.pageCount (t.pager.pages rootPageId) = P
      at hltP hshape hnodup hord hlinked hbindings hroot hcopy hmid hpages
    have hsplit := splits_tokens upper_lt hshape hnodup hltP hmid
    obtain ⟨hleft, hright⟩ := treeShape_split hshape hnodup hltP hmid
    obtain ⟨haL, haR⟩ := anchored_halves hshape hnodup hltP hcopy
    obtain ⟨hkeys, hkeysL, -⟩ := keysOf_split hshape hnodup hltP hmid hord
    have hmem := midKey_mem_keysOf hshape hcopy hmid
    rw [hkeys, List.mem_append] at hmem
    have hroot' : rootPageId ∉ ids (tokens (splitPages P (t.pager.pageCount + 1) t.pager.pageCount)
        h t.pager.pageCount ++ sep m :: tokens (splitPages P (t.pager.pageCount + 1)
        t.pager.pageCount) h (t.pager.pageCount + 1)) := fun hmem ↦
      (hsplit.ids_mem _ hmem).elim hroot fun hmem ↦ absurd hmem.1 (by omega)
    have hord' := hsplit.ordered [] [] (by
      simpa only [List.nil_append, List.append_nil] using hord)
    simp only [List.nil_append, List.append_nil] at hord'
    obtain ⟨htree, hbindings'⟩ := searchTree_newRoot ht₁ hpages hleft hright hsplit.nodup hroot'
      hord' (hsplit.linked none hlinked)
    refine ⟨htree, by rw [hbindings', hsplit.bindings_eq, hbindings], ?_⟩
    -- the new root's pages away from the root itself
    generalize splitPages P (t.pager.pageCount + 1) t.pager.pageCount = P' at *
    have hP' : ∀ q, q ∈ ids (tokens P' h t.pager.pageCount) ∨
        q ∈ ids (tokens P' h (t.pager.pageCount + 1)) → t₁.pager.pages q = P' q := by
      intro q hq
      rw [hpages]
      refine Function.update_of_ne (fun e ↦ hroot' ?_) _ _
      rw [← e, ids_append, ids_sep]
      exact List.mem_append.2 hq
    rw [Anchored, hpages, Function.update_self, ← hpages]
    refine ⟨fun i s c hs hc ↦ ?_, fun c hc ↦ ?_⟩
    · have hi := (List.getElem?_eq_some_iff.1 hs).1
      rw [List.length_singleton, Nat.lt_one_iff] at hi
      subst hi
      obtain rfl := Option.some.inj hs
      obtain rfl := Option.some.inj hc
      rw [tokens_congr fun q hq ↦ hP' q (Or.inr hq)]
      exact hmem.resolve_left fun h ↦ lt_irrefl m (hkeysL m h)
    · rcases List.mem_cons.1 hc with rfl | hc
      · exact anchored_congr (fun q hq ↦ hP' q (Or.inl hq)) haL
      · rw [List.mem_singleton.1 hc]
        exact anchored_congr (fun q hq ↦ hP' q (Or.inr hq)) haR
  · rename_i hfull
    rw [if_neg hfull] at hpages
    refine ⟨⟨ht₁, ?_, ?_, ?_, ?_⟩, ?_, ?_⟩
    · rw [hpages]; exact ht.shape
    · rw [hpages]; exact ht.nodup
    · rw [hpages]; exact ht.ordered
    · rw [hpages]; exact ht.linked
    · rw [BPlusTree.bindings, hpages, BPlusTree.bindings]
    · rw [hpages]; exact ha

/-- The route of an insertion, as it is when the descent begins. -/
theorem onRoute_descent {cond : K → List K → Prop} (ht : SearchTree (· < ·) t h)
    (hroute : t.SplitsBelowRoot bs cond k) :
    OnRoute bs cond k t.descentPages t.fuel (t.descentPages rootPageId) := by
  rw [descentPages]
  unfold SplitsBelowRoot at hroute
  split
  · rename_i hfull
    obtain ⟨⟨m, hm⟩, -⟩ := exists_midKey_of_treeShape ht.shape hfull
    simp only [if_pos hfull, hm] at hroute ⊢
    have hpos : rootPageId < t.pager.pageCount := ht.sized.pos
    refine onRoute_newRoot (n := t.pager.pageCount) (m := m) (fun c hc q hq ↦ ?_) ?_ ?_ ?_
      (rootSplitPages_left hpos.ne') rootSplitPages_right hroute
    · have hnodup := ht.nodup
      have hlt := lt_of_mem_ids ht.sized ht.shape
      have hshape := ht.shape
      cases h with
      | zero =>
        rw [Node.LeafShape.children_eq hshape] at hc
        cases hc
      | succ h =>
        rw [ids_tokens_succ] at hnodup hlt
        have hq' : q ∈ (t.pager.pages rootPageId).children.flatMap
            fun c ↦ ids (tokens t.pager.pages h c) :=
          List.mem_flatMap.2 ⟨c, hc, (hshape.2.2 c hc).mem_ids_of_below hq⟩
        have hlt' := hlt q (List.mem_cons_of_mem _ hq')
        exact rootSplitPages_of_ne (fun e ↦ (List.nodup_cons.1 hnodup).1 (e ▸ hq')) (by omega)
          (by omega)
    · rw [rootSplitPages_root]
    · rw [rootSplitPages_root]
    · rw [rootSplitPages_root]
  · rename_i hfull
    rwa [if_neg hfull] at hroute

/-- **One insertion** that is done keeps the separators anchored, if it splits at new ones. -/
theorem insert_anchored (ht : SearchTree (· < ·) t h) (hfits : ∀ q, (t.pager.pages q).Fits)
    (ha : Anchored t.pager.pages h rootPageId) (hroute : t.SplitsBelowRoot bs (NewSeparator k) k)
    (hok : (t.insert bs k v).1 = .ok ()) (hb : (t.insert bs k v).2.PagesBelow) :
    ∃ h', SearchTree (· < ·) (t.insert bs k v).2 h' ∧
      Anchored (t.insert bs k v).2.pager.pages h' rootPageId := by
  rcases exists_descent bs ht.sized (ht.wellFormed ht.leafOk) hfits hb with
    herr | ⟨t₁, ht₁, hpages₁, -, hrun, -, -⟩
  · rw [hok] at herr
    cases herr
  · obtain ⟨htree, -, ha₁⟩ := searchTree_descent ht ha ht₁ hpages₁
    have hroute₁ := onRoute_descent ht hroute
    rw [← hpages₁] at hroute₁
    have hwp := Device.wp_and (anchorsBelow t.fuel ht₁ htree.shape htree.nodup htree.ordered
      hroute₁ ha₁) (insertsBelow upper_lt v (newSeparator_spec k) t.fuel ht₁ htree.shape
      htree.nodup htree.ordered hroute₁)
    rcases hins : t.insert bs k v with ⟨e | u, t'⟩
    · rw [hins] at hok
      cases hok
    · rw [hins] at hrun hb
      obtain ⟨ha', ht', hshape', hins'⟩ := Device.outcome_of_wp hwp hrun hb
      exact ⟨_, (htree.of_inserts ht' hshape' hins').1, ha'⟩

variable (bs) in
/-- The insertion is done, and splits nodes below the root at new separators only. -/
def BPlusTree.InsertsInOrder (t : BPlusTree K V) (k : K) (v : V) : Prop :=
  t.SplitsBelowRoot bs (NewSeparator k) k ∧ (t.insert bs k v).1 = .ok ()

/-- Insertions one after another, all done and splitting at new separators, grow a tree further. -/
theorem BPlusTree.Grown.insertAll {tier : MemoryTier K V} {kvs : List (K × V)} :
    ∀ {t t' : BPlusTree K V}, t.Grown bs tier (InsertsInOrder bs) →
      t.SplitsInRun bs NewSeparator kvs → t.insertAll bs kvs = .ok t' →
      t'.Grown bs tier (InsertsInOrder bs) := by
  induction kvs with
  | nil => exact fun ht _ hrun ↦ Except.ok.inj hrun ▸ ht
  | cons kv kvs ih =>
    intro t t' ht hsplits hrun
    rw [BPlusTree.insertAll] at hrun
    rw [SplitsInRun] at hsplits
    rcases hins : t.insert bs kv.1 kv.2 with ⟨e | u, t₁⟩
    · rw [hins] at hrun
      cases hrun
    · have ht₁ := ht.insert kv.1 kv.2 ⟨hsplits.1, by rw [hins]⟩
      rw [hins] at hrun hsplits ht₁
      exact ih ht₁ hsplits.2 hrun

/-- **Insertions that are done and split at new separators** grow trees in search-tree order whose
separators are anchored. -/
theorem BPlusTree.Grown.anchored {tier : MemoryTier K V}
    (ht : t.Grown bs tier (InsertsInOrder bs)) (hb : t.PagesBelow) :
    ∃ h, SearchTree (· < ·) t h ∧ Anchored t.pager.pages h rootPageId := by
  induction ht with
  | empty => exact ⟨0, (searchTree_openEmpty _ tier).1, trivial⟩
  | insert k v ht hstep ih =>
    have hb' := guard_pagesBelow.run _ hb
    obtain ⟨h, htree, ha⟩ := ih hb'
    exact insert_anchored htree (ht.sound (R := fun _ _ ↦ True) (fun _ _ _ _ ↦ trivial) hb').2 ha
      hstep.1 hstep.2 hb
  | log wal _ ih =>
    obtain ⟨h, htree, ha⟩ := ih hb
    exact ⟨h, ⟨htree.sized, htree.shape, htree.nodup, htree.ordered, htree.linked⟩, ha⟩

variable (bs) in
omit [ByteLen K] [ByteLen V] in
/-- Of a tree that lost a key, a lookup does not find that key any more. -/
theorem exists_lookup_lost {t' : BPlusTree K V} {n : Nat} (ht : SearchTree (· < ·) t h)
    (hshape : TreeShape (· < ·) t'.pager.pages h rootPageId)
    (hshrinks : Shrinks k v t.pager.pages t'.pager.pages n (tokens t.pager.pages h rootPageId)
      (tokens t'.pager.pages h rootPageId))
    (hlost : LosesKey k (tokens t.pager.pages h rootPageId)
      (tokens t'.pager.pages h rootPageId)) :
    ∃ key old, key ≠ k ∧ (t.bindings h).lookup key = some old ∧ ∀ fuel, h < fuel →
      (pagerDevice K V).run (getLoop bs key fuel rootPageId) t' = (.ok none, t') := by
  obtain ⟨m, hm, hmk, hm'⟩ := hlost
  have hord := hshrinks.keeps [] [] nofun nofun (by
    simpa only [List.nil_append, List.append_nil] using ht.ordered)
  simp only [List.nil_append, List.append_nil] at hord
  obtain ⟨⟨m', old⟩, hmem, rfl⟩ := List.mem_map.1 hm
  refine ⟨m', ((t.bindings h).lookup m').get ?_, hmk, (Option.some_get _).symm, fun fuel hfuel ↦ ?_⟩
  · rw [Option.isSome_iff_ne_none, Ne, List.lookup_eq_none_iff]
    exact fun hnone ↦ bne_iff_ne.1 (hnone (m', old) hmem) rfl
  · rw [run_getLoop_eq_lookup bs m' hshape hord hfuel]
    refine congrArg (fun r ↦ (Except.ok r, t')) (List.lookup_eq_none_iff.2 fun e he ↦
      bne_iff_ne.2 fun h ↦ hm' ?_)
    exact List.mem_map.2 ⟨e, he, h.symm⟩

/-- **An insertion that splits a node below the root** passes a point at which a lookup does not find
what it found before. -/
theorem exists_point_lost {tier : MemoryTier K V} (ht : t.Grown bs tier (InsertsInOrder bs))
    (hstep : t.InsertsInOrder bs k v) (hb : (t.insert bs k v).2.PagesBelow)
    (hloud : ¬ t.QuietBelowRoot bs k) :
    ∃ s ∈ (pagerDevice K V).points (insertProgram bs t.fuel k v) t, ∃ key old, key ≠ k ∧
      t.getPages bs key = .ok (some old) ∧ ∀ fuel, t.fuel ≤ fuel →
        (pagerDevice K V).run (getLoop bs key fuel rootPageId) s = (.ok none, s) := by
  have hbelow : t.PagesBelow := guard_pagesBelow.run _ hb
  obtain ⟨h, htree, ha⟩ := ht.anchored hbelow
  obtain ⟨-, hfits⟩ := ht.any.sound
    (R := fun _ _ ↦ True) (fun _ _ _ _ ↦ trivial) hbelow
  obtain ⟨hroute, hok⟩ := hstep
  have hroot := htree.wellFormed htree.leafOk
  rcases exists_descent bs htree.sized hroot hfits hb with
    herr | ⟨t₁, ht₁, hpages₁, -, hrun, htrace, -⟩
  · rw [hok] at herr
    cases herr
  · obtain ⟨htree₁, hbindings₁, ha₁⟩ := searchTree_descent htree ha ht₁ hpages₁
    have hroute₁ := onRoute_descent htree hroute
    rw [QuietBelowRoot] at hloud
    rw [← hpages₁] at hroute₁ hloud
    obtain ⟨s, hs, hshape, hshrinks, hlost⟩ := exists_truncated (v := v) ht₁ htree₁.shape
      htree₁.nodup htree₁.ordered hroute₁ ha₁ (by rw [hrun, hok]) (by rw [hrun]; exact hb) hloud
    have hs : s ∈ (pagerDevice K V).points (insertProgram bs t.fuel k v) t := by
      rcases List.mem_cons.1 hs with rfl | hs
      · obtain ⟨m, hm, -, hm'⟩ := hlost
        exact absurd hm hm'
      · exact htrace s hs
    obtain ⟨key, old, hkey, hold, hlookup⟩ :=
      exists_lookup_lost bs htree₁ hshape hshrinks hlost
    refine ⟨s, hs, key, old, hkey, ?_, fun fuel hfuel ↦ hlookup fuel ?_⟩
    · rw [getPages_eq_lookup bs htree, ← hbindings₁, hold]
    · exact lt_of_le_of_lt (descentHeight_le t h) (lt_of_lt_of_le
        (Nat.succ_lt_succ (hroot.height_lt htree.sized.blank)) hfuel)

end Root

end KsSql
