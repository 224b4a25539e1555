import KsSql.Storage.TreeView
import KsSql.Storage.Routines

/-!
# How a subtree grows

`Rewrites P P' n n' T T'` says how a change of the pages turns a subtree's tokens `T` into `T'`:
nothing outside the subtree's own pages and the new ones (`n` up to `n'`) changes, no page is used
twice, and the leaves are linked as before, with the new ones in their places. `Inserts` adds what
an insertion of `k ↦ v` does: the tokens stay in order, whatever stands around them, and the bindings
become those with the new one put in.

Both carry over to a larger list around the subtree (`Rewrites.context`, `Inserts.context`), which is
how a change of one child becomes a change of its parent. The two ways to grow are a leaf's new
content (`inserts_leaf`) and a split (`splits_tokens`).
-/

namespace KsSql

open Token

variable {K V : Type}

section Change

variable {P P' P'' : Nat → Node K V} {n n' n'' : Nat} {T T' T'' A C : List (Token K V)}

/-- A change of the pages, seen as a change of the tokens of a subtree. -/
structure Rewrites (P P' : Nat → Node K V) (n n' : Nat) (T T' : List (Token K V)) : Prop where
  count_le : n ≤ n'
  frame : ∀ q < n, q ∉ ids T → P' q = P q
  ids_mem : ∀ q ∈ ids T', q ∈ ids T ∨ n ≤ q ∧ q < n'
  nodup : (ids T').Nodup
  head : (leafIds T').head? = (leafIds T).head?
  linked : ∀ exit, Linked P (leafIds T) exit → Linked P' (leafIds T') exit

theorem Rewrites.trans (h : Rewrites P P' n n' T T') (h' : Rewrites P' P'' n' n'' T' T'') :
    Rewrites P P'' n n'' T T'' where
  count_le := h.count_le.trans h'.count_le
  frame q hq hT := by
    have hT' : q ∉ ids T' := fun hmem ↦ (h.ids_mem q hmem).elim hT fun hn ↦ by omega
    rw [h'.frame q (lt_of_lt_of_le hq h.count_le) hT', h.frame q hq hT]
  ids_mem q hq := by
    have := h.count_le
    have := h'.count_le
    rcases h'.ids_mem q hq with hq | hq
    · exact (h.ids_mem q hq).imp_right fun hn ↦ ⟨hn.1, by omega⟩
    · exact Or.inr ⟨by omega, hq.2⟩
  nodup := h'.nodup
  head := h'.head.trans h.head
  linked exit hl := h'.linked exit (h.linked exit hl)

/-- A change of a part is a change of the whole. -/
theorem Rewrites.context (h : Rewrites P P' n n' T T') (hnodup : (ids (A ++ (T ++ C))).Nodup)
    (hlt : ∀ q ∈ ids (A ++ (T ++ C)), q < n) :
    Rewrites P P' n n' (A ++ (T ++ C)) (A ++ (T' ++ C)) := by
  simp only [ids_append, List.nodup_append] at hnodup
  simp only [ids_append, List.mem_append] at hlt
  obtain ⟨hA, ⟨hT, hC, hTC⟩, hATC⟩ := hnodup
  have hnew : ∀ q ∈ ids T', q ∈ ids T ∨ n ≤ q := fun q hq ↦ (h.ids_mem q hq).imp_right And.left
  have hA' : ∀ q ∈ leafIds A, P' q = P q := fun q hq ↦ by
    have hq := mem_ids_of_mem_leafIds hq
    exact h.frame q (hlt q (Or.inl hq))
      fun hq' ↦ hATC q hq q (List.mem_append_left _ hq') rfl
  have hC' : ∀ q ∈ leafIds C, P' q = P q := fun q hq ↦ by
    have hq := mem_ids_of_mem_leafIds hq
    exact h.frame q (hlt q (Or.inr (Or.inr hq))) fun hq' ↦ hTC q hq' q hq rfl
  refine ⟨h.count_le, fun q hq hmem ↦ ?_, fun q hq ↦ ?_, ?_, ?_, fun exit hl ↦ ?_⟩
  · simp only [ids_append, List.mem_append, not_or] at hmem
    exact h.frame q hq hmem.2.1
  · simp only [ids_append, List.mem_append] at hq ⊢
    rcases hq with hq | hq | hq
    · exact Or.inl (Or.inl hq)
    · exact (h.ids_mem q hq).imp_left fun hq ↦ Or.inr (Or.inl hq)
    · exact Or.inl (Or.inr (Or.inr hq))
  · simp only [ids_append, List.nodup_append]
    refine ⟨hA, ⟨h.nodup, hC, fun a ha b hb e ↦ ?_⟩, fun a ha b hb e ↦ ?_⟩
    · subst e
      rcases hnew a ha with ha | ha
      · exact hTC a ha a hb rfl
      · have := hlt a (Or.inr (Or.inr hb))
        omega
    · subst e
      rcases List.mem_append.1 hb with hb | hb
      · rcases hnew a hb with hb | hb
        · exact hATC a ha a (List.mem_append_left _ hb) rfl
        · have := hlt a (Or.inl ha)
          omega
      · exact hATC a ha a (List.mem_append_right _ hb) rfl
  · simp only [leafIds_append, List.head?_append, h.head]
  · simp only [leafIds_append, linked_append, List.head?_append] at hl ⊢
    rw [h.head]
    exact ⟨linked_congr hA' hl.1, h.linked _ hl.2.1, linked_congr hC' hl.2.2⟩

end Change

variable [LinearOrder K] {up : K → K → Prop} {k : K} {v : V} {P P' P'' : Nat → Node K V}
  {n n' n'' : Nat} {T T' T'' A C : List (Token K V)}

/-- Order is kept, whatever stands on either side of the key. -/
def Keeps (up : K → K → Prop) (k : K) (v : V) (T T' : List (Token K V)) : Prop :=
  ∀ A C, (∀ a ∈ A, Before up a (entry k v)) → (∀ c ∈ C, Before up (entry k v) c) →
    Ordered up (A ++ (T ++ C)) → Ordered up (A ++ (T' ++ C))

/-- The bindings with `k ↦ v` put in where the order puts `k`. -/
def Upserted (up : K → K → Prop) (k : K) (v : V) (E E' : List (K × V)) : Prop :=
  ∃ A B C, E = A ++ (B ++ C) ∧ E' = A ++ (SortedAssoc.upsert k v B ++ C) ∧
    (∀ a ∈ A, up a.1 k) ∧ ∀ c ∈ C, up k c.1

/-- An insertion of `k ↦ v`, seen as a change of the tokens of a subtree. -/
structure Inserts (up : K → K → Prop) (k : K) (v : V) (P P' : Nat → Node K V) (n n' : Nat)
    (T T' : List (Token K V)) : Prop extends Rewrites P P' n n' T T' where
  keeps : Keeps up k v T T'
  upserted : Upserted up k v (bindings T) (bindings T')

theorem Keeps.context (h : Keeps up k v T T') (hA : ∀ a ∈ A, Before up a (entry k v))
    (hC : ∀ c ∈ C, Before up (entry k v) c) : Keeps up k v (A ++ (T ++ C)) (A ++ (T' ++ C)) := by
  intro A' C' hA' hC' hord
  have := h (A' ++ A) (C ++ C')
    (fun a ha ↦ (List.mem_append.1 ha).elim (hA' a) (hA a))
    (fun c hc ↦ (List.mem_append.1 hc).elim (hC c) (hC' c))
    (by simpa only [List.append_assoc] using hord)
  simpa only [List.append_assoc] using this

theorem Upserted.context {A C E E' : List (K × V)} (h : Upserted up k v E E')
    (hA : ∀ a ∈ A, up a.1 k) (hC : ∀ c ∈ C, up k c.1) :
    Upserted up k v (A ++ (E ++ C)) (A ++ (E' ++ C)) := by
  obtain ⟨A', B, C', rfl, rfl, hA', hC'⟩ := h
  refine ⟨A ++ A', B, C' ++ C, ?_, ?_, fun a ha ↦ (List.mem_append.1 ha).elim (hA a) (hA' a),
    fun c hc ↦ (List.mem_append.1 hc).elim (hC' c) (hC c)⟩
  all_goals simp only [List.append_assoc]

theorem up_of_mem_bindings_left (hA : ∀ a ∈ A, Before up a (entry k v)) :
    ∀ e ∈ bindings A, up e.1 k := by
  intro e he
  obtain ⟨a, ha, hae⟩ := List.mem_filterMap.1 he
  cases a <;> cases hae
  exact hA _ ha

theorem up_of_mem_bindings_right (hC : ∀ c ∈ C, Before up (entry k v) c) :
    ∀ e ∈ bindings C, up k e.1 := by
  intro e he
  obtain ⟨c, hc, hce⟩ := List.mem_filterMap.1 he
  cases c <;> cases hce
  exact hC _ hc

/-- An insertion into a part is one into the whole, if the key belongs to that part. -/
theorem Inserts.context (h : Inserts up k v P P' n n' T T')
    (hnodup : (ids (A ++ (T ++ C))).Nodup) (hlt : ∀ q ∈ ids (A ++ (T ++ C)), q < n)
    (hA : ∀ a ∈ A, Before up a (entry k v)) (hC : ∀ c ∈ C, Before up (entry k v) c) :
    Inserts up k v P P' n n' (A ++ (T ++ C)) (A ++ (T' ++ C)) where
  toRewrites := h.toRewrites.context hnodup hlt
  keeps := h.keeps.context hA hC
  upserted := by
    simp only [bindings_append]
    exact h.upserted.context (up_of_mem_bindings_left hA) (up_of_mem_bindings_right hC)

/-! ### A leaf's new content -/

/-- Putting a token into an ordered list. -/
theorem ordered_insert {a : Token K V} {X Y : List (Token K V)} (h : Ordered up (X ++ Y))
    (hX : ∀ x ∈ X, Before up x a) (hY : ∀ y ∈ Y, Before up a y) : Ordered up (X ++ a :: Y) := by
  rw [Ordered, List.pairwise_append] at h ⊢
  refine ⟨h.1, List.pairwise_cons.2 ⟨hY, h.2.1⟩, fun x hx y hy ↦ ?_⟩
  rcases List.mem_cons.1 hy with rfl | hy
  · exact hX x hx
  · exact h.2.2 x hx y hy

theorem before_of_mem_ofEntries (hup : Upper up) {l : List (K × V)} (hl : ∀ e ∈ l, e.1 < k) :
    ∀ a ∈ ofEntries l, Before up a (entry k v) := by
  intro a ha
  obtain ⟨e, he, rfl⟩ := List.mem_map.1 ha
  exact hup.of_lt (hl e he)

theorem before_of_mem_ofEntries_right (hup : Upper up) {l : List (K × V)}
    (hl : ∀ e ∈ l, k < e.1) : ∀ a ∈ ofEntries l, Before up (entry k v) a := by
  intro a ha
  obtain ⟨e, he, rfl⟩ := List.mem_map.1 ha
  exact hup.of_lt (hl e he)

omit [LinearOrder K] in
/-- The order does not look at values. -/
theorem ordered_replace [LE K] {w : V} {X Y : List (Token K V)}
    (h : Ordered up (X ++ entry k w :: Y)) : Ordered up (X ++ entry k v :: Y) := by
  rw [Ordered, List.pairwise_append, List.pairwise_cons] at h ⊢
  refine ⟨h.1, ⟨fun y hy ↦ ?_, h.2.1.2⟩, fun x hx y hy ↦ ?_⟩
  · have := h.2.1.1 y hy
    cases y <;> exact this
  · rcases List.mem_cons.1 hy with rfl | hy
    · have := h.2.2 x hx _ List.mem_cons_self
      cases x <;> exact this
    · exact h.2.2 x hx y (List.mem_cons_of_mem _ hy)

/-- Putting a binding into a leaf keeps the order around it. -/
theorem keeps_ofEntries (hup : Upper up) {l : List (K × V)}
    (hl : (l.map Prod.fst).Pairwise (· < ·)) :
    Keeps up k v (ofEntries l) (ofEntries (SortedAssoc.upsert k v l)) := by
  intro A C hA hC hord
  rcases SortedAssoc.upsert_cases hl k v with ⟨X, Y, rfl, heq, hX, hY⟩ | ⟨X, w, Y, rfl, heq⟩
  · have := ordered_insert (a := entry k v) (X := A ++ ofEntries X) (Y := ofEntries Y ++ C)
      (by simpa only [ofEntries_append, List.append_assoc] using hord)
      (fun a ha ↦ (List.mem_append.1 ha).elim (hA a) (before_of_mem_ofEntries hup hX a))
      (fun c hc ↦ (List.mem_append.1 hc).elim (before_of_mem_ofEntries_right hup hY c) (hC c))
    rw [heq]
    simpa only [ofEntries_append, ofEntries_cons, List.append_assoc, List.cons_append] using this
  · have := ordered_replace (v := v) (X := A ++ ofEntries X) (Y := ofEntries Y ++ C)
      (by simpa only [ofEntries_append, ofEntries_cons, List.append_assoc, List.cons_append]
        using hord)
    rw [heq]
    simpa only [ofEntries_append, ofEntries_cons, List.append_assoc, List.cons_append] using this

theorem map_fst_entries {node : Node K V} (h : node.LeafShape) :
    node.entries.map Prod.fst = node.keys := List.map_fst_zip h.length_eq.le

/-- A leaf with a binding put in. -/
theorem inserts_leaf (hup : Upper up) {p : Nat} {node : Node K V} (hp : (P p).LeafShape)
    (hentries : node.entries = SortedAssoc.upsert k v (P p).entries)
    (hnext : node.nextLeaf = (P p).nextLeaf) :
    Inserts up k v P (Function.update P p node) n n (tokens P 0 p)
      (tokens (Function.update P p node) 0 p) := by
  have htokens : tokens (Function.update P p node) 0 p =
      leaf p :: ofEntries (SortedAssoc.upsert k v (P p).entries) := by
    rw [tokens, Function.update_self, hentries]
  have hsorted : ((P p).entries.map Prod.fst).Pairwise (· < ·) :=
    (map_fst_entries hp).symm ▸ hp.sorted
  rw [htokens, tokens]
  refine ⟨⟨le_rfl, fun q _ hq ↦ ?_, fun q hq ↦ Or.inl ?_, ?_, ?_, fun exit hl ↦ ?_⟩, ?_, ?_⟩
  · refine Function.update_of_ne (fun e ↦ hq ?_) _ _
    rw [e]
    exact List.mem_cons_self
  · simpa only [ids_leaf, ids_ofEntries] using hq
  · simp only [ids_leaf, ids_ofEntries]
    exact List.nodup_singleton p
  · simp only [leafIds_leaf, leafIds_ofEntries]
  · simp only [leafIds_leaf, leafIds_ofEntries, Linked, Function.update_self] at hl ⊢
    exact ⟨hnext.trans hl.1, trivial⟩
  · have := (keeps_ofEntries (v := v) hup hsorted (k := k)).context (A := [leaf p]) (C := [])
      (fun a ha ↦ by rw [List.mem_singleton.1 ha]; trivial) (List.forall_mem_nil _)
    simpa only [List.singleton_append, List.append_nil] using this
  · refine ⟨[], (P p).entries, [], ?_, ?_, List.forall_mem_nil _, List.forall_mem_nil _⟩
    · simp only [bindings_leaf, bindings_ofEntries, List.nil_append, List.append_nil]
    · simp only [bindings_leaf, bindings_ofEntries, List.nil_append, List.append_nil]

/-! ### Splits -/

/-- A split, seen as a change of the tokens of a subtree: they stay in order, whatever stands around
them, and the bindings stay the same. -/
structure Splits (up : K → K → Prop) (P P' : Nat → Node K V) (n n' : Nat)
    (T T' : List (Token K V)) : Prop extends Rewrites P P' n n' T T' where
  ordered : ∀ A C, Ordered up (A ++ (T ++ C)) → Ordered up (A ++ (T' ++ C))
  bindings_eq : bindings T' = bindings T

theorem Splits.context (h : Splits up P P' n n' T T') (hnodup : (ids (A ++ (T ++ C))).Nodup)
    (hlt : ∀ q ∈ ids (A ++ (T ++ C)), q < n) :
    Splits up P P' n n' (A ++ (T ++ C)) (A ++ (T' ++ C)) where
  toRewrites := h.toRewrites.context hnodup hlt
  ordered A' C' hord := by
    have := h.ordered (A' ++ A) (C ++ C') (by simpa only [List.append_assoc] using hord)
    simpa only [List.append_assoc] using this
  bindings_eq := by simp only [bindings_append, h.bindings_eq]

/-- An insertion after a split is an insertion. -/
theorem Inserts.after (h : Splits up P P' n n' T T') (h' : Inserts up k v P' P'' n' n'' T' T'') :
    Inserts up k v P P'' n n'' T T'' where
  toRewrites := h.toRewrites.trans h'.toRewrites
  keeps A C hA hC hord := h'.keeps A C hA hC (h.ordered A C hord)
  upserted := h.bindings_eq ▸ h'.upserted

variable {h c : Nat} {m : K}

/-- The pages after both writes of a split. -/
def splitPages (P : Nat → Node K V) (n c : Nat) : Nat → Node K V :=
  Function.update (Function.update P n (P c).splitRight) c ((P c).splitLeft n)

omit [LinearOrder K] in
theorem splitPages_left : splitPages P n c c = (P c).splitLeft n := Function.update_self _ _ _

omit [LinearOrder K] in
theorem splitPages_right (hc : n ≠ c) : splitPages P n c n = (P c).splitRight := by
  rw [splitPages, Function.update_of_ne hc, Function.update_self]

omit [LinearOrder K] in
theorem splitPages_of_ne {q : Nat} (hc : q ≠ c) (hn : q ≠ n) : splitPages P n c q = P q := by
  rw [splitPages, Function.update_of_ne hc, Function.update_of_ne hn]

theorem splits_leaf (hup : Upper up) (hc : (P c).LeafShape) (hlt : c < n)
    (hm : (P c).midKey? = some m) :
    Splits up P (splitPages P n c) n (n + 1) (tokens P 0 c)
      (tokens (splitPages P n c) 0 c ++ sep m :: tokens (splitPages P n c) 0 n) := by
  obtain ⟨w, rest, hright, hentries⟩ := hc.entries_split hm n
  have hne : n ≠ c := by omega
  have hleft : (splitPages P n c c).nextLeaf = some n := by
    rw [splitPages_left, hc.splitLeft_eq]
  have hnext : (splitPages P n c n).nextLeaf = (P c).nextLeaf := by
    rw [splitPages_right hne, hc.splitRight_eq]
  simp only [tokens, splitPages_left, splitPages_right hne, hright, hentries]
  refine ⟨⟨Nat.le_succ n, fun q hq hmem ↦ ?_, fun q hq ↦ ?_, ?_, ?_, fun exit hl ↦ ?_⟩,
    fun A C hord ↦ ?_, ?_⟩
  · simp only [ids_leaf, ids_ofEntries, List.mem_singleton] at hmem
    exact splitPages_of_ne hmem (by omega)
  · simp only [ids_append, ids_leaf, ids_sep, ids_ofEntries, List.mem_append,
      List.mem_singleton] at hq ⊢
    omega
  · simp only [ids_append, ids_leaf, ids_sep, ids_ofEntries, List.singleton_append, List.nodup_cons,
      List.mem_singleton, List.not_mem_nil, not_false_eq_true, List.nodup_nil, and_true]
    exact hne.symm
  · simp only [leafIds_append, leafIds_leaf, leafIds_sep, leafIds_ofEntries, List.head?_append,
      List.head?_cons, Option.some_or]
  · simp only [leafIds_append, leafIds_leaf, leafIds_sep, leafIds_ofEntries, List.singleton_append,
      Linked, List.head?_cons, List.head?_nil, Option.none_or] at hl ⊢
    exact ⟨hleft, hnext.trans hl.1, trivial⟩
  · have hord' : Ordered up ((A ++ leaf c :: ofEntries ((P c).splitLeft n).entries) ++
        (entry m w :: (ofEntries rest ++ C))) := by
      simpa only [ofEntries_append, ofEntries_cons, List.append_assoc, List.cons_append] using hord
    have hbefore := (List.pairwise_append.1 hord').2.2
    have hbehind := (List.pairwise_cons.1 (List.pairwise_append.1 hord').2.1).1
    have hleaf := ordered_insert (a := leaf n) hord' (fun x _ ↦ by cases x <;> trivial)
      fun _ _ ↦ trivial
    have := ordered_insert (a := sep m) hleaf
      (fun x hx ↦ Before.sep_of_entry (hbefore x hx _ List.mem_cons_self)) (fun y hy ↦ by
        rcases List.mem_cons.1 hy with rfl | hy
        · trivial
        · rcases List.mem_cons.1 hy with rfl | hy
          · exact le_refl m
          · exact Before.of_entry hup (hbehind y hy))
    simpa only [ofEntries_cons, List.append_assoc, List.cons_append] using this
  · simp only [bindings_append, bindings_leaf, bindings_sep, bindings_ofEntries]

theorem splits_internal (hc : (P c).InternalShape) (hnodup : (ids (tokens P (h + 1) c)).Nodup)
    (hlt : ∀ q ∈ ids (tokens P (h + 1) c), q < n) (hm : (P c).midKey? = some m) :
    Splits up P (splitPages P n c) n (n + 1) (tokens P (h + 1) c)
      (tokens (splitPages P n c) (h + 1) c ++
        sep m :: tokens (splitPages P n c) (h + 1) n) := by
  have hcn : c < n := hlt c (mem_ids_tokens P _ c)
  have hne : n ≠ c := by omega
  obtain ⟨hmid, hkey⟩ := List.getElem?_eq_some_iff.1 hm
  rw [ids_tokens_succ, List.nodup_cons] at hnodup
  have hmem : ∀ d ∈ (P c).children, ∀ q ∈ ids (tokens P h d), q ≠ c ∧ q < n := fun d hd q hq ↦ by
    have hq' : q ∈ (P c).children.flatMap fun d ↦ ids (tokens P h d) :=
      List.mem_flatMap.2 ⟨d, hd, hq⟩
    exact ⟨fun e ↦ hnodup.1 (e ▸ hq'), hlt q (by
      rw [ids_tokens_succ]; exact List.mem_cons_of_mem c hq')⟩
  have hchild : ∀ d ∈ (P c).children, tokens (splitPages P n c) h d = tokens P h d :=
    fun d hd ↦ tokens_congr fun q hq ↦
      splitPages_of_ne (hmem d hd q hq).1 (by have := (hmem d hd q hq).2; omega)
  -- the separator in the middle stays where it is, and a page comes behind it
  have hold : tokens P (h + 1) c = inner c ::
      (weave (tokens P h) ((P c).children.take ((P c).mid + 1)) ((P c).keys.take (P c).mid) ++
        sep m :: weave (tokens P h) ((P c).children.drop ((P c).mid + 1))
          ((P c).keys.drop ((P c).mid + 1))) := by
    have hlen := hc.length_eq
    rw [tokens, ← weave_split _ _ _ (by simp only [List.length_take]; omega),
      List.take_append_drop, ← hkey, List.getElem_cons_drop, List.take_append_drop]
  have hleft : tokens (splitPages P n c) (h + 1) c = inner c ::
      weave (tokens P h) ((P c).children.take ((P c).mid + 1)) ((P c).keys.take (P c).mid) := by
    rw [tokens, splitPages_left, hc.splitLeft_eq]
    exact congrArg _ (weave_congr _ fun d hd ↦ hchild d (List.mem_of_mem_take hd))
  have hright : tokens (splitPages P n c) (h + 1) n = inner n ::
      weave (tokens P h) ((P c).children.drop ((P c).mid + 1))
        ((P c).keys.drop ((P c).mid + 1)) := by
    rw [tokens, splitPages_right hne, hc.splitRight_eq]
    exact congrArg _ (weave_congr _ fun d hd ↦ hchild d (List.mem_of_mem_drop hd))
  generalize weave (tokens P h) ((P c).children.take ((P c).mid + 1))
    ((P c).keys.take (P c).mid) = WL at hold hleft
  generalize weave (tokens P h) ((P c).children.drop ((P c).mid + 1))
    ((P c).keys.drop ((P c).mid + 1)) = WR at hold hright
  have hids : ids (tokens P (h + 1) c) = c :: (ids WL ++ ids WR) := by
    rw [hold, ids_inner, ids_append, ids_sep]
  have hfree : n ∉ ids (tokens P (h + 1) c) := fun hn ↦ lt_irrefl n (hlt n hn)
  have hnodup' : (c :: (ids WL ++ ids WR)).Nodup := by
    rw [← hids, ids_tokens_succ]
    exact List.nodup_cons.2 hnodup
  rw [hleft, hright]
  refine ⟨⟨Nat.le_succ n, fun q hq hmem ↦ ?_, fun q hq ↦ ?_, ?_, ?_, fun exit hl ↦ ?_⟩,
    fun A C hord ↦ ?_, ?_⟩
  · exact splitPages_of_ne (fun e ↦ hmem (e.symm ▸ mem_ids_tokens P _ c)) (by omega)
  · rw [hids]
    simp only [ids_append, ids_inner, ids_sep, List.cons_append, List.mem_cons,
      List.mem_append] at hq ⊢
    rcases hq with hq | hq | hq | hq
    · exact Or.inl (Or.inl hq)
    · exact Or.inl (Or.inr (Or.inl hq))
    · exact Or.inr (by omega)
    · exact Or.inl (Or.inr (Or.inr hq))
  · have hperm : (ids (inner c :: WL ++ sep m :: inner n :: WR)).Perm
        (n :: c :: (ids WL ++ ids WR)) := by
      simp only [List.cons_append, ids_inner, ids_append, ids_sep]
      exact ((List.perm_middle).cons c).trans (List.Perm.swap n c _)
    exact hperm.nodup_iff.2 (List.nodup_cons.2 ⟨hids ▸ hfree, hnodup'⟩)
  · rw [hold]
    simp only [leafIds_append, leafIds_inner, leafIds_sep, List.cons_append]
  · have hids' : ∀ q ∈ leafIds (tokens P (h + 1) c), splitPages P n c q = P q := fun q hq ↦ by
      rw [hold, leafIds_inner, leafIds_append, leafIds_sep, ← leafIds_append] at hq
      have hq := mem_ids_of_mem_leafIds hq
      rw [ids_append] at hq
      refine splitPages_of_ne (fun e ↦ ?_) fun e ↦ hfree (e ▸ hids ▸ List.mem_cons_of_mem c hq)
      exact (List.nodup_cons.1 hnodup').1 (e ▸ hq)
    have := linked_congr hids' hl
    rw [hold] at this
    simpa only [leafIds_append, leafIds_inner, leafIds_sep, List.cons_append] using this
  · rw [hold] at hord
    have := ordered_insert (a := inner n) (X := A ++ (inner c :: WL ++ [sep m])) (Y := WR ++ C)
      (by simpa only [List.append_assoc, List.cons_append, List.nil_append] using hord)
      (fun x _ ↦ by cases x <;> trivial) fun _ _ ↦ trivial
    simpa only [List.append_assoc, List.cons_append, List.nil_append] using this
  · rw [hold]
    simp only [bindings_append, bindings_inner, bindings_sep, List.cons_append]

/-- **A split** in a subtree of any height. -/
theorem splits_tokens (hup : Upper up) (hc : TreeShape up P h c)
    (hnodup : (ids (tokens P h c)).Nodup) (hlt : ∀ q ∈ ids (tokens P h c), q < n)
    (hm : (P c).midKey? = some m) :
    Splits up P (splitPages P n c) n (n + 1) (tokens P h c)
      (tokens (splitPages P n c) h c ++ sep m :: tokens (splitPages P n c) h n) := by
  cases h with
  | zero => exact splits_leaf hup hc (hlt c (mem_ids_tokens P 0 c)) hm
  | succ h => exact splits_internal hc.1 hnodup hlt hm

/-- The halves of a split have the shape of the node that was split. -/
theorem treeShape_split (hc : TreeShape up P h c) (hnodup : (ids (tokens P h c)).Nodup)
    (hlt : ∀ q ∈ ids (tokens P h c), q < n) (hm : (P c).midKey? = some m) :
    TreeShape up (splitPages P n c) h c ∧ TreeShape up (splitPages P n c) h n := by
  have hne : n ≠ c := by
    have := hlt c (mem_ids_tokens P h c)
    omega
  cases h with
  | zero =>
    rw [TreeShape, TreeShape, splitPages_left, splitPages_right hne]
    exact ⟨Node.LeafShape.splitLeft hc n, Node.LeafShape.splitRight hc⟩
  | succ h =>
    rw [ids_tokens_succ, List.nodup_cons] at hnodup
    have hchild : ∀ d ∈ (P c).children, TreeShape up (splitPages P n c) h d := fun d hd ↦ by
      refine treeShape_congr (fun q hq ↦ ?_) (hc.2.2 d hd)
      have hq' : q ∈ (P c).children.flatMap fun d ↦ ids (tokens P h d) :=
        List.mem_flatMap.2 ⟨d, hd, hq⟩
      have hqn : q < n := hlt q (by rw [ids_tokens_succ]; exact List.mem_cons_of_mem c hq')
      exact splitPages_of_ne (fun e ↦ hnodup.1 (e ▸ hq')) (by omega)
    rw [TreeShape, TreeShape, splitPages_left, splitPages_right hne]
    refine ⟨⟨hc.1.splitLeft hm n, ?_, fun d hd ↦ hchild d ?_⟩,
      ⟨hc.1.splitRight hm, ?_, fun d hd ↦ hchild d ?_⟩⟩
    · rw [hc.1.splitLeft_eq]
      exact hc.2.1.sublist (List.take_sublist _ _)
    · rw [hc.1.splitLeft_eq] at hd
      exact List.mem_of_mem_take hd
    · rw [hc.1.splitRight_eq]
      exact hc.2.1.sublist (List.drop_sublist _ _)
    · rw [hc.1.splitRight_eq] at hd
      exact List.mem_of_mem_drop hd

end KsSql
