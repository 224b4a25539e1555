import KsSql.Storage.TreeGrowth

/-!
# Insertions into a search tree

What an insertion that is done does to a subtree: it is an `Inserts` step of its tokens
(`wp_insertNonFull_inserts`). The proof follows the descent. At each inner node the searched child is
the one place in the node's tokens where the key may go (`childIndex_spec`), a split of that child
makes two such places, and the comparison with the separator between them picks one.

In weak order both places will do for a key equal to the separator. In search-tree order the key must
not equal it, as the comparison sends an equal key left while every search goes right; and the
separator must not be in the parent already. `SplitStep` and `OnRoute` put a condition on the middle
key of every node that an insertion splits, apart from the root, and on its parent's separators.
-/

namespace KsSql

open Token PageProgram BPlusTree

variable {K V : Type} [LinearOrder K] {up : K → K → Prop}

/-! ### The place of a key in a node -/

section Place

variable (bs : BinarySearch K)

/-- The searched child has no greater separator to its left and no smaller one to its right. -/
theorem childIndex_spec (hup : Upper up) {node : Node K V} (hn : node.InternalShape)
    (hkeys : node.keys.Pairwise up) (k : K) :
    childIndex bs node k ≤ node.keys.length ∧
      (∀ s ∈ node.keys.take (childIndex bs node k), s ≤ k) ∧
      ∀ s ∈ node.keys.drop (childIndex bs node k), up k s := by
  have hsorted : node.keys.Pairwise (· ≤ ·) := hkeys.imp hup.le
  have hlen := hn.length_eq
  rw [childIndex]
  rcases hs : bs.search node.keys k with i | i
  · obtain ⟨hi, hlt, hgt⟩ := bs.error_spec hsorted hs
    dsimp only
    rw [if_neg (by omega)]
    exact ⟨hi, fun s hs ↦ le_of_lt (hlt s hs), fun s hs ↦ hup.of_lt (hgt s hs)⟩
  · have hi := bs.lt_length_of_ok hsorted hs
    have hk : node.keys[i] = k := (List.getElem?_eq_some_iff.1 (bs.ok_spec hsorted hs)).2
    have hclamp : ¬ i + 1 ≥ node.children.length := by omega
    dsimp only
    rw [if_neg hclamp]
    show i + 1 ≤ _ ∧ (∀ s ∈ node.keys.take (i + 1), s ≤ k) ∧ ∀ s ∈ node.keys.drop (i + 1), up k s
    refine ⟨hi, fun s hs ↦ ?_, fun s hs ↦ ?_⟩
    · obtain ⟨j, hj, rfl⟩ := List.mem_take_iff_getElem.1 hs
      rw [← hk]
      rcases Nat.eq_or_lt_of_le (show j ≤ i by omega) with rfl | hji
      · exact le_rfl
      · exact List.pairwise_iff_getElem.1 hsorted j i (by omega) hi hji
    · obtain ⟨j, hj, rfl⟩ := List.mem_drop_iff_getElem.1 hs
      rw [← hk]
      exact List.pairwise_iff_getElem.1 hkeys i (i + 1 + j) hi (by omega) (by omega)

end Place

variable {k : K} {v : V} {f : Nat → List (Token K V)} {L R : List Nat} {SL SR : List K}

/-- Everything left of a place stands before the key, when no separator on that side is greater. -/
theorem before_of_mem_weaveLeft (hup : Upper up) (hord : Ordered up (weaveLeft f L SL))
    (hSL : ∀ s ∈ SL, s ≤ k) : ∀ a ∈ weaveLeft f L SL, Before up a (entry k v) := by
  intro a ha
  obtain ⟨⟨c, s⟩, hcs, ha⟩ := List.mem_flatMap.1 ha
  have hs : s ≤ k := hSL s (List.of_mem_zip hcs).2
  have hpiece : Ordered up (f c ++ [sep s]) :=
    (List.pairwise_flatMap.1 hord).1 (c, s) hcs
  rcases List.mem_append.1 ha with ha | ha
  · exact ((List.pairwise_append.1 hpiece).2.2 a ha _ List.mem_cons_self : Before up a (sep s))
      |> fun h ↦ Before.entry_of_sep hup h hs
  · rw [List.mem_singleton.1 ha]
    exact hs

/-- Everything right of a place stands behind the key, when all separators on that side do. -/
theorem before_of_mem_weaveRight (hup : Upper up) (hord : Ordered up (weaveRight f SR R))
    (hSR : ∀ s ∈ SR, up k s) : ∀ c ∈ weaveRight f SR R, Before up (entry k v) c := by
  intro c hc
  obtain ⟨⟨s, d⟩, hsd, hc⟩ := List.mem_flatMap.1 hc
  have hs : up k s := hSR s (List.of_mem_zip hsd).1
  have hpiece : Ordered up (sep s :: f d) := (List.pairwise_flatMap.1 hord).1 (s, d) hsd
  rcases List.mem_cons.1 hc with rfl | hc
  · exact hs
  · exact Before.of_up_sep hup hs ((List.pairwise_cons.1 hpiece).1 c hc)

/-! ### A change of one child -/

section Child

variable {P P' : Nat → Node K V} {n n' h p d : Nat} {T T' : List (Token K V)} {node : Node K V}

omit [LinearOrder K] in
/-- The content of an inner page does not show in its token. -/
theorem Rewrites.update_inner (hT : Rewrites P P' n n' T T') (hp : p ∈ ids T)
    (hleaf : p ∉ leafIds T') : Rewrites P (Function.update P' p node) n n' T T' where
  count_le := hT.count_le
  frame q hq hmem := by
    have hqp : q ≠ p := fun e ↦ hmem (e ▸ hp)
    rw [Function.update_of_ne hqp]
    exact hT.frame q hq hmem
  ids_mem := hT.ids_mem
  nodup := hT.nodup
  head := hT.head
  linked exit hl := linked_congr
    (fun q hq ↦ Function.update_of_ne (fun e : q = p ↦ hleaf (e ▸ hq)) _ _) (hT.linked exit hl)

omit [LinearOrder K] in
/-- A node written to its page after a change of one child `d`, whatever the change was: the other
children are what they were, and the tokens are the old ones around those of the child. -/
theorem tokens_around (hch : node.children = L ++ d :: R) (hks : node.keys = SL ++ SR)
    (hL : SL.length = L.length) (hR : SR.length = R.length)
    (hnodup : (p :: ids (weave (tokens P h) node.children node.keys)).Nodup)
    (hlt : ∀ q ∈ p :: ids (weave (tokens P h) node.children node.keys), q < n)
    (hframe : ∀ q < n, q ∉ ids (tokens P h d) → P' q = P q)
    (hids : ∀ q ∈ ids (tokens P' h d), q ∈ ids (tokens P h d) ∨ n ≤ q) :
    (∀ c ∈ node.children, c ≠ d → ∀ q ∈ ids (tokens P h c),
      Function.update P' p node q = P q) ∧
    (∀ q ∈ ids (tokens P' h d), Function.update P' p node q = P' q) ∧
    tokens (Function.update P' p node) (h + 1) p =
      (inner p :: weaveLeft (tokens P h) L SL) ++
        (tokens P' h d ++ weaveRight (tokens P h) SR R) := by
  have hidsF : ids (weave (tokens P h) node.children node.keys) =
      node.children.flatMap fun c ↦ ids (tokens P h c) := ids_weave _ _ _
  obtain ⟨hp, hnodup'⟩ := List.nodup_cons.1 hnodup
  -- pages of the other children are neither the node's nor the changed child's
  have hother : ∀ c ∈ node.children, c ∈ L ∨ c ∈ R → ∀ q ∈ ids (tokens P h c),
      Function.update P' p node q = P q := by
    intro c hc hLR q hq
    have hqF : q ∈ ids (weave (tokens P h) node.children node.keys) :=
      hidsF ▸ List.mem_flatMap.2 ⟨c, hc, hq⟩
    rw [Function.update_of_ne fun e : q = p ↦ hp (e ▸ hqF)]
    refine hframe q (hlt q (List.mem_cons_of_mem p hqF)) fun hqd ↦ ?_
    rw [hidsF, hch, List.flatMap_append, List.flatMap_cons] at hnodup'
    obtain ⟨-, hdR, hLdR⟩ := List.nodup_append.1 hnodup'
    rcases hLR with hLR | hLR
    · exact hLdR q (List.mem_flatMap.2 ⟨c, hLR, hq⟩) q (List.mem_append_left _ hqd) rfl
    · exact (List.nodup_append.1 hdR).2.2 q hqd q (List.mem_flatMap.2 ⟨c, hLR, hq⟩) rfl
  have hpd : p ∉ ids (tokens P' h d) := fun hmem ↦ by
    rcases hids p hmem with hmem | hmem
    · exact hp (hidsF ▸ List.mem_flatMap.2 ⟨d, by rw [hch]; simp, hmem⟩)
    · have := hlt p List.mem_cons_self
      omega
  have hself : ∀ q ∈ ids (tokens P' h d), Function.update P' p node q = P' q :=
    fun q hq ↦ Function.update_of_ne (fun e : q = p ↦ hpd (e ▸ hq)) _ _
  refine ⟨fun c hc hcd ↦ hother c hc ?_, hself, ?_⟩
  · rw [hch, List.mem_append, List.mem_cons] at hc
    exact hc.imp_right fun hc ↦ hc.resolve_left hcd
  · rw [tokens, Function.update_self, hch, hks, weave_append _ hL hR, tokens_congr hself]
    have hleft : weaveLeft (tokens (Function.update P' p node) h) L SL =
        weaveLeft (tokens P h) L SL := by
      refine List.flatMap_congr fun x hx ↦ ?_
      have hx := (List.of_mem_zip (a := x.1) (b := x.2) hx).1
      rw [tokens_congr (hother x.1 (by rw [hch]; exact List.mem_append_left _ hx) (Or.inl hx))]
    have hright : weaveRight (tokens (Function.update P' p node) h) SR R =
        weaveRight (tokens P h) SR R := by
      refine List.flatMap_congr fun x hx ↦ ?_
      have hx := (List.of_mem_zip (a := x.1) (b := x.2) hx).2
      rw [tokens_congr (hother x.2 (by
        rw [hch]; exact List.mem_append_right _ (List.mem_cons_of_mem d hx)) (Or.inr hx))]
    rw [hleft, hright, List.cons_append]

/-- A node's shape after a change of one child that kept the child's. -/
theorem treeShape_around (hnode : node.InternalShape) (hkeys : node.keys.Pairwise up)
    (hshape : ∀ c ∈ node.children, TreeShape up P h c) (hd' : TreeShape up P' h d)
    (hother : ∀ c ∈ node.children, c ≠ d → ∀ q ∈ ids (tokens P h c),
      Function.update P' p node q = P q)
    (hself : ∀ q ∈ ids (tokens P' h d), Function.update P' p node q = P' q) :
    TreeShape up (Function.update P' p node) (h + 1) p := by
  rw [TreeShape, Function.update_self]
  refine ⟨hnode, hkeys, fun c hc ↦ ?_⟩
  by_cases hcd : c = d
  · rw [hcd]
    exact treeShape_congr hself hd'
  · exact treeShape_congr (hother c hc hcd) (hshape c hc)

/-- The key's place among the tokens of an ordered node: what stands left of the child that the key
belongs to stands before the key, and what stands right of it behind. -/
theorem before_around (hup : Upper up)
    (hord : Ordered up (weaveLeft (tokens P h) L SL ++
      (tokens P h d ++ weaveRight (tokens P h) SR R)))
    (hSL : ∀ s ∈ SL, s ≤ k) (hSR : ∀ s ∈ SR, up k s) :
    (∀ a ∈ inner p :: weaveLeft (tokens P h) L SL, Before up a (entry k v)) ∧
      ∀ c ∈ weaveRight (tokens P h) SR R, Before up (entry k v) c := by
  have hordL : Ordered up (weaveLeft (tokens P h) L SL) := (List.pairwise_append.1 hord).1
  have hordR : Ordered up (weaveRight (tokens P h) SR R) :=
    (List.pairwise_append.1 (List.pairwise_append.1 hord).2.1).2.1
  refine ⟨fun a ha ↦ ?_, before_of_mem_weaveRight hup hordR hSR⟩
  rcases List.mem_cons.1 ha with rfl | ha
  · trivial
  · exact before_of_mem_weaveLeft hup hordL hSL a ha

/-- An insertion below one child of a node is an insertion below the node, once the node has been
written to its page. -/
theorem inserts_node (hup : Upper up) (hnode : node.InternalShape) (hkeys : node.keys.Pairwise up)
    (hch : node.children = L ++ d :: R) (hks : node.keys = SL ++ SR) (hL : SL.length = L.length)
    (hR : SR.length = R.length) (hshape : ∀ c ∈ node.children, TreeShape up P h c)
    (hnodup : (p :: ids (weave (tokens P h) node.children node.keys)).Nodup)
    (hlt : ∀ q ∈ p :: ids (weave (tokens P h) node.children node.keys), q < n)
    (hord : Ordered up (weave (tokens P h) node.children node.keys))
    (hSL : ∀ s ∈ SL, s ≤ k) (hSR : ∀ s ∈ SR, up k s)
    (hd : Inserts up k v P P' n n' (tokens P h d) (tokens P' h d)) (hd' : TreeShape up P' h d) :
    TreeShape up (Function.update P' p node) (h + 1) p ∧
      Inserts up k v P (Function.update P' p node) n n'
        (inner p :: weave (tokens P h) node.children node.keys)
        (tokens (Function.update P' p node) (h + 1) p) := by
  obtain ⟨hother, hself, htokens⟩ := tokens_around hch hks hL hR hnodup hlt hd.frame
    fun q hq ↦ (hd.ids_mem q hq).imp_right And.left
  have hold : inner p :: weave (tokens P h) node.children node.keys =
      (inner p :: weaveLeft (tokens P h) L SL) ++
        (tokens P h d ++ weaveRight (tokens P h) SR R) := by
    rw [hch, hks, weave_append _ hL hR, List.cons_append]
  rw [hch, hks, weave_append _ hL hR] at hord
  obtain ⟨hbefore, hbehind⟩ := before_around (p := p) (v := v) hup hord hSL hSR
  refine ⟨treeShape_around hnode hkeys hshape hd' hother hself, ?_⟩
  have hins := hd.context (by rw [← hold]; exact hnodup) (by rw [← hold]; exact hlt) hbefore
    hbehind
  rw [hold, htokens]
  refine ⟨hins.toRewrites.update_inner (by rw [← hold]; exact List.mem_cons_self) ?_,
    hins.keeps, hins.upserted⟩
  -- the page of an inner node is not the page of a leaf
  intro hmem
  have hnodup'' := hins.nodup
  rw [List.cons_append, ids_inner, List.nodup_cons] at hnodup''
  rw [List.cons_append, leafIds_inner] at hmem
  exact hnodup''.1 (mem_ids_of_mem_leafIds hmem)

end Child

/-! ### A split of one child -/

section Split

variable {P : Nat → Node K V} {n h p c i : Nat} {m : K}

omit [LinearOrder K] in
/-- An inner node's children around its `i`-th one. -/
theorem children_eq_of_getElem? {node : Node K V} (hc : node.children[i]? = some c) :
    node.children = node.children.take i ++ c :: node.children.drop (i + 1) := by
  obtain ⟨hi, rfl⟩ := List.getElem?_eq_some_iff.1 hc
  rw [List.getElem_cons_drop, List.take_append_drop]

/-- A child of an ordered tree's node is the root of an ordered tree. -/
theorem TreeShape.child (hp : TreeShape up P (h + 1) p)
    (hnodup : (ids (tokens P (h + 1) p)).Nodup) (hord : Ordered up (tokens P (h + 1) p))
    (hc : (P p).children[i]? = some c) :
    TreeShape up P h c ∧ (ids (tokens P h c)).Nodup ∧ Ordered up (tokens P h c) ∧
      ∀ q ∈ ids (tokens P h c), q ∈ ids (tokens P (h + 1) p) := by
  have hlen := hp.1.length_eq
  have hilt := (List.getElem?_eq_some_iff.1 hc).1
  have hcmem := List.mem_of_getElem? hc
  rw [ids_tokens_succ] at hnodup ⊢
  rw [tokens, children_eq_of_getElem? hc, ← List.take_append_drop i (P p).keys,
    weave_append _ (by simp only [List.length_take]; omega)
      (by simp only [List.length_drop]; omega)] at hord
  exact ⟨hp.2.2 c hcmem, (List.nodup_flatMap.1 (List.nodup_cons.1 hnodup).2).1 c hcmem,
    (List.pairwise_append.1 (List.pairwise_append.1 (List.pairwise_cons.1 hord).2).2.1).1,
    fun q hq ↦ List.mem_cons_of_mem p (List.mem_flatMap.2 ⟨c, hcmem, hq⟩)⟩

omit [LinearOrder K] in
/-- A split of one child keeps the pages of the others. -/
theorem splitPages_other (hnodup : (ids (tokens P (h + 1) p)).Nodup)
    (hlt : ∀ q ∈ ids (tokens P (h + 1) p), q < n) (hc : (P p).children[i]? = some c) :
    ∀ d, d ∈ (P p).children.take i ∨ d ∈ (P p).children.drop (i + 1) →
      ∀ q ∈ ids (tokens P h d), splitPages P n c q = P q := by
  intro d hLR q hq
  have hch := children_eq_of_getElem? hc
  rw [ids_tokens_succ, List.nodup_cons] at hnodup
  have hqF : q ∈ (P p).children.flatMap fun c ↦ ids (tokens P h c) :=
    List.mem_flatMap.2 ⟨d, hLR.elim List.mem_of_mem_take List.mem_of_mem_drop, hq⟩
  have hqn : q < n := hlt q (ids_tokens_succ P h p ▸ List.mem_cons_of_mem p hqF)
  refine splitPages_of_ne (fun e ↦ ?_) (by omega)
  subst e
  have hnd := hnodup.2
  rw [hch, List.flatMap_append, List.flatMap_cons] at hnd
  obtain ⟨-, hdR, hLdR⟩ := List.nodup_append.1 hnd
  have hqd := mem_ids_tokens P h q
  rcases hLR with hLR | hLR
  · exact hLdR q (List.mem_flatMap.2 ⟨d, hLR, hq⟩) q (List.mem_append_left _ hqd) rfl
  · exact (List.nodup_append.1 hdR).2.2 q hqd q (List.mem_flatMap.2 ⟨d, hLR, hq⟩) rfl

/-- A split of one child of a node, with the separator and the new child put into the node. -/
theorem splits_node (hup : Upper up) (hp : TreeShape up P (h + 1) p)
    (hnodup : (ids (tokens P (h + 1) p)).Nodup) (hlt : ∀ q ∈ ids (tokens P (h + 1) p), q < n)
    (hi : i ≤ (P p).keys.length) (hc : (P p).children[i]? = some c)
    (hm : (P c).midKey? = some m) :
    (∀ d ∈ (P p).children.insertIdx (i + 1) n, TreeShape up (splitPages P n c) h d) ∧
      Splits up P (splitPages P n c) n (n + 1) (tokens P (h + 1) p)
        (inner p :: weave (tokens (splitPages P n c) h) ((P p).children.insertIdx (i + 1) n)
          ((P p).keys.insertIdx i m)) := by
  have hlen := hp.1.length_eq
  have hch := children_eq_of_getElem? hc
  have hcmem : c ∈ (P p).children := by rw [hch]; simp
  have hilt : i < (P p).children.length := (List.getElem?_eq_some_iff.1 hc).1
  have hnew : (P p).children.insertIdx (i + 1) n =
      (P p).children.take i ++ c :: n :: (P p).children.drop (i + 1) := by
    rw [SortedAssoc.insertIdx_eq_take_append (by omega), List.take_add_one, hc]
    simp only [Option.toList_some, List.append_assoc, List.singleton_append]
  have hkeys : (P p).keys.insertIdx i m = (P p).keys.take i ++ m :: (P p).keys.drop i :=
    SortedAssoc.insertIdx_eq_take_append hi m
  have hSL : ((P p).keys.take i).length = ((P p).children.take i).length := by
    simp only [List.length_take]
    omega
  have hSR : ((P p).keys.drop i).length = ((P p).children.drop (i + 1)).length := by
    simp only [List.length_drop]
    omega
  -- the tokens before and after, around the child
  have hold : tokens P (h + 1) p =
      (inner p :: weaveLeft (tokens P h) ((P p).children.take i) ((P p).keys.take i)) ++
        (tokens P h c ++ weaveRight (tokens P h) ((P p).keys.drop i)
          ((P p).children.drop (i + 1))) := by
    rw [tokens, List.cons_append, ← weave_append _ hSL hSR, ← hch, List.take_append_drop]
  have hids : ids (tokens P (h + 1) p) =
      p :: (P p).children.flatMap fun c ↦ ids (tokens P h c) := ids_tokens_succ P h p
  have hother := splitPages_other hnodup hlt hc
  have hcids : ∀ q ∈ ids (tokens P h c), q ∈ ids (tokens P (h + 1) p) := fun q hq ↦
    hids ▸ List.mem_cons_of_mem p (List.mem_flatMap.2 ⟨c, hcmem, hq⟩)
  have hcnodup : (ids (tokens P h c)).Nodup := by
    have hnd := hnodup
    rw [hold, ids_append, ids_append] at hnd
    exact (List.nodup_append.1 (List.nodup_append.1 hnd).2.1).1
  have hclt : ∀ q ∈ ids (tokens P h c), q < n := fun q hq ↦ hlt q (hcids q hq)
  obtain ⟨hleft, hright⟩ := treeShape_split (hp.2.2 c hcmem) hcnodup hclt hm
  have hnewTokens : inner p :: weave (tokens (splitPages P n c) h)
        ((P p).children.insertIdx (i + 1) n) ((P p).keys.insertIdx i m) =
      (inner p :: weaveLeft (tokens P h) ((P p).children.take i) ((P p).keys.take i)) ++
        ((tokens (splitPages P n c) h c ++ sep m :: tokens (splitPages P n c) h n) ++
          weaveRight (tokens P h) ((P p).keys.drop i) ((P p).children.drop (i + 1))) := by
    have hL : weaveLeft (tokens (splitPages P n c) h) ((P p).children.take i)
        ((P p).keys.take i) = weaveLeft (tokens P h) ((P p).children.take i)
        ((P p).keys.take i) := by
      refine List.flatMap_congr fun x hx ↦ ?_
      have hx := (List.of_mem_zip (a := x.1) (b := x.2) hx).1
      rw [tokens_congr (hother x.1 (Or.inl hx))]
    have hR : weaveRight (tokens (splitPages P n c) h) ((P p).keys.drop i)
        ((P p).children.drop (i + 1)) = weaveRight (tokens P h) ((P p).keys.drop i)
        ((P p).children.drop (i + 1)) := by
      refine List.flatMap_congr fun x hx ↦ ?_
      have hx := (List.of_mem_zip (a := x.1) (b := x.2) hx).2
      rw [tokens_congr (hother x.2 (Or.inr hx))]
    rw [hnew, hkeys, weave_append _ hSL (by simp only [List.length_cons, hSR]), hL]
    rw [weaveRight, List.zip_cons_cons, List.flatMap_cons, ← weaveRight, hR]
    simp only [List.cons_append, List.append_assoc]
  refine ⟨fun d hd ↦ ?_, ?_⟩
  · rw [hnew, List.mem_append, List.mem_cons, List.mem_cons] at hd
    rcases hd with hd | rfl | rfl | hd
    · have hd' := List.mem_of_mem_take hd
      exact treeShape_congr (hother d (Or.inl hd)) (hp.2.2 d hd')
    · exact hleft
    · exact hright
    · have hd' := List.mem_of_mem_drop hd
      exact treeShape_congr (hother d (Or.inr hd)) (hp.2.2 d hd')
  · rw [hnewTokens, hold]
    exact (splits_tokens hup (hp.2.2 c hcmem) hcnodup hclt hm).context
      (by rw [← hold]; exact hnodup) (by rw [← hold]; exact hlt)

end Split

/-! ### The splits on a route -/

section Route

variable [ByteLen K] [ByteLen V] (bs : BinarySearch K) (cond : K → List K → Prop) (key : K)

/-- What an insertion of `key` does with a child before it goes on: a full one is split, and the
half that the comparison with the middle key picks is the one to go on with. The condition is put on
the middle key and the separators of the parent. -/
def SplitStep (separators : List K) (child : Node K V) (next : Node K V → Prop) : Prop :=
  if child.isFull then
    match child.midKey? with
    | none => True
    | some m =>
      cond m separators ∧ next (if m < key then child.splitRight else child.splitLeft 0)
  else next child

/-- The condition holds at every split on the route of an insertion of `key` from a node down. -/
def OnRoute (P : Nat → Node K V) : Nat → Node K V → Prop
  | 0, _ => True
  | fuel + 1, node =>
    match node.nodeType with
    | .leaf => True
    | .internal =>
      match node.children[childIndex bs node key]? with
      | none => True
      | some childId => SplitStep cond key node.keys (P childId) (OnRoute P fuel)

/-- The condition holds at every split that an insertion of `key` makes below the root. A full root
is split first, under a new root with one separator. -/
def BPlusTree.SplitsBelowRoot (t : BPlusTree K V) : Prop :=
  let root := t.pager.pages rootPageId
  if root.isFull then
    match root.midKey? with
    | none => True
    | some m => SplitStep cond key [m] (if m ≤ key then root.splitRight else root.splitLeft 0)
        (OnRoute bs cond key t.pager.pages t.fuel)
  else OnRoute bs cond key t.pager.pages t.fuel root

instance [∀ m separators, Decidable (cond m separators)] (separators : List K) (child : Node K V)
    (next : Node K V → Prop) [DecidablePred next] :
    Decidable (SplitStep cond key separators child next) :=
  if hfull : child.isFull then
    match hm : child.midKey? with
    | none => .isTrue (by rw [SplitStep, if_pos hfull, hm]; trivial)
    | some m => decidable_of_iff
        (cond m separators ∧ next (if m < key then child.splitRight else child.splitLeft 0))
        (by rw [SplitStep, if_pos hfull, hm])
  else decidable_of_iff (next child) (by rw [SplitStep, if_neg hfull])

instance decidableOnRoute [∀ m separators, Decidable (cond m separators)] (P : Nat → Node K V) :
    ∀ fuel node, Decidable (OnRoute bs cond key P fuel node)
  | 0, _ => .isTrue trivial
  | fuel + 1, node =>
    have : DecidablePred (OnRoute bs cond key P fuel) := decidableOnRoute P fuel
    match hn : node.nodeType with
    | .leaf => .isTrue (by rw [OnRoute, hn]; trivial)
    | .internal =>
      match hc : node.children[childIndex bs node key]? with
      | none => .isTrue (by simp only [OnRoute, hn, hc])
      | some c => decidable_of_iff
          (SplitStep cond key node.keys (P c) (OnRoute bs cond key P fuel))
          (by simp only [OnRoute, hn, hc])

instance [∀ m separators, Decidable (cond m separators)] (t : BPlusTree K V) :
    Decidable (t.SplitsBelowRoot bs cond key) :=
  if hfull : (t.pager.pages rootPageId).isFull then
    match hm : (t.pager.pages rootPageId).midKey? with
    | none => .isTrue (by simp only [SplitsBelowRoot, if_pos hfull, hm])
    | some m => decidable_of_iff (SplitStep cond key [m]
        (if m ≤ key then (t.pager.pages rootPageId).splitRight
          else (t.pager.pages rootPageId).splitLeft 0)
        (OnRoute bs cond key t.pager.pages t.fuel))
        (by simp only [SplitsBelowRoot, if_pos hfull, hm])
  else decidable_of_iff (OnRoute bs cond key t.pager.pages t.fuel (t.pager.pages rootPageId))
    (by simp only [SplitsBelowRoot, if_neg hfull])

variable {cond key bs}

theorem SplitStep.imp {separators : List K} {child : Node K V} {next next' : Node K V → Prop}
    (h : SplitStep cond key separators child next)
    (hnext : ∀ node, node = child ∨ node = child.splitRight ∨ node = child.splitLeft 0 →
      next node → next' node) : SplitStep cond key separators child next' := by
  unfold SplitStep at h ⊢
  split
  · rename_i hfull
    rw [if_pos hfull] at h
    split
    · trivial
    · rename_i m hm
      rw [hm] at h
      refine ⟨h.1, hnext _ (Or.inr ?_) h.2⟩
      split
      · exact Or.inl rfl
      · exact Or.inr rfl
  · rename_i hfull
    rw [if_neg hfull] at h
    exact hnext _ (Or.inl rfl) h

omit [ByteLen K] [ByteLen V] [LinearOrder K] in
/-- The halves of a node are of its kind, and their children are among its own. -/
theorem nodeType_half {child node : Node K V}
    (h : node = child ∨ node = child.splitRight ∨ ∃ q, node = child.splitLeft q) :
    node.nodeType = child.nodeType ∧ ∀ d ∈ node.children, d ∈ child.children := by
  rcases h with rfl | rfl | ⟨q, rfl⟩
  · exact ⟨rfl, fun _ ↦ id⟩
  · rw [Node.splitRight]
    split
    · rename_i hleaf; exact ⟨hleaf.symm, nofun⟩
    · rename_i hint; exact ⟨hint.symm, fun d ↦ List.mem_of_mem_drop⟩
  · rw [Node.splitLeft]
    split
    · exact ⟨rfl, fun _ ↦ id⟩
    · exact ⟨rfl, fun d ↦ List.mem_of_mem_take⟩

/-- A route depends on the pages below the node only. -/
theorem onRoute_congr {P P' : Nat → Node K V} {fuel : Nat} : ∀ {node : Node K V},
    (∀ c ∈ node.children, ∀ q, Below P c q → P' q = P q) →
    OnRoute bs cond key P fuel node → OnRoute bs cond key P' fuel node := by
  induction fuel with
  | zero => exact fun _ _ ↦ trivial
  | succ fuel ih =>
    intro node hnode hroute
    unfold OnRoute at hroute ⊢
    split
    · trivial
    · rename_i hint
      rw [hint] at hroute
      split
      · trivial
      · rename_i c hc
        simp only [hc] at hroute
        have hpages := hnode c (List.mem_of_getElem? hc)
        rw [hpages c .refl]
        refine hroute.imp fun half hhalf ↦ ih fun d hd q hq ↦ hpages q ?_
        exact .of_child ((nodeType_half (hhalf.imp_right (Or.imp_right fun e ↦ ⟨0, e⟩))).2 d hd) hq

/-- The page id that a left half is linked to plays no part in a route. -/
theorem onRoute_splitLeft {P : Nat → Node K V} {fuel : Nat} {node : Node K V} (q : Nat)
    (h : OnRoute bs cond key P fuel (node.splitLeft 0)) :
    OnRoute bs cond key P fuel (node.splitLeft q) := by
  cases fuel with
  | zero => trivial
  | succ fuel =>
    cases htype : node.nodeType with
    | leaf =>
      have hleaf : (node.splitLeft q).nodeType = .leaf := by
        rw [(nodeType_half (Or.inr (Or.inr ⟨q, rfl⟩))).1, htype]
      simp only [OnRoute, hleaf]
    | internal =>
      have heq : node.splitLeft q = node.splitLeft 0 := by
        simp only [Node.splitLeft, htype]
      rwa [heq]

theorem SplitStep.splitLeft {P : Nat → Node K V} {fuel : Nat} {separators : List K}
    {node : Node K V} (q : Nat)
    (h : SplitStep cond key separators (node.splitLeft 0) (OnRoute bs cond key P fuel)) :
    SplitStep cond key separators (node.splitLeft q) (OnRoute bs cond key P fuel) := by
  cases htype : node.nodeType with
  | internal =>
    have heq : node.splitLeft q = node.splitLeft 0 := by
      simp only [Node.splitLeft, htype]
    rwa [heq]
  | leaf =>
    -- below a leaf there is no route
    have hleaf : ∀ {half : Node K V}, (half = node.splitLeft q ∨
        half = (node.splitLeft q).splitRight ∨ ∃ r, half = (node.splitLeft q).splitLeft r) →
        OnRoute bs cond key P fuel half := by
      intro half hhalf
      have hkind : half.nodeType = .leaf := by
        rw [(nodeType_half hhalf).1, (nodeType_half (Or.inr (Or.inr ⟨q, rfl⟩))).1, htype]
      cases fuel with
      | zero => trivial
      | succ fuel => simp only [OnRoute, hkind]
    have hfull : (node.splitLeft q).isFull = (node.splitLeft 0).isFull := by
      simp only [Node.splitLeft, htype, Node.isFull, Node.serializedSize, Option.isSome_some]
    have hmid : (node.splitLeft q).midKey? = (node.splitLeft 0).midKey? := by
      simp only [Node.splitLeft, htype, Node.midKey?, Node.mid]
    unfold SplitStep at h ⊢
    rw [hfull, hmid]
    split
    · rename_i hf
      rw [if_pos hf] at h
      split
      · trivial
      · rename_i m hm
        rw [hm] at h
        refine ⟨h.1, hleaf (Or.inr ?_)⟩
        split
        · exact Or.inl rfl
        · exact Or.inr ⟨0, rfl⟩
    · exact hleaf (Or.inl rfl)

/-- A route that is fine for more steps is fine for fewer. -/
theorem onRoute_of_succ {P : Nat → Node K V} {fuel : Nat} : ∀ {node : Node K V},
    OnRoute bs cond key P (fuel + 1) node → OnRoute bs cond key P fuel node := by
  induction fuel with
  | zero => exact fun _ ↦ trivial
  | succ fuel ih =>
    intro node h
    rw [OnRoute] at h ⊢
    split
    · trivial
    · rename_i hint
      rw [hint] at h
      split
      · trivial
      · rename_i c hc
        simp only [hc] at h
        exact SplitStep.imp h fun _ _ ↦ ih

theorem splitStep_of_forall (hcond : ∀ m separators, cond m separators) {separators : List K}
    {child : Node K V} {next : Node K V → Prop} (hnext : ∀ node, next node) :
    SplitStep cond key separators child next := by
  unfold SplitStep
  split
  · split
    · trivial
    · exact ⟨hcond _ _, hnext _⟩
  · exact hnext _

/-- With no condition on splits, nothing is asked of a route. -/
theorem onRoute_of_forall {P : Nat → Node K V} (hcond : ∀ m separators, cond m separators)
    {fuel : Nat} : ∀ node, OnRoute bs cond key P fuel node := by
  induction fuel with
  | zero => exact fun _ ↦ trivial
  | succ fuel ih =>
    intro node
    unfold OnRoute
    split
    · trivial
    · split
      · trivial
      · exact splitStep_of_forall hcond ih

end Route

/-! ### The descent -/

section Descent

variable [ByteLen K] [ByteLen V] (bs : BinarySearch K) {cond : K → List K → Prop}

omit [ByteLen K] [ByteLen V] in
/-- The pages of a subtree lie in the file. -/
theorem lt_of_mem_ids {t : BPlusTree K V} (ht : t.pager.Sized) {h p : Nat}
    (hp : TreeShape up t.pager.pages h p) :
    ∀ q ∈ ids (tokens t.pager.pages h p), q < t.pager.pageCount := by
  have hlt : ∀ {h q : Nat}, TreeShape up t.pager.pages h q → q < t.pager.pageCount := by
    intro h q hq
    by_contra hge
    have hblank := ht.blank q (not_lt.1 hge)
    cases h with
    | zero =>
      have := Node.LeafShape.isLeaf hq
      rw [hblank] at this
      cases this
    | succ h =>
      have := hq.1.length_eq
      rw [hblank] at this
      cases this
  induction h generalizing p with
  | zero =>
    intro q hq
    rw [tokens, ids_leaf, ids_ofEntries, List.mem_singleton] at hq
    exact hq ▸ hlt hp
  | succ h ih =>
    intro q hq
    rw [ids_tokens_succ, List.mem_cons, List.mem_flatMap] at hq
    rcases hq with rfl | ⟨c, hc, hq⟩
    · exact hlt hp
    · exact ih (hp.2.2 c hc) q hq

omit [ByteLen K] [ByteLen V] in
/-- The separators of an ordered weave are in order. -/
theorem pairwise_of_ordered_weave {f : Nat → List (Token K V)} {cs : List Nat} {ss : List K}
    (hlen : ss.length ≤ cs.length) (hord : Ordered up (weave f cs ss)) : ss.Pairwise (· ≤ ·) := by
  have hsub : (ss.map (sep : K → Token K V)).Sublist (weave f cs ss) := by
    clear hord
    induction ss generalizing cs with
    | nil => exact List.nil_sublist _
    | cons s ss ih =>
      cases cs with
      | nil => cases hlen
      | cons c cs =>
        rw [weave, List.map_cons]
        exact ((ih (Nat.le_of_succ_le_succ hlen)).cons_cons (sep s)).trans
          (List.sublist_append_right _ _)
  have hseps := List.Pairwise.sublist hsub hord
  rw [List.pairwise_map] at hseps
  exact hseps

omit [ByteLen K] in
/-- A full node of a tree can be split. -/
theorem exists_midKey_of_treeShape [ByteLen K] {P : Nat → Node K V} {h c : Nat}
    (hc : TreeShape up P h c) (hfull : (P c).isFull) :
    (∃ m, (P c).midKey? = some m) ∧ (P c).canSplit := by
  cases h with
  | zero => exact ⟨Node.LeafShape.exists_midKey hc hfull, Node.LeafShape.canSplit hc⟩
  | succ h => exact ⟨hc.1.exists_midKey hfull, hc.1.canSplit⟩

/-- What the descent does with a given number of steps: an insertion below a page that is done puts
the binding into the subtree. -/
def InsertsBelow (up : K → K → Prop) (cond : K → List K → Prop) (k : K) (v : V) (fuel : Nat) :
    Prop :=
  ∀ {t : BPlusTree K V} {h p : Nat}, t.pager.Sized → TreeShape up t.pager.pages h p →
    (ids (tokens t.pager.pages h p)).Nodup → Ordered up (tokens t.pager.pages h p) →
    OnRoute bs cond k t.pager.pages fuel (t.pager.pages p) →
    (pagerDevice K V).wp PagesBelow (insertNonFull bs fuel p (t.pager.pages p) k v)
      (fun _ t' ↦ t'.pager.Sized ∧ TreeShape up t'.pager.pages h p ∧
        Inserts up k v t.pager.pages t'.pager.pages t.pager.pageCount t'.pager.pageCount
          (tokens t.pager.pages h p) (tokens t'.pager.pages h p))
      (fun _ _ ↦ True) t

variable {bs} {k : K} {v : V} {fuel : Nat} {t : BPlusTree K V} {h p : Nat}

/-- The descent into one child, and the write of the node after it. -/
theorem wp_descend (hup : Upper up) (ih : InsertsBelow bs up cond k v fuel) {node : Node K V}
    {d : Nat} {L R : List Nat} {SL SR : List K} (ht : t.pager.Sized) (hp : p < t.pager.pageCount)
    (hnode : node.InternalShape) (hkeys : node.keys.Pairwise up)
    (hch : node.children = L ++ d :: R) (hks : node.keys = SL ++ SR) (hL : SL.length = L.length)
    (hR : SR.length = R.length) (hshape : ∀ c ∈ node.children, TreeShape up t.pager.pages h c)
    (hnodup : (p :: ids (weave (tokens t.pager.pages h) node.children node.keys)).Nodup)
    (hord : Ordered up (weave (tokens t.pager.pages h) node.children node.keys))
    (hSL : ∀ s ∈ SL, s ≤ k) (hSR : ∀ s ∈ SR, up k s)
    (hroute : OnRoute bs cond k t.pager.pages fuel (t.pager.pages d)) :
    (pagerDevice K V).wp PagesBelow
      (insertNonFull bs fuel d (t.pager.pages d) k v >>= fun _ ↦ saveNode p node)
      (fun _ t' ↦ t'.pager.Sized ∧ TreeShape up t'.pager.pages (h + 1) p ∧
        Inserts up k v t.pager.pages t'.pager.pages t.pager.pageCount t'.pager.pageCount
          (inner p :: weave (tokens t.pager.pages h) node.children node.keys)
          (tokens t'.pager.pages (h + 1) p))
      (fun _ _ ↦ True) t := by
  have hdmem : d ∈ node.children := by rw [hch]; simp
  have hdsub : (tokens t.pager.pages h d).Sublist
      (weave (tokens t.pager.pages h) node.children node.keys) := by
    rw [hch, hks, weave_append _ hL hR]
    exact (List.sublist_append_left _ _).trans (List.sublist_append_right _ _)
  have hlt : ∀ q ∈ p :: ids (weave (tokens t.pager.pages h) node.children node.keys),
      q < t.pager.pageCount := by
    intro q hq
    rcases List.mem_cons.1 hq with rfl | hq
    · exact hp
    · rw [ids_weave, List.mem_flatMap] at hq
      obtain ⟨c, hc, hq⟩ := hq
      exact lt_of_mem_ids ht (hshape c hc) q hq
  refine Device.wp_bind guard_pagesBelow (Device.wp_mono
    (ih ht (hshape d hdmem) ?_ (List.Pairwise.sublist hdsub hord) hroute)
    (fun _ t₁ _ h₁ ↦ ?_) fun _ _ _ _ ↦ trivial)
  · exact (List.nodup_cons.1 hnodup).2.sublist (hdsub.filterMap _)
  · obtain ⟨ht₁, hshape₁, hins⟩ := h₁
    obtain ⟨hshape', hins'⟩ := inserts_node hup hnode hkeys hch hks hL hR hshape hnodup
      hlt hord hSL hSR hins hshape₁
    refine wp_saveNode ht₁ (lt_of_lt_of_le hp hins.count_le) node
      (fun t₂ ht₂ hpages₂ hcount₂ ↦ ?_) fun _ _ ↦ trivial
    rw [hpages₂, hcount₂]
    exact ⟨ht₂, hshape', hins'⟩

omit [ByteLen K] [ByteLen V] in
/-- With the separator of a split put in, a node's separators are in order still, if it is new
among them. -/
theorem pairwise_insertIdx {node : Node K V} {f : Nat → List (Token K V)} {cs : List Nat} {m : K}
    {i : Nat} (hkeys : node.keys.Pairwise up) (hi : i ≤ node.keys.length)
    (hlen : node.keys.length + 1 ≤ cs.length)
    (hord : Ordered up (weave f cs (node.keys.insertIdx i m)))
    (hseps : ∀ s ∈ node.keys, (s ≤ m → up s m) ∧ (m ≤ s → up m s)) :
    (node.keys.insertIdx i m).Pairwise up := by
  have hle := pairwise_of_ordered_weave
    (by rw [List.length_insertIdx_of_le_length hi]; exact hlen) hord
  rw [← List.take_append_drop i node.keys, List.pairwise_append] at hkeys
  rw [SortedAssoc.insertIdx_eq_take_append hi, List.pairwise_append, List.pairwise_cons] at hle ⊢
  refine ⟨hkeys.1, ⟨fun s hs ↦ ?_, hkeys.2.1⟩, fun s hs s' hs' ↦ ?_⟩
  · exact (hseps s (List.mem_of_mem_drop hs)).2 (hle.2.1.1 s hs)
  · rcases List.mem_cons.1 hs' with rfl | hs'
    · exact (hseps s (List.mem_of_mem_take hs)).1 (hle.2.2 s hs _ List.mem_cons_self)
    · exact hkeys.2.2 s hs s' hs'

/-- After a split, the route goes on in the half that the comparison picks, at its own page now. -/
theorem onRoute_splitPages {c n : Nat} (hc : TreeShape up t.pager.pages h c)
    (hnodup : (ids (tokens t.pager.pages h c)).Nodup)
    (hlt : ∀ q ∈ ids (tokens t.pager.pages h c), q < n) {half : Node K V}
    (hhalf : half = (t.pager.pages c).splitRight ∨ ∃ q, half = (t.pager.pages c).splitLeft q)
    (hroute : OnRoute bs cond k t.pager.pages fuel half) :
    OnRoute bs cond k (splitPages t.pager.pages n c) fuel half := by
  obtain ⟨-, hsub⟩ := nodeType_half (Or.inr hhalf)
  refine onRoute_congr (fun d hd q hq ↦ ?_) hroute
  have hd' := hsub d hd
  cases h with
  | zero =>
    rw [Node.LeafShape.children_eq hc] at hd'
    cases hd'
  | succ h =>
    rw [ids_tokens_succ] at hnodup hlt
    have hq' : q ∈ (t.pager.pages c).children.flatMap fun d ↦ ids (tokens t.pager.pages h d) :=
      List.mem_flatMap.2 ⟨d, hd', (hc.2.2 d hd').mem_ids_of_below hq⟩
    have hqn := hlt q (List.mem_cons_of_mem c hq')
    exact splitPages_of_ne (fun e ↦ (List.nodup_cons.1 hnodup).1 (e ▸ hq')) (by omega)

omit [ByteLen K] [ByteLen V] in
/-- After the split of a child at `m`, the node has `m` in the child's place, and the half that the
comparison picks beside it. -/
theorem half_at {node : Node K V} (hn : node.InternalShape) {i c : Nat} (m : K)
    (hi : i ≤ node.keys.length) (hc : node.children[i]? = some c) (n : Nat) :
    (node.keys.insertIdx i m)[i]? = some m ∧
      (node.children.insertIdx (i + 1) n)[if m < k then i + 1 else i]? =
        some (if m < k then n else c) := by
  have hlen := hn.length_eq
  have hilt := (List.getElem?_eq_some_iff.1 hc).1
  refine ⟨by rw [List.getElem?_insertIdx_self, if_pos hi], ?_⟩
  split
  · rw [List.getElem?_insertIdx_self, if_pos (by omega)]
  · rw [List.getElem?_insertIdx_of_lt (Nat.lt_succ_self i), hc]

omit [ByteLen K] [ByteLen V] in
/-- After the split of a child at `m`, the half that the comparison picks is the one place in the
node where the key may go. -/
theorem exists_half {node : Node K V} (hn : node.InternalShape) {i c : Nat} {m : K}
    (hi : i ≤ node.keys.length) (hc : node.children[i]? = some c) (n : Nat)
    (hSL : ∀ s ∈ node.keys.take i, s ≤ k) (hSR : ∀ s ∈ node.keys.drop i, up k s)
    (hkm : k ≤ m → up k m) :
    (node.keys.insertIdx i m)[i]? = some m ∧
      (node.children.insertIdx (i + 1) n)[if m < k then i + 1 else i]? =
        some (if m < k then n else c) ∧
      ∃ L R SL SR, node.children.insertIdx (i + 1) n = L ++ (if m < k then n else c) :: R ∧
        node.keys.insertIdx i m = SL ++ SR ∧ SL.length = L.length ∧ SR.length = R.length ∧
        (∀ s ∈ SL, s ≤ k) ∧ ∀ s ∈ SR, up k s := by
  have hlen := hn.length_eq
  have hilt := (List.getElem?_eq_some_iff.1 hc).1
  have hkeys := SortedAssoc.insertIdx_eq_take_append hi m
  have hchildren : node.children.insertIdx (i + 1) n =
      node.children.take i ++ c :: n :: node.children.drop (i + 1) := by
    rw [SortedAssoc.insertIdx_eq_take_append (by omega), List.take_add_one, hc]
    simp only [Option.toList_some, List.append_assoc, List.singleton_append]
  have hlenL : (node.keys.take i).length = (node.children.take i).length := by
    simp only [List.length_take]
    omega
  have hlenR : (node.keys.drop i).length = (node.children.drop (i + 1)).length := by
    simp only [List.length_drop]
    omega
  obtain ⟨hkey, hnext⟩ := half_at (k := k) hn m hi hc n
  refine ⟨hkey, hnext, ?_⟩
  · by_cases hmk : m < k
    · refine ⟨node.children.take i ++ [c], node.children.drop (i + 1), node.keys.take i ++ [m],
        node.keys.drop i, ?_, ?_, ?_, hlenR, fun s hs ↦ ?_, hSR⟩
      · rw [hchildren, if_pos hmk, List.append_assoc, List.singleton_append]
      · rw [hkeys, List.append_assoc, List.singleton_append]
      · rw [List.length_append, List.length_append, hlenL, List.length_singleton,
          List.length_singleton]
      · rcases List.mem_append.1 hs with hs | hs
        · exact hSL s hs
        · exact (List.mem_singleton.1 hs) ▸ le_of_lt hmk
    · refine ⟨node.children.take i, n :: node.children.drop (i + 1), node.keys.take i,
        m :: node.keys.drop i, ?_, hkeys, hlenL, ?_, hSL, fun s hs ↦ ?_⟩
      · rw [hchildren, if_neg hmk]
      · rw [List.length_cons, List.length_cons, hlenR]
      · rcases List.mem_cons.1 hs with rfl | hs
        · exact hkm (not_lt.1 hmk)
        · exact hSR s hs

omit [ByteLen K] [ByteLen V] in
/-- The half that the comparison picks, on its page after the split. -/
theorem splitPages_half {P : Nat → Node K V} {n c : Nat} {m : K} (hne : n ≠ c) :
    splitPages P n c (if m < k then n else c) =
      if m < k then (P c).splitRight else (P c).splitLeft n := by
  split
  · exact splitPages_right hne
  · exact splitPages_left

/-- The route goes on in the half that the comparison picks, at its own page. -/
theorem onRoute_half {c n : Nat} {m : K} (hc : TreeShape up t.pager.pages h c)
    (hnodup : (ids (tokens t.pager.pages h c)).Nodup)
    (hlt : ∀ q ∈ ids (tokens t.pager.pages h c), q < n)
    (hroute : OnRoute bs cond k t.pager.pages fuel
      (if m < k then (t.pager.pages c).splitRight else (t.pager.pages c).splitLeft 0)) :
    OnRoute bs cond k (splitPages t.pager.pages n c) fuel
      (splitPages t.pager.pages n c (if m < k then n else c)) := by
  have hne : n ≠ c := by
    have := hlt c (mem_ids_tokens _ h c)
    omega
  have hroute₁ := onRoute_splitPages (n := n) hc hnodup hlt (by
    split
    · exact Or.inl rfl
    · exact Or.inr ⟨0, rfl⟩) hroute
  rw [splitPages_half hne]
  split
  · rename_i hmk
    rw [if_pos hmk] at hroute₁
    exact hroute₁
  · rename_i hmk
    rw [if_neg hmk] at hroute₁
    exact onRoute_splitLeft _ hroute₁

/-- The descent into a full child: it is split, and one of the halves is descended into. -/
theorem wp_splitDescend (hup : Upper up) (ih : InsertsBelow bs up cond k v fuel)
    (ht : t.pager.Sized) (hp : TreeShape up t.pager.pages (h + 1) p)
    (hnodup : (ids (tokens t.pager.pages (h + 1) p)).Nodup)
    (hord : Ordered up (tokens t.pager.pages (h + 1) p)) {i c : Nat} {m : K}
    (hi : i ≤ (t.pager.pages p).keys.length) (hc : (t.pager.pages p).children[i]? = some c)
    (hm : (t.pager.pages c).midKey? = some m) (hcan : (t.pager.pages c).canSplit)
    (hSL : ∀ s ∈ (t.pager.pages p).keys.take i, s ≤ k)
    (hSR : ∀ s ∈ (t.pager.pages p).keys.drop i, up k s) (hkm : k ≤ m → up k m)
    (hseps : ∀ s ∈ (t.pager.pages p).keys, (s ≤ m → up s m) ∧ (m ≤ s → up m s))
    (hroute : OnRoute bs cond k t.pager.pages fuel
      (if m < k then (t.pager.pages c).splitRight else (t.pager.pages c).splitLeft 0)) :
    (pagerDevice K V).wp PagesBelow (do
        let node ← splitChild (t.pager.pages p) i c
        match node.keys[i]? with
        | none => .fail .panicked
        | some m =>
          match node.children[if m < k then i + 1 else i]? with
          | none => .fail .panicked
          | some childId => do
            let child ← readPage childId
            insertNonFull bs fuel childId child k v
            saveNode p node)
      (fun _ t' ↦ t'.pager.Sized ∧ TreeShape up t'.pager.pages (h + 1) p ∧
        Inserts up k v t.pager.pages t'.pager.pages t.pager.pageCount t'.pager.pageCount
          (tokens t.pager.pages (h + 1) p) (tokens t'.pager.pages (h + 1) p))
      (fun _ _ ↦ True) t := by
  have hlen := hp.1.length_eq
  have hlt := lt_of_mem_ids ht hp
  have hcmem := List.mem_of_getElem? hc
  have hcids : ∀ q ∈ ids (tokens t.pager.pages h c),
      q ∈ ids (tokens t.pager.pages (h + 1) p) := fun q hq ↦ by
    rw [ids_tokens_succ]
    exact List.mem_cons_of_mem p (List.mem_flatMap.2 ⟨c, hcmem, hq⟩)
  have hclt := hlt c (hcids c (mem_ids_tokens _ h c))
  have hcnodup : (ids (tokens t.pager.pages h c)).Nodup := by
    rw [ids_tokens_succ] at hnodup
    exact (List.nodup_flatMap.1 (List.nodup_cons.1 hnodup).2).1 c hcmem
  obtain ⟨hshape₁, hsplit⟩ := splits_node (n := t.pager.pageCount) hup hp hnodup hlt hi hc hm
  refine Device.wp_bind guard_pagesBelow (wp_splitChild ht hclt hm hcan ⟨hi, by omega⟩
    (fun t₁ ht₁ hpages₁ hcount₁ ↦ ?_) fun _ _ _ _ _ _ ↦ trivial)
  rw [← splitPages] at hpages₁
  have hroute₁ := onRoute_half (n := t.pager.pageCount) (hp.2.2 c hcmem) hcnodup
    (fun q hq ↦ hlt q (hcids q hq)) hroute
  rw [← hpages₁] at hshape₁ hsplit
  have hnode₁ := hp.1.insert hi m t.pager.pageCount
  have hord₁ : Ordered up (inner p :: weave (tokens t₁.pager.pages h)
      ((t.pager.pages p).children.insertIdx (i + 1) t.pager.pageCount)
      ((t.pager.pages p).keys.insertIdx i m)) := by
    have := hsplit.ordered [] [] (by simpa only [List.nil_append, List.append_nil] using hord)
    simpa only [List.nil_append, List.append_nil] using this
  have hord₁ := (List.pairwise_cons.1 hord₁).2
  have hup₁ := pairwise_insertIdx hp.2.1 hi (by
    rw [List.length_insertIdx_of_le_length (by omega)]
    omega) hord₁ hseps
  have hnodup₁ := hsplit.nodup
  rw [ids_inner] at hnodup₁
  have hptlt : p < t₁.pager.pageCount := by
    have := hlt p (mem_ids_tokens _ _ p)
    omega
  obtain ⟨hkey, hnext, L, R, SL, SR, hch₁, hks₁, hlenL, hlenR, hSL₁, hSR₁⟩ :=
    exists_half (m := m) hp.1 hi hc t.pager.pageCount hSL hSR hkm
  refine Device.wp_mono (Q := fun _ t' ↦ t'.pager.Sized ∧ TreeShape up t'.pager.pages (h + 1) p ∧
      Inserts up k v t₁.pager.pages t'.pager.pages t₁.pager.pageCount t'.pager.pageCount
        (inner p :: weave (tokens t₁.pager.pages h)
          ((t.pager.pages p).children.insertIdx (i + 1) t.pager.pageCount)
          ((t.pager.pages p).keys.insertIdx i m))
        (tokens t'.pager.pages (h + 1) p)) (F := fun _ _ ↦ True) ?_
    (fun _ t' _ h' ↦ ⟨h'.1, h'.2.1, (hcount₁ ▸ h'.2.2).after hsplit⟩) fun _ _ _ _ ↦ trivial
  simp only [hkey, hnext]
  exact Device.wp_read (wp_descend hup ih ht₁ hptlt hnode₁ hup₁ hch₁ hks₁ hlenL hlenR hshape₁
    hnodup₁ hord₁ hSL₁ hSR₁ (hpages₁ ▸ hroute₁))

/-- **Descent.** An insertion below a page that is done puts the binding into the subtree. -/
theorem insertsBelow (hup : Upper up) (v : V)
    (hcond : ∀ m separators, cond m separators →
      (k ≤ m → up k m) ∧ ∀ s ∈ separators, (s ≤ m → up s m) ∧ (m ≤ s → up m s)) :
    ∀ fuel, InsertsBelow bs up cond k v fuel := by
  intro fuel
  induction fuel with
  | zero => exact fun _ _ _ _ _ ↦ Device.wp_fail fun _ ↦ trivial
  | succ fuel ih =>
    intro t h p ht hp hnodup hord hroute
    have hlt := lt_of_mem_ids ht hp
    cases h with
    | zero =>
      have hleaf : (t.pager.pages p).LeafShape := hp
      simp only [insertNonFull, hleaf.isLeaf]
      refine wp_insertLeaf bs ht (hlt p (mem_ids_tokens _ 0 p)) hleaf k v
        (fun n' t' hn' hentries hnext ht' hpages hcount ↦ ?_) fun _ _ ↦ trivial
      have hins := inserts_leaf (n := t.pager.pageCount) hup hleaf hentries hnext
      rw [hpages, hcount]
      refine ⟨ht', ?_, hins⟩
      rw [TreeShape, Function.update_self]
      exact hn'
    | succ h =>
      have hlen := hp.1.length_eq
      simp only [insertNonFull, hp.1.isInternal]
      unfold OnRoute at hroute
      simp only [hp.1.isInternal] at hroute
      obtain ⟨hi, hSL, hSR⟩ := childIndex_spec bs hup hp.1 hp.2.1 k
      generalize childIndex bs (t.pager.pages p) k = i at hi hSL hSR hroute ⊢
      have hc : (t.pager.pages p).children[i]? = some (t.pager.pages p).children[i] :=
        List.getElem?_eq_getElem (by omega)
      generalize (t.pager.pages p).children[i] = c at hc
      simp only [hc] at hroute ⊢
      have hcmem := List.mem_of_getElem? hc
      refine Device.wp_read ?_
      show (pagerDevice K V).wp PagesBelow
        (if (t.pager.pages c).isFull then _ else _) _ _ t
      unfold SplitStep at hroute
      split
      · rename_i hfull
        obtain ⟨⟨m, hm⟩, hcan⟩ := exists_midKey_of_treeShape (hp.2.2 c hcmem) hfull
        simp only [if_pos hfull, hm] at hroute
        obtain ⟨hkm, hseps⟩ := hcond m _ hroute.1
        exact wp_splitDescend hup ih ht hp hnodup hord hi hc hm hcan hSL hSR hkm hseps hroute.2
      · rename_i hfull
        rw [if_neg hfull] at hroute
        have hnodup' : (p :: ids (weave (tokens t.pager.pages h) (t.pager.pages p).children
            (t.pager.pages p).keys)).Nodup := by
          rw [← ids_inner]; exact hnodup
        exact wp_descend hup ih ht (hlt p (mem_ids_tokens _ _ p)) hp.1 hp.2.1
          (children_eq_of_getElem? hc) (List.take_append_drop i _).symm
          (by simp only [List.length_take]; omega) (by simp only [List.length_drop]; omega)
          hp.2.2 hnodup' (List.pairwise_cons.1 hord).2 hSL hSR hroute

end Descent

end KsSql
