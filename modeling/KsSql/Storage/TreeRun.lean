import KsSql.Storage.SearchTree
import KsSql.Storage.Frame

/-!
# Runs of insertions

`SearchTree up t h` is the invariant of a tree to which insertions were made that all were done: from
the root down it has the shape of a tree of height `h`, it uses no page twice, its tokens are in
order, and its leaves are linked from left to right. `insert_searchTree` is the step lemma, for both
orders at once; it says what the bindings are afterwards. `insertAll` is a run.

In weak order nothing is asked of the run, and the tree is complete and ordered along its leaf chain
(`completeLeafChain_of_insertAll`).
-/

namespace KsSql

open Token PageProgram BPlusTree

variable {K V : Type} [LinearOrder K] {up : K → K → Prop}

/-- The invariant of a tree under insertions that are done. -/
structure SearchTree (up : K → K → Prop) (t : BPlusTree K V) (h : Nat) : Prop where
  sized : t.pager.Sized
  shape : TreeShape up t.pager.pages h rootPageId
  nodup : (ids (tokens t.pager.pages h rootPageId)).Nodup
  ordered : Ordered up (tokens t.pager.pages h rootPageId)
  linked : Linked t.pager.pages (leafIds (tokens t.pager.pages h rootPageId)) none

/-- The bindings of a tree of height `h`, from left to right. -/
def BPlusTree.bindings (t : BPlusTree K V) (h : Nat) : List (K × V) :=
  Token.bindings (tokens t.pager.pages h rootPageId)

/-- The order is that of the pages. -/
theorem SearchTree.congr {t t' : BPlusTree K V} {h : Nat} (ht : SearchTree up t h)
    (hpager : t'.pager = t.pager) : SearchTree up t' h := by
  constructor
  · exact hpager ▸ ht.sized
  · exact hpager ▸ ht.shape
  · exact hpager ▸ ht.nodup
  · exact hpager ▸ ht.ordered
  · exact hpager ▸ ht.linked

/-! ### The root -/

section Root

variable {t : BPlusTree K V} {h : Nat}

/-- The root's content, copied to a page that is not in use. -/
theorem copy_root (ht : SearchTree up t h) {n : Nat}
    (hn : n ∉ ids (tokens t.pager.pages h rootPageId)) :
    let P := Function.update t.pager.pages n (t.pager.pages rootPageId)
    TreeShape up P h n ∧ (ids (tokens P h n)).Nodup ∧ Ordered up (tokens P h n) ∧
      Linked P (leafIds (tokens P h n)) none ∧ Token.bindings (tokens P h n) = t.bindings h ∧
      rootPageId ∉ ids (tokens P h n) := by
  intro P
  have hn0 : n ≠ rootPageId := fun e ↦ hn (e ▸ mem_ids_tokens _ h _)
  have hPn : P n = t.pager.pages rootPageId := Function.update_self _ _ _
  have hP : ∀ q ∈ ids (tokens t.pager.pages h rootPageId), P q = t.pager.pages q :=
    fun q hq ↦ Function.update_of_ne (fun e : q = n ↦ hn (e ▸ hq)) _ _
  have hnodup := ht.nodup
  cases h with
  | zero =>
    have htokens : tokens P 0 n = leaf n :: ofEntries (t.pager.pages rootPageId).entries := by
      rw [tokens, hPn]
    have hlinked := ht.linked
    simp only [tokens, leafIds_leaf, leafIds_ofEntries, Linked] at hlinked
    rw [htokens]
    simp only [ids_leaf, ids_ofEntries, leafIds_leaf, leafIds_ofEntries, Linked, hPn,
      List.mem_singleton, BPlusTree.bindings, tokens, bindings_leaf, bindings_ofEntries]
    exact ⟨by rw [TreeShape, hPn]; exact ht.shape, List.nodup_singleton n,
      List.pairwise_cons.2 ⟨fun _ _ ↦ trivial, (List.pairwise_cons.1 ht.ordered).2⟩, hlinked,
      trivial, hn0.symm⟩
  | succ h =>
    rw [ids_tokens_succ, List.nodup_cons] at hnodup
    have hmem : ∀ c ∈ (t.pager.pages rootPageId).children, ∀ q ∈ ids (tokens t.pager.pages h c),
        q ∈ ids (tokens t.pager.pages (h + 1) rootPageId) := fun c hc q hq ↦ by
      rw [ids_tokens_succ]
      exact List.mem_cons_of_mem _ (List.mem_flatMap.2 ⟨c, hc, hq⟩)
    have hchild : ∀ c ∈ (t.pager.pages rootPageId).children,
        tokens P h c = tokens t.pager.pages h c := fun c hc ↦
      tokens_congr fun q hq ↦ hP q (hmem c hc q hq)
    have htokens : tokens P (h + 1) n = inner n :: weave (tokens t.pager.pages h)
        (t.pager.pages rootPageId).children (t.pager.pages rootPageId).keys := by
      rw [tokens, hPn, weave_congr _ hchild]
    have hids : ids (weave (tokens t.pager.pages h) (t.pager.pages rootPageId).children
        (t.pager.pages rootPageId).keys) = (t.pager.pages rootPageId).children.flatMap
          fun c ↦ ids (tokens t.pager.pages h c) := ids_weave _ _ _
    rw [htokens]
    simp only [ids_inner, leafIds_inner, bindings_inner, BPlusTree.bindings, tokens,
      List.nodup_cons, List.mem_cons, not_or, hids]
    refine ⟨?_, ⟨fun hmemn ↦ hn ?_, hnodup.2⟩,
      List.pairwise_cons.2 ⟨fun _ _ ↦ trivial, (List.pairwise_cons.1 ht.ordered).2⟩, ?_, trivial,
      hn0.symm, hnodup.1⟩
    · rw [TreeShape, hPn]
      exact ⟨ht.shape.1, ht.shape.2.1, fun c hc ↦
        treeShape_congr (fun q hq ↦ hP q (hmem c hc q hq)) (ht.shape.2.2 c hc)⟩
    · rw [ids_tokens_succ]
      exact List.mem_cons_of_mem _ hmemn
    · exact linked_congr (fun q hq ↦ hP q (mem_ids_of_mem_leafIds hq)) ht.linked

/-- The new root over the two halves of the old one, at the old one's page. -/
theorem searchTree_newRoot {P : Nat → Node K V} {m : K} {t' : BPlusTree K V}
    (ht' : t'.pager.Sized) {a b : Nat}
    (hpages : t'.pager.pages = Function.update P rootPageId
      ⟨.internal, [m], [a, b], [], none⟩)
    (ha : TreeShape up P h a) (hb : TreeShape up P h b)
    (hnodup : (ids (tokens P h a ++ sep m :: tokens P h b)).Nodup)
    (hroot : rootPageId ∉ ids (tokens P h a ++ sep m :: tokens P h b))
    (hord : Ordered up (tokens P h a ++ sep m :: tokens P h b))
    (hlinked : Linked P (leafIds (tokens P h a ++ sep m :: tokens P h b)) none) :
    SearchTree up t' (h + 1) ∧
      t'.bindings (h + 1) = Token.bindings (tokens P h a ++ sep m :: tokens P h b) := by
  have hP : ∀ q ∈ ids (tokens P h a ++ sep m :: tokens P h b), t'.pager.pages q = P q :=
    fun q hq ↦ by
      rw [hpages]
      exact Function.update_of_ne (fun e : q = rootPageId ↦ hroot (e ▸ hq)) _ _
  have hPa : ∀ q ∈ ids (tokens P h a), t'.pager.pages q = P q := fun q hq ↦ hP q (by
    rw [ids_append]; exact List.mem_append_left _ hq)
  have hPb : ∀ q ∈ ids (tokens P h b), t'.pager.pages q = P q := fun q hq ↦ hP q (by
    rw [ids_append, ids_sep]; exact List.mem_append_right _ hq)
  have hself : t'.pager.pages rootPageId = ⟨.internal, [m], [a, b], [], none⟩ := by
    rw [hpages, Function.update_self]
  have htokens : tokens t'.pager.pages (h + 1) rootPageId =
      inner rootPageId :: (tokens P h a ++ sep m :: tokens P h b) := by
    rw [tokens, hself]
    simp only [weave, List.append_nil, tokens_congr hPa, tokens_congr hPb]
  refine ⟨⟨ht', ?_, ?_, ?_, ?_⟩, ?_⟩
  · rw [TreeShape, hself]
    refine ⟨⟨rfl, rfl, rfl, rfl⟩, List.pairwise_singleton _ _, fun c hc ↦ ?_⟩
    rcases List.mem_cons.1 hc with rfl | hc
    · exact treeShape_congr hPa ha
    · rw [List.mem_singleton.1 hc]
      exact treeShape_congr hPb hb
  · rw [htokens, ids_inner]
    exact List.nodup_cons.2 ⟨hroot, hnodup⟩
  · rw [htokens]
    exact List.pairwise_cons.2 ⟨fun _ _ ↦ trivial, hord⟩
  · rw [htokens, leafIds_inner]
    exact linked_congr (fun q hq ↦ hP q (mem_ids_of_mem_leafIds hq)) hlinked
  · rw [BPlusTree.bindings, htokens, bindings_inner]

variable [ByteLen K] [ByteLen V]

/-- Splitting the root keeps the invariant and the bindings, one level higher. -/
theorem wp_splitRoot_searchTree (hup : Upper up) (ht : SearchTree up t h) {m : K}
    (hm : (t.pager.pages rootPageId).midKey? = some m)
    (hcan : (t.pager.pages rootPageId).canSplit) {Q : Unit → BPlusTree K V → Prop}
    (hQ : ∀ t' : BPlusTree K V, SearchTree up t' (h + 1) → t'.bindings (h + 1) = t.bindings h →
      t'.pager.pages rootPageId =
        ⟨.internal, [m], [t.pager.pageCount, t.pager.pageCount + 1], [], none⟩ →
      t'.pager.pages t.pager.pageCount =
        (t.pager.pages rootPageId).splitLeft (t.pager.pageCount + 1) →
      t'.pager.pages (t.pager.pageCount + 1) = (t.pager.pages rootPageId).splitRight →
      (∀ q < t.pager.pageCount, q ≠ rootPageId → t'.pager.pages q = t.pager.pages q) → Q () t') :
    (pagerDevice K V).wp PagesBelow (splitRoot (t.pager.pages rootPageId)) Q
      (fun _ _ ↦ True) t := by
  have hlt := lt_of_mem_ids ht.sized ht.shape
  have hfree : t.pager.pageCount ∉ ids (tokens t.pager.pages h rootPageId) :=
    fun hmem ↦ lt_irrefl _ (hlt _ hmem)
  have hroot0 : rootPageId < t.pager.pageCount := ht.sized.pos
  obtain ⟨hshape, hnodup, hord, hlinked, hbindings, hroot⟩ := copy_root ht hfree
  refine Device.wp_bind guard_pagesBelow (wp_allocatePage ht.sized
    fun t₁ ht₁ hpages₁ hcount₁ ↦ ?_)
  refine Device.wp_bind guard_pagesBelow (wp_saveNode ht₁ (by omega) _
    (fun t₂ ht₂ hpages₂ hcount₂ ↦ ?_) fun _ _ ↦ trivial)
  rw [hpages₁] at hpages₂
  rw [← hpages₂] at hshape hnodup hord hlinked hbindings hroot
  have hself : t₂.pager.pages t.pager.pageCount = t.pager.pages rootPageId := by
    rw [hpages₂, Function.update_self]
  refine Device.wp_bind guard_pagesBelow (wp_splitChild ht₂ (by omega) (hself ▸ hm) (hself ▸ hcan)
    ⟨le_rfl, le_rfl⟩ (fun t₃ ht₃ hpages₃ hcount₃ ↦ ?_) fun _ _ _ _ _ _ ↦ trivial)
  rw [← splitPages] at hpages₃
  have hcount : t₂.pager.pageCount = t.pager.pageCount + 1 := by omega
  rw [hcount] at hpages₃ hcount₃ ⊢
  have hlt₂ := lt_of_mem_ids ht₂ hshape
  rw [hcount] at hlt₂
  have hsplit := splits_tokens hup hshape hnodup hlt₂ (hself ▸ hm)
  obtain ⟨hleft, hright⟩ := treeShape_split hshape hnodup hlt₂ (hself ▸ hm)
  rw [← hpages₃] at hsplit hleft hright
  have hroot₃ : rootPageId ∉ ids (tokens t₃.pager.pages h t.pager.pageCount ++
      sep m :: tokens t₃.pager.pages h (t.pager.pageCount + 1)) := fun hmem ↦ by
    rcases hsplit.ids_mem _ hmem with hmem | hmem
    · exact hroot hmem
    · exact absurd hmem.1 (by omega)
  have hord₃ := hsplit.ordered [] [] (by
    simpa only [List.nil_append, List.append_nil] using hord)
  simp only [List.nil_append, List.append_nil] at hord₃
  refine wp_saveNode ht₃ (by omega) _ (fun t₄ ht₄ hpages₄ hcount₄ ↦ ?_) fun _ _ ↦ trivial
  obtain ⟨htree, hbindings₄⟩ := searchTree_newRoot ht₄ hpages₄ hleft hright hsplit.nodup
    hroot₃ hord₃ (hsplit.linked none hlinked)
  refine hQ t₄ htree (by rw [hbindings₄, hsplit.bindings_eq, hbindings]) ?_ ?_ ?_
    fun q hq hq0 ↦ ?_
  · rw [hpages₄, Function.update_self]
    rfl
  · rw [hpages₄, Function.update_of_ne (by omega), hpages₃, splitPages_left, hself]
  · rw [hpages₄, Function.update_of_ne (by omega), hpages₃, splitPages_right (by omega), hself]
  · rw [hpages₄, Function.update_of_ne hq0, hpages₃, splitPages_of_ne (by omega) (by omega),
      hpages₂, Function.update_of_ne (by omega)]

end Root

/-! ### One insertion -/

section Insert

variable [ByteLen K] [ByteLen V] {bs : BinarySearch K} {cond : K → List K → Prop} {k : K} {v : V}
  {t : BPlusTree K V} {h : Nat}

omit [ByteLen K] [ByteLen V] in
/-- The search in a root with one separator. -/
theorem childIndex_singleton {node : Node K V} {m : K} (hkeys : node.keys = [m]) {a b : Nat}
    (hch : node.children = [a, b]) : childIndex bs node k = if m ≤ k then 1 else 0 := by
  rw [childIndex, hkeys, hch]
  rcases hs : bs.search [m] k with i | i
  · obtain ⟨hi, hlt, hgt⟩ := bs.error_spec (List.pairwise_singleton _ _) hs
    have hi' : i = 0 ∨ i = 1 := by
      rw [List.length_singleton] at hi
      omega
    rcases hi' with rfl | rfl
    · have hkm : k < m := hgt m (by simp)
      rw [if_neg (not_le.2 hkm)]
      rfl
    · have hmk : m < k := hlt m (by simp)
      rw [if_pos hmk.le]
      rfl
  · have hi := bs.ok_spec (List.pairwise_singleton _ _) hs
    obtain ⟨hlt, hkm⟩ := List.getElem?_eq_some_iff.1 hi
    rw [List.length_singleton] at hlt
    obtain rfl : i = 0 := by omega
    have hmk : m = k := hkm
    rw [if_pos hmk.le]
    rfl

/-- The route of an insertion below a root that was just split. -/
theorem onRoute_newRoot {P P' : Nat → Node K V} {root node : Node K V} {fuel n : Nat} {m : K}
    (hroot : ∀ c ∈ root.children, ∀ q, Below P c q → P' q = P q)
    (hint : node.nodeType = .internal)
    (hkeys : node.keys = [m]) (hch : node.children = [n, n + 1])
    (hleft : P' n = root.splitLeft (n + 1)) (hright : P' (n + 1) = root.splitRight)
    (hroute : SplitStep cond k [m] (if m ≤ k then root.splitRight else root.splitLeft 0)
      (OnRoute bs cond k P (fuel + 1))) : OnRoute bs cond k P' (fuel + 1) node := by
  -- what holds of a half of the old root with the old pages holds of it with the new ones
  have hstep : ∀ {child : Node K V},
      (child = root ∨ child = root.splitRight ∨ ∃ q, child = root.splitLeft q) →
      SplitStep cond k [m] child (OnRoute bs cond k P (fuel + 1)) →
      SplitStep cond k [m] child (OnRoute bs cond k P' fuel) := by
    intro child hchild hstep
    obtain ⟨-, hsub⟩ := nodeType_half hchild
    refine hstep.imp fun half hhalf hroute ↦ onRoute_congr (fun c hc ↦ ?_)
      (onRoute_of_succ hroute)
    obtain ⟨-, hsub'⟩ := nodeType_half (hhalf.imp_right (Or.imp_right fun e ↦ ⟨0, e⟩))
    exact hroot c (hsub c (hsub' c hc))
  simp only [OnRoute, hint, childIndex_singleton hkeys hch, hch, hkeys]
  by_cases hmk : m ≤ k
  · simp only [if_pos hmk] at hroute ⊢
    show SplitStep cond k [m] (P' (n + 1)) _
    rw [hright]
    exact hstep (Or.inr (Or.inl rfl)) hroute
  · simp only [if_neg hmk] at hroute ⊢
    show SplitStep cond k [m] (P' n) _
    rw [hleft]
    exact hstep (Or.inr (Or.inr ⟨_, rfl⟩)) (hroute.splitLeft (n + 1))

omit [ByteLen K] [ByteLen V] in
/-- An `Inserts` step of the whole tree keeps the invariant. -/
theorem SearchTree.of_inserts {t' : BPlusTree K V} (ht : SearchTree up t h) (ht' : t'.pager.Sized)
    (hshape : TreeShape up t'.pager.pages h rootPageId)
    (hins : Inserts up k v t.pager.pages t'.pager.pages t.pager.pageCount t'.pager.pageCount
      (tokens t.pager.pages h rootPageId) (tokens t'.pager.pages h rootPageId)) :
    SearchTree up t' h ∧ Upserted up k v (t.bindings h) (t'.bindings h) := by
  have hord := hins.keeps [] [] nofun nofun (by
    simpa only [List.nil_append, List.append_nil] using ht.ordered)
  simp only [List.nil_append, List.append_nil] at hord
  exact ⟨⟨ht', hshape, hins.nodup, hord, hins.linked none ht.linked⟩, hins.upserted⟩

/-- **One insertion.** An insertion that is done keeps the invariant and puts its binding in. -/
theorem insert_searchTree (hup : Upper up)
    (hcond : ∀ m separators, cond m separators →
      (k ≤ m → up k m) ∧ ∀ s ∈ separators, (s ≤ m → up s m) ∧ (m ≤ s → up m s))
    (ht : SearchTree up t h) (hroute : t.SplitsBelowRoot bs cond k)
    (hok : (t.insert bs k v).1 = .ok ()) (hb : (t.insert bs k v).2.PagesBelow) :
    ∃ h', SearchTree up (t.insert bs k v).2 h' ∧
      Upserted up k v (t.bindings h) ((t.insert bs k v).2.bindings h') := by
  have hwp : (pagerDevice K V).wp PagesBelow (insertProgram bs t.fuel k v)
      (fun _ t' ↦ ∃ h', SearchTree up t' h' ∧ Upserted up k v (t.bindings h) (t'.bindings h'))
      (fun _ _ ↦ True) t := by
    refine Device.wp_read ?_
    show (pagerDevice K V).wp PagesBelow
      (if (t.pager.pages rootPageId).isFull then _ else _) _ _ t
    unfold SplitsBelowRoot at hroute
    split
    · rename_i hfull
      obtain ⟨⟨m, hm⟩, hcan⟩ := exists_midKey_of_treeShape ht.shape hfull
      simp only [if_pos hfull, hm] at hroute
      refine Device.wp_bind guard_pagesBelow (wp_splitRoot_searchTree hup ht hm hcan
        fun t₁ ht₁ hbindings hnode hleft hright hother ↦ ?_)
      refine Device.wp_read (Device.wp_mono (insertsBelow hup v hcond t.fuel ht₁.sized ht₁.shape
        ht₁.nodup ht₁.ordered (onRoute_newRoot (fun c hc q hq ↦ ?_)
          (by rw [hnode]) (by rw [hnode]) (by rw [hnode]) hleft hright hroute))
        (fun _ t₂ _ h₂ ↦ ?_) fun _ _ _ _ ↦ trivial)
      · have hnodup := ht.nodup
        have hlt := lt_of_mem_ids ht.sized ht.shape
        have hshape := ht.shape
        cases h with
        | zero =>
          rw [Node.LeafShape.children_eq hshape] at hc
          cases hc
        | succ h =>
          rw [ids_tokens_succ] at hnodup hlt
          have hq' : q ∈ (t.pager.pages rootPageId).children.flatMap
              fun c ↦ ids (tokens t.pager.pages h c) :=
            List.mem_flatMap.2 ⟨c, hc, (hshape.2.2 c hc).mem_ids_of_below hq⟩
          exact hother q (hlt q (List.mem_cons_of_mem _ hq'))
            fun e ↦ (List.nodup_cons.1 hnodup).1 (e ▸ hq')
      · obtain ⟨htree, hups⟩ := ht₁.of_inserts h₂.1 h₂.2.1 h₂.2.2
        exact ⟨h + 1, htree, hbindings ▸ hups⟩
    · rename_i hfull
      rw [if_neg hfull] at hroute
      refine Device.wp_mono (insertsBelow hup v hcond t.fuel ht.sized ht.shape ht.nodup ht.ordered
        hroute) (fun _ t₁ _ h₁ ↦ ⟨h, ht.of_inserts h₁.1 h₁.2.1 h₁.2.2⟩) fun _ _ _ _ ↦ trivial
  have hout := hwp hb
  rcases hrun : (pagerDevice K V).run (insertProgram bs t.fuel k v) t with ⟨e | u, t'⟩
  · rw [BPlusTree.insert, hrun] at hok
    cases hok
  · rw [hrun] at hout
    rw [BPlusTree.insert, hrun]
    exact hout

end Insert

/-! ### Runs -/

section Run

variable [ByteLen K] [ByteLen V] (bs : BinarySearch K)

/-- Insertions one after another, as long as they are done. -/
def BPlusTree.insertAll (t : BPlusTree K V) : List (K × V) → Except StorageError (BPlusTree K V)
  | [] => .ok t
  | (k, v) :: rest =>
    match t.insert bs k v with
    | (.ok (), t') => insertAll t' rest
    | (.error e, _) => .error e

/-- The trees that insertions grow on an empty file, done or refused, each satisfying `step` where it
begins, whatever becomes of the log in between. -/
inductive BPlusTree.Grown (tier : MemoryTier K V) (step : BPlusTree K V → K → V → Prop) :
    BPlusTree K V → Prop
  /-- The tree on the empty file. -/
  | empty : Grown tier step (openEmpty tier)
  /-- An insertion. -/
  | insert {t : BPlusTree K V} (k : K) (v : V) : Grown tier step t → step t k v →
      Grown tier step (t.insert bs k v).2
  /-- The queue is emptied, and the log is written. -/
  | log {t : BPlusTree K V} (wal : Wal K V) : Grown tier step t →
      Grown tier step { t with wal := wal }

/-- The condition holds at every split below the root, in every insertion of the run. -/
def BPlusTree.SplitsInRun (cond : K → K → List K → Prop) (t : BPlusTree K V) :
    List (K × V) → Prop
  | [] => True
  | (k, v) :: rest =>
    t.SplitsBelowRoot bs (cond k) k ∧ SplitsInRun cond (t.insert bs k v).2 rest

instance decidableSplitsInRun {cond : K → K → List K → Prop}
    [∀ k m separators, Decidable (cond k m separators)] :
    ∀ (kvs : List (K × V)) (t : BPlusTree K V), Decidable (t.SplitsInRun bs cond kvs)
  | [], _ => .isTrue trivial
  | (k, v) :: rest, t =>
    have : Decidable ((t.insert bs k v).2.SplitsInRun bs cond rest) := decidableSplitsInRun rest _
    decidable_of_iff (t.SplitsBelowRoot bs (cond k) k ∧ SplitsInRun bs cond _ rest) Iff.rfl

variable (up) in
omit [ByteLen K] [ByteLen V] in
/-- The tree on an empty file is an empty leaf. -/
theorem searchTree_openEmpty (tier : MemoryTier K V) :
    SearchTree up (openEmpty tier) 0 ∧ (openEmpty tier).bindings 0 = [] := by
  have hroot : (openEmpty tier).pager.pages rootPageId = .newLeaf := rfl
  have hlen : (openEmpty tier).pager.fileLength = pageSize := by
    simp only [openEmpty, Pager.writePage, rootPageId, Nat.zero_mul, ge_iff_le, le_refl, if_true,
      Nat.zero_add]
  have hcount : (openEmpty tier).pager.pageCount = 1 := by
    rw [Pager.pageCount, hlen, Nat.div_self (by decide)]
  refine ⟨⟨⟨?_, ?_, ?_, fun q hq ↦ ?_⟩, ?_, ?_, ?_, ?_⟩, rfl⟩
  · rw [hlen, hcount, Nat.one_mul]
  · rw [hcount]
    exact Nat.one_pos
  · rw [hcount]
    exact le_rfl
  · rw [hcount] at hq
    exact Function.update_of_ne (fun e : q = 0 ↦ by omega) _ _
  · rw [TreeShape, hroot]
    exact ⟨rfl, rfl, rfl, .nil⟩
  · exact List.nodup_singleton _
  · exact List.pairwise_singleton _ _
  · exact ⟨rfl, trivial⟩

omit [LinearOrder K] in
/-- The pages of an empty file fit. -/
theorem fits_openEmpty (tier : MemoryTier K V) (q : Nat) : ((openEmpty tier).pager.pages q).Fits := by
  have hleaf : (.newLeaf : Node K V).Fits := by
    show 4 + (8 + 0) + (8 + 4 * 0) + (8 + 0) + (1 + 0) ≤ 4096 - 4
    decide
  show (Function.update (fun _ ↦ Node.newInternal) rootPageId Node.newLeaf q).Fits
  by_cases hq : q = rootPageId
  · rw [hq, Function.update_self]
    exact hleaf
  · rw [Function.update_of_ne hq]
    exact Node.fits_newInternal

variable {bs}

/-- The bound on pages held before every insertion of a run that ends inside it. -/
theorem pagesBelow_of_insertAll {kvs : List (K × V)} : ∀ {t t' : BPlusTree K V},
    t.insertAll bs kvs = .ok t' → t'.PagesBelow → t.PagesBelow := by
  induction kvs with
  | nil => exact fun h hb ↦ Except.ok.inj h ▸ hb
  | cons kv kvs ih =>
    intro t t' h hb
    rw [insertAll] at h
    rcases hins : t.insert bs kv.1 kv.2 with ⟨e | u, t₁⟩
    · rw [hins] at h; cases h
    · rw [hins] at h
      have hb₁ : ((pagerDevice K V).run (insertProgram bs t.fuel kv.1 kv.2) t).2.PagesBelow := by
        have : (t.insert bs kv.1 kv.2).2 = t₁ := by rw [hins]
        rw [← this] at h
        exact ih h hb
      exact guard_pagesBelow.run _ hb₁

theorem BPlusTree.Grown.mono {tier : MemoryTier K V} {step step' : BPlusTree K V → K → V → Prop}
    {t : BPlusTree K V} (ht : t.Grown bs tier step) (h : ∀ t k v, step t k v → step' t k v) :
    t.Grown bs tier step' := by
  induction ht with
  | empty => exact .empty
  | insert k v _ hstep ih => exact .insert k v ih (h _ k v hstep)
  | log wal _ ih => exact .log wal ih

theorem BPlusTree.Grown.any {tier : MemoryTier K V} {step : BPlusTree K V → K → V → Prop}
    {t : BPlusTree K V} (ht : t.Grown bs tier step) : t.Grown bs tier fun _ _ _ ↦ True :=
  ht.mono fun _ _ _ _ ↦ trivial

/-- Insertions leave the memory tier alone. -/
theorem BPlusTree.Grown.memoryTier_eq {tier : MemoryTier K V}
    {step : BPlusTree K V → K → V → Prop} {t : BPlusTree K V} (ht : t.Grown bs tier step) :
    t.memoryTier = tier := by
  induction ht with
  | empty => rfl
  | insert k v _ _ ih => exact (insert_frame bs _ k v).memoryTier.trans ih
  | log wal _ ih => exact ih

/-- **Every tree that insertions grow** is sound, and all its pages fit. -/
theorem BPlusTree.Grown.sound {R : K → V → Prop} {tier : MemoryTier K V}
    {step : BPlusTree K V → K → V → Prop} {t : BPlusTree K V} (ht : t.Grown bs tier step)
    (hR : ∀ t k v, step t k v → R k v) (hb : t.PagesBelow) :
    Sound R t ∧ ∀ q, (t.pager.pages q).Fits := by
  induction ht with
  | empty => exact ⟨sound_openEmpty tier, fits_openEmpty tier⟩
  | @insert t k v ht hstep ih =>
    obtain ⟨hsound, hfits⟩ := ih (guard_pagesBelow.run _ hb)
    exact ⟨(insert_sound bs hsound (hR t k v hstep) hb).1, fits_insert bs hfits k v⟩
  | log wal _ ih =>
    obtain ⟨hsound, hfits⟩ := ih hb
    exact ⟨hsound.congr rfl, hfits⟩

/-- **A run of insertions** keeps the invariant, and each of its steps puts its binding in: whatever
holds of the bindings at first and is kept by such steps holds in the end. -/
theorem searchTree_of_insertAll (hup : Upper up) (cond : K → K → List K → Prop)
    (hcond : ∀ k m separators, cond k m separators →
      (k ≤ m → up k m) ∧ ∀ s ∈ separators, (s ≤ m → up s m) ∧ (m ≤ s → up m s))
    {I : List (K × V) → List (K × V) → Prop}
    (hI : ∀ {done E E' : List (K × V)} {k : K} {v : V}, I done E → Upserted up k v E E' →
      I (done ++ [(k, v)]) E') {kvs : List (K × V)} :
    ∀ {t t' : BPlusTree K V} {h : Nat} {D : List (K × V)}, SearchTree up t h →
      I D (t.bindings h) → t.SplitsInRun bs cond kvs → t.insertAll bs kvs = .ok t' →
      t'.PagesBelow → ∃ h', SearchTree up t' h' ∧ I (D ++ kvs) (t'.bindings h') := by
  induction kvs with
  | nil =>
    intro t t' h D ht hdone _ hrun _
    obtain rfl := Except.ok.inj hrun
    exact ⟨h, ht, by rwa [List.append_nil]⟩
  | cons kv kvs ih =>
    intro t t' h D ht hdone hsplits hrun hb
    rw [insertAll] at hrun
    rw [SplitsInRun] at hsplits
    rcases hins : t.insert bs kv.1 kv.2 with ⟨e | u, t₁⟩
    · rw [hins] at hrun; cases hrun
    · rw [hins] at hrun hsplits
      have hok : (t.insert bs kv.1 kv.2).1 = .ok () := by rw [hins]
      have hb₁ : (t.insert bs kv.1 kv.2).2.PagesBelow := by
        rw [hins]; exact pagesBelow_of_insertAll hrun hb
      obtain ⟨h₁, ht₁, hups⟩ := insert_searchTree hup (hcond kv.1) ht hsplits.1 hok hb₁
      rw [hins] at ht₁ hups
      obtain ⟨h', ht', hI'⟩ := ih ht₁ (hI hdone hups) hsplits.2 hrun hb
      exact ⟨h', ht', by rwa [List.append_assoc, List.singleton_append] at hI'⟩

end Run

/-- Three insertions that leave a key in the middle of a full leaf below the root, and one that
splits the leaf there for another key. -/
def splitBesideKey : List (Bytes × Bytes) :=
  [([1], List.replicate 1500 0), ([9], List.replicate 1600 0), ([3], List.replicate 1600 0),
    ([2], [7])]

end KsSql
