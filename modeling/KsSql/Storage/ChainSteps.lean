import KsSql.Storage.QuietInsert

/-!
# The leaf chain, one page write at a time

A scan goes down the first children and then along the leaf chain, and other page writes than the
root's become visible to it one by one. `ChainStep` is what each of them keeps: every subtree stays
one, no internal node gets another first child, and every chain goes on, with perhaps a new leaf put
in between, and with all its keys. A leaf split has the new leaf written, with its link, before the
old one is made to point to it.

Only the write of a new root is different, as it puts a node in between the root and what was its
first child. Where the root was internal the descent ends at the same leaf as before (`WalkStep`).
Where it was a leaf, a scan that has found it to be one reads an internal node in its place.
-/

namespace KsSql

open PageProgram BPlusTree

variable {K V : Type} [LinearOrder K] {P P' P₁ P₂ : Nat → Node K V}

/-- The relation that all bindings satisfy. -/
abbrev AnyBinding (_ : K) (_ : V) : Prop := True

/-- The page at which the descent of a scan ends, from a subtree of height `h`. -/
def firstLeaf (P : Nat → Node K V) : Nat → Nat → Nat
  | 0, p => p
  | h + 1, p =>
    match (P p).children with
    | [] => p
    | c :: _ => firstLeaf P h c

/-- What every page write but a new root's keeps for scans. -/
structure ChainStep (P P' : Nat → Node K V) : Prop where
  preserves : Preserves AnyBinding P P'
  heads : ∀ q c, (P q).nodeType = .internal → (P q).children.head? = some c →
    (P' q).nodeType = .internal ∧ (P' q).children.head? = some c
  chain : ∀ p l, LeafChain AnyBinding P p l → ∃ l', LeafChain AnyBinding P' p l' ∧ l.Sublist l' ∧
    ∀ q ∈ l, ∀ key ∈ (P q).keys, ∃ q' ∈ l', key ∈ (P' q').keys

theorem ChainStep.refl (P : Nat → Node K V) : ChainStep P P :=
  ⟨.refl P, fun _ _ h h' ↦ ⟨h, h'⟩, fun _ l hl ↦ ⟨l, hl, .refl l, fun q hq _ hkey ↦ ⟨q, hq, hkey⟩⟩⟩

theorem ChainStep.trans (h₁ : ChainStep P P₁) (h₂ : ChainStep P₁ P₂) : ChainStep P P₂ where
  preserves := h₁.preserves.trans h₂.preserves
  heads q c hint hc := h₂.heads q c (h₁.heads q c hint hc).1 (h₁.heads q c hint hc).2
  chain p l hl := by
    obtain ⟨l₁, hl₁, hsub₁, hkeys₁⟩ := h₁.chain p l hl
    obtain ⟨l₂, hl₂, hsub₂, hkeys₂⟩ := h₂.chain p l₁ hl₁
    refine ⟨l₂, hl₂, hsub₁.trans hsub₂, fun q hq key hkey ↦ ?_⟩
    obtain ⟨q₁, hq₁, hkey₁⟩ := hkeys₁ q hq key hkey
    exact hkeys₂ q₁ hq₁ key hkey₁

/-- The first child of an internal node of a tree. -/
theorem WellFormed.head_children {R : K → V → Prop} {h p : Nat} (hp : WellFormed R P (h + 1) p) :
    ∃ c, (P p).children.head? = some c ∧ c ∈ (P p).children := by
  rcases hch : (P p).children with _ | ⟨c, cs⟩
  · have := hp.1.length_eq
    rw [hch] at this
    cases this
  · exact ⟨c, rfl, List.mem_cons_self⟩

omit [LinearOrder K] in
theorem firstLeaf_succ {h p c : Nat} (hc : (P p).children.head? = some c) :
    firstLeaf P (h + 1) p = firstLeaf P h c := by
  rw [firstLeaf]
  rcases hch : (P p).children with _ | ⟨d, ds⟩
  · rw [hch] at hc
    cases hc
  · rw [hch] at hc
    exact congrArg _ (Option.some.inj hc)

/-- The descent ends where it ended when first children stay. -/
theorem ChainStep.firstLeaf_eq (h : ChainStep P P') {i p : Nat}
    (hp : WellFormed AnyBinding P i p) : firstLeaf P' i p = firstLeaf P i p := by
  induction i generalizing p with
  | zero => rfl
  | succ i ih =>
    obtain ⟨c, hc, hmem⟩ := hp.head_children
    rw [firstLeaf_succ hc, firstLeaf_succ (h.heads p c hp.1.isInternal hc).2]
    exact ih (hp.2 c hmem).2

/-! ### The page writes -/

section Update

variable {q : Nat} {n : Node K V}

/-- The nodes of a chain do not change with a page that is no leaf. -/
theorem LeafChain.update_eq {R : K → V → Prop} (hq : (P q).nodeType ≠ .leaf) {p : Nat} {l : List Nat}
    (hl : LeafChain R P p l) : ∀ r ∈ l, Function.update P q n r = P r := by
  intro r hr
  obtain ⟨l', hl', -⟩ := hl.exists_of_mem r hr
  have hleaf := hl'.leafOk.shape.isLeaf
  refine Function.update_of_ne (fun e ↦ ?_) _ _
  rw [e] at hleaf
  exact hq hleaf

/-- A page that is not in use can be given any content. -/
theorem chainStep_blank (hq : P q = .newInternal) : ChainStep P (Function.update P q n) := by
  have hnot : (P q).nodeType ≠ .leaf := by
    rw [hq]
    exact nofun
  refine ⟨preserves_update_blank hq, fun r c hint hc ↦ ?_, fun p l hl ↦
    ⟨l, hl.update_of_not_leaf hnot, .refl l, fun r hr key hkey ↦ ⟨r, hr, ?_⟩⟩⟩
  · have hne : r ≠ q := fun e ↦ by
      rw [e, hq] at hc
      cases hc
    rw [Function.update_of_ne hne]
    exact ⟨hint, hc⟩
  · rwa [hl.update_eq hnot r hr]

/-- A leaf can be given more keys under the same link. -/
theorem chainStep_leaf (hq : (P q).LeafShape) (hn : n.LeafShape)
    (hnext : n.nextLeaf = (P q).nextLeaf) (hkeys : ∀ key ∈ (P q).keys, key ∈ n.keys) :
    ChainStep P (Function.update P q n) := by
  have hok : LeafOk AnyBinding n := ⟨hn, fun _ _ ↦ trivial⟩
  refine ⟨preserves_update_leaf hq.isLeaf hok hnext, fun r c hint hc ↦ ?_, fun p l hl ↦
    ⟨l, hl.update_leaf hok hnext, .refl l, fun r hr key hkey ↦ ⟨r, hr, ?_⟩⟩⟩
  · have hne : r ≠ q := fun e ↦ by
      rw [e, hq.isLeaf] at hint
      cases hint
    rw [Function.update_of_ne hne]
    exact ⟨hint, hc⟩
  · by_cases hrq : r = q
    · rw [hrq] at hkey ⊢
      rw [Function.update_self]
      exact hkeys key hkey
    · rwa [Function.update_of_ne hrq]

/-- An internal node can be given other children of the same height, behind the same first one. -/
theorem chainStep_internal {h : Nat} (hq : WellFormed AnyBinding P (h + 1) q) (hn : n.InternalShape)
    (hchildren : ∀ c ∈ n.children, c ≠ 0 ∧ WellFormed AnyBinding P h c)
    (hhead : n.children.head? = (P q).children.head?) : ChainStep P (Function.update P q n) := by
  have hnot : (P q).nodeType ≠ .leaf := by
    rw [hq.1.isInternal]
    exact nofun
  refine ⟨preserves_update_internal hq hn hchildren, fun r c hint hc ↦ ?_, fun p l hl ↦
    ⟨l, hl.update_of_not_leaf hnot, .refl l, fun r hr key hkey ↦ ⟨r, hr, ?_⟩⟩⟩
  · by_cases hrq : r = q
    · rw [hrq, Function.update_self]
      rw [hrq] at hc
      exact ⟨hn.isInternal, hhead.trans hc⟩
    · rw [Function.update_of_ne hrq]
      exact ⟨hint, hc⟩
  · rwa [hl.update_eq hnot r hr]

/-- A leaf can hand its upper keys to a new leaf, which goes on where the leaf went. -/
theorem chainStep_splitLeaf {r : Nat} (hq : (P q).LeafShape) (hr : (P r).LeafShape) (hr0 : r ≠ 0)
    (hrq : r ≠ q) (hlink : (P r).nextLeaf = (P q).nextLeaf) (hn : n.LeafShape)
    (hnext : n.nextLeaf = some r)
    (hkeys : ∀ key ∈ (P q).keys, key ∈ n.keys ∨ key ∈ (P r).keys) :
    ChainStep P (Function.update P q n) := by
  have hself : Function.update P q n q = n := Function.update_self _ _ _
  have hother : ∀ {p : Nat}, p ≠ q → Function.update P q n p = P p :=
    fun hp ↦ Function.update_of_ne hp _ _
  have hokn : LeafOk AnyBinding (Function.update P q n q) := by
    rw [hself]
    exact ⟨hn, fun _ _ ↦ trivial⟩
  have hokr : LeafOk AnyBinding (Function.update P q n r) := by
    rw [hother hrq]
    exact ⟨hr, fun _ _ ↦ trivial⟩
  have hnextn : (Function.update P q n q).nextLeaf = some r := by rw [hself, hnext]
  have hchain : ∀ p l, LeafChain AnyBinding P p l →
      ∃ l', LeafChain AnyBinding (Function.update P q n) p l' ∧ l.Sublist l' ∧
        ∀ x ∈ l, ∀ key ∈ (P x).keys, ∃ x' ∈ l', key ∈ (Function.update P q n x').keys := by
    intro p l hl
    induction hl with
    | @last p hok hnone =>
      by_cases hpq : p = q
      · subst hpq
        have hlast : LeafChain AnyBinding (Function.update P p n) r [r] :=
          .last hokr (by rw [hother hrq, hlink, hnone])
        refine ⟨[p, r], .next hokn hnextn hr0 hlast, (List.sublist_cons_self r []).cons_cons p,
          fun x hx key hkey ↦ ?_⟩
        rw [List.mem_singleton.1 hx] at hkey
        rcases hkeys key hkey with hkey | hkey
        · exact ⟨p, List.mem_cons_self, by rwa [hself]⟩
        · exact ⟨r, by simp, by rwa [hother hrq]⟩
      · refine ⟨[p], .last (by rwa [hother hpq]) (by rwa [hother hpq]), .refl _,
          fun x hx key hkey ↦ ⟨p, List.mem_cons_self, ?_⟩⟩
        rw [List.mem_singleton.1 hx] at hkey
        rwa [hother hpq]
    | @next p x l hok hsome hx _ ih =>
      obtain ⟨l', hl', hsub, hkeys'⟩ := ih
      by_cases hpq : p = q
      · subst hpq
        have hnew : LeafChain AnyBinding (Function.update P p n) r (r :: l') :=
          .next hokr (by rw [hother hrq, hlink, hsome]) hx hl'
        refine ⟨p :: r :: l', .next hokn hnextn hr0 hnew, (hsub.cons r).cons_cons p,
          fun y hy key hkey ↦ ?_⟩
        rcases List.mem_cons.1 hy with rfl | hy
        · rcases hkeys key hkey with hkey | hkey
          · exact ⟨y, List.mem_cons_self, by rwa [hself]⟩
          · exact ⟨r, by simp, by rwa [hother hrq]⟩
        · obtain ⟨y', hy', hkey'⟩ := hkeys' y hy key hkey
          exact ⟨y', List.mem_cons_of_mem _ (List.mem_cons_of_mem _ hy'), hkey'⟩
      · refine ⟨p :: l', .next (by rwa [hother hpq]) (by rwa [hother hpq]) hx hl', hsub.cons_cons p,
          fun y hy key hkey ↦ ?_⟩
        rcases List.mem_cons.1 hy with rfl | hy
        · exact ⟨y, List.mem_cons_self, by rwa [hother hpq]⟩
        · obtain ⟨y', hy', hkey'⟩ := hkeys' y hy key hkey
          exact ⟨y', List.mem_cons_of_mem _ hy', hkey'⟩
  have hinternal : ∀ p, (P p).nodeType = .internal → p ≠ q := fun p hp e ↦ by
    rw [e, hq.isLeaf] at hp
    cases hp
  refine ⟨preserves_of_chains (fun p l hl ↦ (hchain p l hl).imp fun _ h ↦ h.1) fun p hp ↦
    hother (hinternal p hp.isInternal), fun p c hint hc ↦ ?_, hchain⟩
  rw [hother (hinternal p hint)]
  exact ⟨hint, hc⟩

end Update

/-- The second write of a split: the lower half over the node, when the upper half is in place. -/
theorem chainStep_splitLeft {h c n : Nat} {m : K} (hc : WellFormed AnyBinding P h c)
    (hm : (P c).midKey? = some m) (hn : P n = .newInternal) (hn0 : n ≠ 0) :
    ChainStep (Function.update P n (P c).splitRight) (splitPages P n c) := by
  have hcn : c ≠ n := fun e ↦ not_wellFormed_blank (e ▸ hn) hc
  have hself : Function.update P n (P c).splitRight c = P c := Function.update_of_ne hcn _ _
  have hnew : Function.update P n (P c).splitRight n = (P c).splitRight := Function.update_self _ _ _
  have hpres : Preserves AnyBinding P (Function.update P n (P c).splitRight) :=
    preserves_update_blank hn
  rw [splitPages]
  cases h with
  | zero =>
    have hleaf := hc.leafOk.shape
    refine chainStep_splitLeaf (r := n) (by rwa [hself]) (by rw [hnew]; exact hleaf.splitRight) hn0
      hcn.symm ?_
      (hleaf.splitLeft n) (by rw [hleaf.splitLeft_eq]) fun key hkey ↦ ?_
    · rw [hnew, hself, hleaf.splitRight_eq]
    · rw [hself] at hkey
      rw [hnew, hleaf.splitLeft_eq, hleaf.splitRight_eq, ← List.mem_append, List.take_append_drop]
      exact hkey
  | succ h =>
    refine chainStep_internal (hpres _ _ hc) (hc.1.splitLeft hm n) (fun d hd ↦ ?_) ?_
    · rw [hc.1.splitLeft_eq] at hd
      have hd := hc.2 d (List.mem_of_mem_take hd)
      exact ⟨hd.1, hpres _ _ hd.2⟩
    · obtain ⟨d, hd, -⟩ := hc.head_children
      rw [hself, hc.1.splitLeft_eq]
      rcases hch : (P c).children with _ | ⟨x, xs⟩
      · rw [hch] at hd
        cases hd
      · rfl

/-! ### The insertion -/

section Insert

variable [ByteLen K] [ByteLen V] {bs : BinarySearch K} {k : K} {v : V}

/-- The pages of a tree after some page writes. -/
structure Advances (t t' : BPlusTree K V) : Prop where
  sized : t'.pager.Sized
  count_le : t.pager.pageCount ≤ t'.pager.pageCount
  step : ChainStep t.pager.pages t'.pager.pages

omit [ByteLen K] [ByteLen V] in
theorem Advances.trans {t₁ t₂ t₃ : BPlusTree K V} (h₁ : Advances t₁ t₂) (h₂ : Advances t₂ t₃) :
    Advances t₁ t₃ :=
  ⟨h₂.sized, h₁.count_le.trans h₂.count_le, h₁.step.trans h₂.step⟩

/-- Splitting a child. -/
theorem gwp_splitChild_chain {Q : Node K V → BPlusTree K V → Prop} {t : BPlusTree K V}
    (ht : t.pager.Sized) {parent : Node K V} {i h c : Nat}
    (hc : WellFormed AnyBinding t.pager.pages h c) (hfull : (t.pager.pages c).isFull)
    (hi : i ≤ parent.keys.length ∧ i + 1 ≤ parent.children.length)
    (hQ : ∀ (m : K) (q : Nat) (t' : BPlusTree K V), Advances t t' → q ≠ 0 →
      WellFormed AnyBinding t'.pager.pages h q →
      Q { parent with
          keys := parent.keys.insertIdx i m
          children := parent.children.insertIdx (i + 1) q } t') :
    (pagerDevice K V).gwp PagesBelow (onPages ChainStep) (splitChild parent i c) Q
      (fun _ _ ↦ True) t := by
  obtain ⟨⟨m, hm⟩, hcan⟩ := hc.exists_midKey hfull
  have hblank := ht.blank t.pager.pageCount le_rfl
  have hright : ChainStep t.pager.pages
      (Function.update t.pager.pages t.pager.pageCount (t.pager.pages c).splitRight) :=
    chainStep_blank hblank
  have hleft := chainStep_splitLeft hc hm hblank ht.pos.ne'
  refine gwp_splitChild ht (lt_pageCount_of_wellFormed ht hc) hm hcan hi
    ⟨.refl _, hright, hleft⟩ (fun t' ht' hpages hcount ↦ ?_) fun _ _ _ _ _ _ _ ↦ trivial
  refine hQ m _ t' ⟨ht', by omega, ?_⟩ ht.pos.ne' ?_
  · rw [hpages]
    exact hright.trans hleft
  · rw [hpages]
    exact (hc.split hm hblank ht.pos.ne').2

/-- **Descent.** Every page write of an insertion below a page keeps the leaf chain. -/
theorem gwp_insertNonFull_chain {fuel : Nat} : ∀ {t : BPlusTree K V} {h q : Nat}, t.pager.Sized →
    WellFormed AnyBinding t.pager.pages h q → h < fuel →
    (pagerDevice K V).gwp PagesBelow (onPages ChainStep)
      (insertNonFull bs fuel q (t.pager.pages q) k v) (fun _ t' ↦ Advances t t')
      (fun _ _ ↦ True) t := by
  induction fuel with
  | zero => exact fun _ _ h ↦ absurd h (Nat.not_lt_zero _)
  | succ fuel ih =>
    intro t h q ht hq hfuel
    cases h with
    | zero =>
      have hleaf := hq.leafOk.shape
      have hput : ∀ n' : Node K V, n'.LeafShape →
          n'.entries = SortedAssoc.upsert k v (t.pager.pages q).entries →
          n'.nextLeaf = (t.pager.pages q).nextLeaf →
          ChainStep t.pager.pages (Function.update t.pager.pages q n') := by
        intro n' hn' hentries hnext
        refine chainStep_leaf hleaf hn' hnext fun key hkey ↦ ?_
        rw [← map_fst_entries hn', hentries, SortedAssoc.mem_keys_upsert, map_fst_entries hleaf]
        exact Or.inr hkey
      simp only [insertNonFull, hleaf.isLeaf]
      exact gwp_insertLeaf bs ht (lt_pageCount_of_wellFormed ht hq) hleaf k v hput
        (fun n' t' hn' hentries hnext ht' hpages hcount ↦
          ⟨ht', hcount.ge, hpages ▸ hput n' hn' hentries hnext⟩) fun _ _ ↦ trivial
    | succ h =>
      simp only [insertNonFull, hq.1.isInternal]
      have hlen := hq.1.length_eq
      have hi : childIndex bs (t.pager.pages q) k < (t.pager.pages q).children.length :=
        childIndex_lt bs (by omega) k
      generalize childIndex bs (t.pager.pages q) k = i at hi ⊢
      simp only [List.getElem?_eq_getElem hi]
      obtain ⟨hc0, hc⟩ := hq.2 _ (List.getElem_mem hi)
      generalize hci : (t.pager.pages q).children[i] = c at hc0 hc ⊢
      obtain ⟨c₀, hhead, -⟩ := hq.head_children
      -- the descent into a child, followed by the save of the node, whose first child stays
      have hdescend : ∀ {t₁ : BPlusTree K V} {n : Node K V} {d : Nat}, Advances t t₁ →
          n.InternalShape → n.children.head? = some c₀ →
          (∀ d ∈ n.children, d ≠ 0 ∧ WellFormed AnyBinding t₁.pager.pages h d) →
          WellFormed AnyBinding t₁.pager.pages h d →
          (pagerDevice K V).gwp PagesBelow (onPages ChainStep)
            (insertNonFull bs fuel d (t₁.pager.pages d) k v >>= fun _ ↦ saveNode q n)
            (fun _ t' ↦ Advances t t') (fun _ _ ↦ True) t₁ := by
        intro t₁ n d h₁ hn hhead₁ hchildren hd
        refine Device.gwp_bind guard_pagesBelow (Device.gwp_mono (ih h₁.sized hd (by omega))
          (fun _ _ ↦ id) (fun _ t₂ _ h₁₂ ↦ ?_) fun _ _ _ _ ↦ trivial)
        have h₂ := h₁.trans h₁₂
        have hq₂ := h₂.step.preserves _ _ hq
        have hsave : ChainStep t₂.pager.pages (Function.update t₂.pager.pages q n) :=
          chainStep_internal hq₂ hn
            (fun d hd ↦ ⟨(hchildren d hd).1, h₁₂.step.preserves _ _ (hchildren d hd).2⟩)
            (hhead₁.trans (h₂.step.heads q c₀ hq.1.isInternal hhead).2.symm)
        exact gwp_saveNode h₂.sized (lt_pageCount_of_wellFormed h₂.sized hq₂) n hsave
          (fun t₃ ht₃ hpages₃ hcount₃ ↦
            h₂.trans ⟨ht₃, hcount₃.ge, hpages₃ ▸ hsave⟩) fun _ _ _ ↦ trivial
      refine Device.gwp_read ?_
      show (pagerDevice K V).gwp PagesBelow _
        (if (t.pager.pages c).isFull then _ else _) _ _ t
      split
      · rename_i hfull
        refine Device.gwp_bind guard_pagesBelow (gwp_splitChild_chain ht hc hfull
          ⟨by omega, by omega⟩ fun m r t₁ h₁ hr0 hr ↦ ?_)
        have hn := hq.1.insert (i := i) (by omega) m r
        have hchildren : ∀ d ∈ (t.pager.pages q).children.insertIdx (i + 1) r,
            d ≠ 0 ∧ WellFormed AnyBinding t₁.pager.pages h d := by
          intro d hd
          rcases List.eq_or_mem_of_mem_insertIdx hd with rfl | hd
          · exact ⟨hr0, hr⟩
          · exact ⟨(hq.2 d hd).1, h₁.step.preserves _ _ (hq.2 d hd).2⟩
        have hhead₁ : ((t.pager.pages q).children.insertIdx (i + 1) r).head? = some c₀ := by
          rcases hch : (t.pager.pages q).children with _ | ⟨x, xs⟩
          · rw [hch] at hhead
            cases hhead
          · rw [hch] at hhead
            exact hhead
        have hkey : ((t.pager.pages q).keys.insertIdx i m)[i]? = some m := by
          rw [List.getElem?_insertIdx_self, if_pos (by omega)]
        have hlen' : ((t.pager.pages q).children.insertIdx (i + 1) r).length =
            (t.pager.pages q).children.length + 1 :=
          List.length_insertIdx_of_le_length (by omega) _
        simp only [hkey]
        have hside : (if m < k then i + 1 else i) <
            ((t.pager.pages q).children.insertIdx (i + 1) r).length := by
          split <;> omega
        simp only [List.getElem?_eq_getElem hside]
        exact Device.gwp_read (hdescend h₁ hn hhead₁ hchildren
          (hchildren _ (List.getElem_mem hside)).2)
      · exact hdescend ⟨ht, le_rfl, .refl _⟩ hq.1 hhead hq.2 hc

end Insert

/-! ### The new root -/

/-- What every page write keeps for scans, unless it turns a leaf at the root into an internal node:
the descent from a page ends where it ended, and every chain goes on with all its keys. -/
structure WalkStep (P P' : Nat → Node K V) : Prop where
  keeps : ∀ h p, WellFormed AnyBinding P h p → ∃ h', h ≤ h' ∧ (p ≠ rootPageId → h' = h) ∧
    WellFormed AnyBinding P' h' p ∧ firstLeaf P' h' p = firstLeaf P h p
  chain : ∀ p l, LeafChain AnyBinding P p l → ∃ l', LeafChain AnyBinding P' p l' ∧ l.Sublist l' ∧
    ∀ q ∈ l, ∀ key ∈ (P q).keys, ∃ q' ∈ l', key ∈ (P' q').keys

theorem ChainStep.walkStep (h : ChainStep P P') : WalkStep P P' :=
  ⟨fun i p hp ↦ ⟨i, le_rfl, fun _ ↦ rfl, h.preserves i p hp, h.firstLeaf_eq hp⟩, h.chain⟩

theorem WalkStep.refl (P : Nat → Node K V) : WalkStep P P := (ChainStep.refl P).walkStep

/-- The descent from a page away from the root does not pass through the root. -/
theorem firstLeaf_update_root {n : Node K V} {h p : Nat} (hp : WellFormed AnyBinding P h p)
    (h0 : p ≠ rootPageId) : firstLeaf (Function.update P rootPageId n) h p = firstLeaf P h p := by
  induction h generalizing p with
  | zero => rfl
  | succ h ih =>
    obtain ⟨c, hc, hmem⟩ := hp.head_children
    rw [firstLeaf_succ hc, firstLeaf_succ (c := c) (by rwa [Function.update_of_ne h0])]
    exact ih (hp.2 c hmem).2 (hp.2 c hmem).1

/-- A new root over two subtrees of one height. -/
theorem wellFormed_newRoot {h a b : Nat} {m : K} (ha0 : a ≠ 0) (ha : WellFormed AnyBinding P h a)
    (hb0 : b ≠ 0) (hb : WellFormed AnyBinding P h b) : WellFormed AnyBinding
      (Function.update P rootPageId ⟨.internal, [m], [a, b], [], none⟩) (h + 1) rootPageId := by
  rw [WellFormed, Function.update_self]
  refine ⟨⟨rfl, rfl, rfl, rfl⟩, fun c hc ↦ ?_⟩
  rcases List.mem_cons.1 hc with rfl | hc
  · exact ⟨ha0, ha.update_root ha0⟩
  · rw [List.mem_singleton.1 hc]
    exact ⟨hb0, hb.update_root hb0⟩

/-- A new root over two nodes of the height of the old one, the first of which begins like it. -/
theorem walkStep_newRoot {h a b : Nat} {m : K} (hroot : WellFormed AnyBinding P (h + 1) rootPageId)
    (ha0 : a ≠ 0) (ha : WellFormed AnyBinding P (h + 1) a) (hb0 : b ≠ 0)
    (hb : WellFormed AnyBinding P (h + 1) b)
    (hhead : (P a).children.head? = (P rootPageId).children.head?) :
    WalkStep P (Function.update P rootPageId ⟨.internal, [m], [a, b], [], none⟩) := by
  have hnot : (P rootPageId).nodeType ≠ .leaf := by
    rw [hroot.1.isInternal]
    exact nofun
  refine ⟨fun i p hp ↦ ?_, fun p l hl ↦
    ⟨l, hl.update_of_not_leaf hnot, .refl l, fun q hq key hkey ↦ ⟨q, hq, ?_⟩⟩⟩
  · by_cases hp0 : p = rootPageId
    · subst hp0
      obtain rfl := hroot.height_unique hp
      refine ⟨h + 2, Nat.le_succ _, fun h ↦ absurd rfl h, wellFormed_newRoot ha0 ha hb0 hb, ?_⟩
      obtain ⟨c, hc, -⟩ := hroot.head_children
      rw [firstLeaf_succ (c := a) (by rw [Function.update_self]; rfl),
        firstLeaf_update_root ha ha0, firstLeaf_succ hc, firstLeaf_succ (hhead.trans hc)]
    · exact ⟨i, le_rfl, fun _ ↦ rfl, hp.update_root hp0, firstLeaf_update_root hp hp0⟩
  · rwa [hl.update_eq hnot q hq]

namespace BPlusTree

variable [ByteLen K] [ByteLen V]

/-- The root is a leaf that the next insertion splits. -/
def RootIsFullLeaf (t : BPlusTree K V) : Prop :=
  (t.pager.pages rootPageId).nodeType = .leaf ∧ (t.pager.pages rootPageId).isFull

instance (t : BPlusTree K V) : Decidable t.RootIsFullLeaf := inferInstanceAs (Decidable (_ ∧ _))

end BPlusTree

variable [ByteLen K] [ByteLen V] {bs : BinarySearch K} {k : K} {v : V} {t : BPlusTree K V} {h : Nat}

/-- Splitting an internal root. -/
theorem gwp_splitRoot_walk (ht : t.pager.Sized)
    (hroot : WellFormed AnyBinding t.pager.pages (h + 1) rootPageId)
    (hfull : (t.pager.pages rootPageId).isFull) :
    (pagerDevice K V).gwp PagesBelow (onPages WalkStep) (splitRoot (t.pager.pages rootPageId))
      (fun _ t' ↦ t'.pager.Sized ∧ WellFormed AnyBinding t'.pager.pages (h + 2) rootPageId)
      (fun _ _ ↦ True) t := by
  obtain ⟨c, hhead, -⟩ := hroot.head_children
  have hint := hroot.1.isInternal
  have hblank := ht.blank t.pager.pageCount le_rfl
  have hpos : rootPageId < t.pager.pageCount := ht.pos
  have hcopy : ChainStep t.pager.pages (Function.update t.pager.pages t.pager.pageCount
      (t.pager.pages rootPageId)) := chainStep_blank hblank
  have hroot₂ := hroot.copy hblank
  refine Device.gwp_bind guard_pagesBelow (gwp_allocatePage ht (.refl _)
    fun t₁ ht₁ hpages₁ hcount₁ ↦ ?_)
  refine Device.gwp_bind guard_pagesBelow (gwp_saveNode ht₁ (by omega) _
    (hpages₁.symm ▸ hcopy.walkStep) (fun t₂ ht₂ hpages₂ hcount₂ ↦ ?_) fun _ _ _ ↦ trivial)
  rw [hpages₁] at hpages₂
  rw [← hpages₂] at hcopy hroot₂
  have hself : t₂.pager.pages t.pager.pageCount = t.pager.pages rootPageId := by
    rw [hpages₂, Function.update_self]
  refine Device.gwp_bind guard_pagesBelow (Device.gwp_mono (gwp_splitChild_chain ht₂ hroot₂
    (hself ▸ hfull) ⟨le_rfl, le_rfl⟩ (Q := fun n t₃ ↦ ∃ m q, Advances t₂ t₃ ∧ q ≠ 0 ∧
      WellFormed AnyBinding t₃.pager.pages (h + 1) q ∧
      n = ⟨.internal, [m], [t.pager.pageCount, q], [], none⟩)
    fun m q t₃ h₃ hq0 hq ↦ ⟨m, q, h₃, hq0, hq, rfl⟩) (fun _ _ h ↦ ChainStep.walkStep h)
    (fun n t₃ _ h ↦ ?_) fun _ _ _ _ ↦ trivial)
  obtain ⟨m, q, h₃, hq0, hq, rfl⟩ := h
  have hleft := h₃.step.preserves _ _ hroot₂
  have hroot₃ := h₃.step.preserves _ _ (hcopy.preserves _ _ hroot)
  have hhead₂ := hcopy.heads _ _ hint hhead
  have hhead₃ := h₃.step.heads _ _ hhead₂.1 hhead₂.2
  have hhead₃' := h₃.step.heads t.pager.pageCount c (hself ▸ hint) (hself ▸ hhead)
  have hnew := walkStep_newRoot (m := m) hroot₃ ht.pos.ne' hleft hq0 hq
    (hhead₃'.2.trans hhead₃.2.symm)
  refine gwp_saveNode h₃.sized (by have := h₃.count_le; omega) _ hnew
    (fun t₄ ht₄ hpages₄ hcount₄ ↦ ⟨ht₄, ?_⟩) fun _ _ _ ↦ trivial
  rw [hpages₄]
  exact wellFormed_newRoot ht.pos.ne' hleft hq0 hq

variable (bs k v) in
/-- **Every page write of an insertion** keeps what scans rely on, unless the root is a leaf and is
split. -/
theorem gwp_insertProgram_walk (ht : t.pager.Sized)
    (hroot : WellFormed AnyBinding t.pager.pages h rootPageId) (hnot : ¬ t.RootIsFullLeaf) :
    (pagerDevice K V).gwp PagesBelow (onPages WalkStep) (insertProgram bs t.fuel k v)
      (fun _ _ ↦ True) (fun _ _ ↦ True) t := by
  have hheight : h < t.pager.pageCount := hroot.height_lt ht.blank
  refine Device.gwp_read ?_
  show (pagerDevice K V).gwp PagesBelow _
    (if (t.pager.pages rootPageId).isFull then _ else _) _ _ t
  split
  · rename_i hfull
    cases h with
    | zero => exact absurd ⟨hroot.leafOk.shape.isLeaf, hfull⟩ hnot
    | succ h =>
      refine Device.gwp_bind guard_pagesBelow (Device.gwp_mono (gwp_splitRoot_walk ht hroot hfull)
        (fun _ _ ↦ id) (fun _ t₁ _ h₁ ↦ ?_) fun _ _ _ _ ↦ trivial)
      exact Device.gwp_read (Device.gwp_mono (gwp_insertNonFull_chain h₁.1 h₁.2
        (Nat.succ_lt_succ hheight)) (fun _ _ h ↦ ChainStep.walkStep h) (fun _ _ _ _ ↦ trivial)
        fun _ _ _ _ ↦ trivial)
  · exact Device.gwp_mono (gwp_insertNonFull_chain ht hroot (Nat.lt_succ_of_lt hheight))
      (fun _ _ h ↦ ChainStep.walkStep h) (fun _ _ _ _ ↦ trivial) fun _ _ _ _ ↦ trivial

end KsSql
