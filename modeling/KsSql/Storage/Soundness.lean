import KsSql.Storage.Routines
import Mathlib.Data.Fintype.EquivFin
import Mathlib.Data.Fintype.Fin

/-!
# Soundness of the page store

What holds of the pages whatever happened to them: after any sequence of insertions, including those
that were refused half way because a node did not fit its page or the queue was full, and left a
split child without a separator in its parent.

`WellFormed R P h p` says that page `p` is the root of a subtree of height `h`: leaves at the bottom,
internal nodes with one more child than keys above, and no way back to the root page. A leaf's chain
of right neighbours ends. `R` is a relation that every stored binding satisfies; it is the one thing
about the contents that survives a refused insertion. Each single page write preserves all of this
(`Preserves`), so the order in which a routine writes its pages never matters.

The results are that an insertion into a sound tree is done or refused, and leaves a sound tree
(`insert_sound`), and that a lookup never gets stuck (`getPages_sound`).
-/

namespace KsSql

open PageProgram

variable {K V : Type} [LinearOrder K] (R : K → V → Prop) {P : Nat → Node K V}

/-- A well-formed leaf whose bindings satisfy the relation. -/
structure LeafOk (n : Node K V) : Prop where
  shape : n.LeafShape
  entries : ∀ e ∈ n.entries, R e.1 e.2

/-- The chain of right neighbours that starts at a leaf and ends. The root page is no neighbour. -/
inductive LeafChain (P : Nat → Node K V) : Nat → List Nat → Prop
  | last {p : Nat} : LeafOk R (P p) → (P p).nextLeaf = none → LeafChain P p [p]
  | next {p q : Nat} {l : List Nat} : LeafOk R (P p) → (P p).nextLeaf = some q → q ≠ 0 →
      LeafChain P q l → LeafChain P p (p :: l)

/-- Page `p` is the root of a subtree of the given height. -/
def WellFormed (P : Nat → Node K V) : Nat → Nat → Prop
  | 0, p => ∃ l, LeafChain R P p l
  | h + 1, p => (P p).InternalShape ∧ ∀ c ∈ (P p).children, c ≠ 0 ∧ WellFormed P h c

/-- Every subtree is still one after a change of pages. -/
def Preserves (P P' : Nat → Node K V) : Prop := ∀ h p, WellFormed R P h p → WellFormed R P' h p

variable {R}

theorem Preserves.refl (P : Nat → Node K V) : Preserves R P P := fun _ _ h ↦ h

theorem Preserves.trans {P₁ P₂ P₃ : Nat → Node K V} (h₁ : Preserves R P₁ P₂)
    (h₂ : Preserves R P₂ P₃) : Preserves R P₁ P₃ := fun h p hp ↦ h₂ h p (h₁ h p hp)

/-! ### What a chain and a subtree look like -/

theorem LeafChain.leafOk {p : Nat} {l : List Nat} (h : LeafChain R P p l) : LeafOk R (P p) := by
  cases h <;> assumption

/-- Every page of a chain starts a chain that is no longer. -/
theorem LeafChain.exists_of_mem {p : Nat} {l : List Nat}
    (hl : LeafChain R P p l) : ∀ q ∈ l, ∃ l', LeafChain R P q l' ∧ l'.length ≤ l.length := by
  induction hl with
  | last hok hnone =>
    intro q hq
    obtain rfl := List.mem_singleton.1 hq
    exact ⟨_, .last hok hnone, le_rfl⟩
  | next hok hsome hr hl ih =>
    intro q hq
    rcases List.mem_cons.1 hq with rfl | hq
    · exact ⟨_, .next hok hsome hr hl, le_rfl⟩
    · obtain ⟨l', hl', hle⟩ := ih q hq
      exact ⟨l', hl', hle.trans (Nat.le_succ _)⟩

/-- A chain is determined by the page it starts at. -/
theorem LeafChain.unique {p : Nat} {l l' : List Nat}
    (hl : LeafChain R P p l) (hl' : LeafChain R P p l') : l = l' := by
  induction hl generalizing l' with
  | last hok hnone =>
    cases hl' with
    | last => rfl
    | next _ hsome => rw [hnone] at hsome; cases hsome
  | next hok hsome hr _ ih =>
    cases hl' with
    | last _ hnone => rw [hnone] at hsome; cases hsome
    | next _ hsome' _ hl' =>
      rw [hsome] at hsome'
      cases hsome'
      rw [ih hl']

/-- No page is met twice: it would start a chain shorter than itself. -/
theorem LeafChain.nodup {p : Nat} {l : List Nat}
    (hl : LeafChain R P p l) : l.Nodup := by
  induction hl with
  | last => exact List.nodup_singleton _
  | next hok hsome hr hl ih =>
    refine List.nodup_cons.2 ⟨fun hp ↦ ?_, ih⟩
    obtain ⟨l', hl', hle⟩ := hl.exists_of_mem _ hp
    obtain rfl := hl'.unique (.next hok hsome hr hl)
    exact absurd hle (Nat.not_succ_le_self _)

theorem LeafChain.head_mem {p : Nat} {l : List Nat}
    (hl : LeafChain R P p l) : p ∈ l := by
  cases hl <;> exact List.mem_cons_self

theorem WellFormed.leafOk {p : Nat} (h : WellFormed R P 0 p) : LeafOk R (P p) :=
  h.elim fun _ ↦ LeafChain.leafOk

theorem not_wellFormed_blank {h p : Nat} (hp : P p = .newInternal) : ¬ WellFormed R P h p := by
  intro hw
  cases h with
  | zero =>
    have := hw.leafOk.shape.isLeaf
    rw [hp] at this
    cases this
  | succ h =>
    have := hw.1.length_eq
    rw [hp] at this
    cases this

/-- A page is the root of subtrees of one height only. -/
theorem WellFormed.height_unique {h h' p : Nat} (hp : WellFormed R P h p)
    (hp' : WellFormed R P h' p) : h = h' := by
  induction h generalizing h' p with
  | zero =>
    cases h' with
    | zero => rfl
    | succ h' =>
      have := hp.leafOk.shape.isLeaf
      rw [hp'.1.isInternal] at this
      cases this
  | succ h ih =>
    cases h' with
    | zero =>
      have := hp'.leafOk.shape.isLeaf
      rw [hp.1.isInternal] at this
      cases this
    | succ h' =>
      obtain ⟨c, hc⟩ := List.exists_mem_of_length_pos (by
        have := hp.1.length_eq
        omega : 0 < (P p).children.length)
      rw [ih (hp.2 c hc).2 (hp'.2 c hc).2]

/-- Some page lies at each height up to the root's. -/
theorem WellFormed.exists_at {h p : Nat} (hp : WellFormed R P h p) :
    ∀ j ≤ h, ∃ q, WellFormed R P j q := by
  induction h generalizing p with
  | zero => exact fun j hj ↦ ⟨p, (Nat.le_zero.1 hj) ▸ hp⟩
  | succ h ih =>
    intro j hj
    rcases Nat.eq_or_lt_of_le hj with rfl | hj
    · exact ⟨p, hp⟩
    · obtain ⟨c, hc⟩ := List.exists_mem_of_length_pos (by
        have := hp.1.length_eq
        omega : 0 < (P p).children.length)
      exact ih (hp.2 c hc).2 j (Nat.le_of_lt_succ hj)

/-- A tree is lower than its file has pages: there is a page of its own at each height. -/
theorem WellFormed.height_lt {h p n : Nat} (hp : WellFormed R P h p)
    (hblank : ∀ q, n ≤ q → P q = .newInternal) : h < n := by
  choose f hf using hp.exists_at
  have hlt : ∀ j (hj : j ≤ h), f j hj < n := fun j hj ↦ by
    by_contra hge
    exact not_wellFormed_blank (hblank _ (not_lt.1 hge)) (hf j hj)
  let g : Fin (h + 1) → Fin n := fun j ↦ ⟨f j (Nat.le_of_lt_succ j.2), hlt _ _⟩
  have hg : Function.Injective g := by
    intro i j hij
    have heq : f i (Nat.le_of_lt_succ i.2) = f j (Nat.le_of_lt_succ j.2) := Fin.mk.inj_iff.1 hij
    exact Fin.ext ((hf i (Nat.le_of_lt_succ i.2)).height_unique
      (heq ▸ hf j (Nat.le_of_lt_succ j.2)))
  have := Fintype.card_le_of_injective g hg
  rw [Fintype.card_fin, Fintype.card_fin] at this
  omega

/-! ### Page writes that keep every subtree -/

/-- Subtrees carry over when chains do and internal nodes keep their pages. -/
theorem preserves_of_chains {P' : Nat → Node K V}
    (hchain : ∀ p l, LeafChain R P p l → ∃ l', LeafChain R P' p l')
    (hinternal : ∀ p, (P p).InternalShape → P' p = P p) : Preserves R P P' := by
  intro h
  induction h with
  | zero => exact fun p ⟨l, hl⟩ ↦ hchain p l hl
  | succ h ih =>
    intro p hp
    rw [WellFormed, hinternal p hp.1]
    exact ⟨hp.1, fun c hc ↦ ⟨(hp.2 c hc).1, ih c (hp.2 c hc).2⟩⟩

section Update

variable {q : Nat} {n : Node K V}

/-- A chain does not depend on a page that is no leaf. -/
theorem LeafChain.update_of_not_leaf (hq : (P q).nodeType ≠ .leaf) {p : Nat} {l : List Nat}
    (h : LeafChain R P p l) : LeafChain R (Function.update P q n) p l := by
  induction h with
  | @last p hok hnone =>
    have hpq : p ≠ q := fun e ↦ hq (e ▸ hok.shape.isLeaf)
    exact .last (by rwa [Function.update_of_ne hpq]) (by rwa [Function.update_of_ne hpq])
  | @next p r l hok hsome hr _ ih =>
    have hpq : p ≠ q := fun e ↦ hq (e ▸ hok.shape.isLeaf)
    exact .next (by rwa [Function.update_of_ne hpq]) (by rwa [Function.update_of_ne hpq]) hr ih

/-- A page that belongs to no subtree can be given any content. -/
theorem preserves_update_blank (hq : P q = .newInternal) : Preserves R P (Function.update P q n) := by
  refine preserves_of_chains
    (fun p l h ↦ ⟨l, h.update_of_not_leaf (by rw [hq]; exact nofun)⟩) fun p hp ↦ ?_
  refine Function.update_of_ne (fun e ↦ ?_) _ _
  have := hp.length_eq
  rw [e, hq] at this
  cases this

/-- A chain goes on as it did when a leaf gets another content under the same link. -/
theorem LeafChain.update_leaf (hn : LeafOk R n) (hnext : n.nextLeaf = (P q).nextLeaf) {p : Nat}
    {l : List Nat} (h : LeafChain R P p l) : LeafChain R (Function.update P q n) p l := by
  induction h with
  | @last p hok hnone =>
    by_cases hpq : p = q
    · subst hpq
      exact .last (by rwa [Function.update_self]) (by rwa [Function.update_self, hnext])
    · exact .last (by rwa [Function.update_of_ne hpq]) (by rwa [Function.update_of_ne hpq])
  | @next p r l hok hsome hr _ ih =>
    by_cases hpq : p = q
    · subst hpq
      exact .next (by rwa [Function.update_self]) (by rwa [Function.update_self, hnext]) hr ih
    · exact .next (by rwa [Function.update_of_ne hpq]) (by rwa [Function.update_of_ne hpq]) hr ih

/-- A leaf can be given another content under the same link. -/
theorem preserves_update_leaf (hleaf : (P q).nodeType = .leaf) (hn : LeafOk R n)
    (hnext : n.nextLeaf = (P q).nextLeaf) : Preserves R P (Function.update P q n) := by
  refine preserves_of_chains (fun p l h ↦ ⟨l, h.update_leaf hn hnext⟩) fun p hp ↦ ?_
  refine Function.update_of_ne (fun e ↦ ?_) _ _
  have := hp.isInternal
  rw [e, hleaf] at this
  cases this

/-- An internal node can be given other children of the same height. -/
theorem preserves_update_internal {h : Nat} (hq : WellFormed R P (h + 1) q) (hn : n.InternalShape)
    (hchildren : ∀ c ∈ n.children, c ≠ 0 ∧ WellFormed R P h c) :
    Preserves R P (Function.update P q n) := by
  intro h'
  induction h' with
  | zero =>
    rintro p ⟨l, hl⟩
    exact ⟨l, hl.update_of_not_leaf (by rw [hq.1.isInternal]; exact nofun)⟩
  | succ h' ih =>
    intro p hp
    by_cases hpq : p = q
    · subst hpq
      obtain rfl : h = h' := Nat.succ.inj (hq.height_unique hp)
      rw [WellFormed, Function.update_self]
      exact ⟨hn, fun c hc ↦ ⟨(hchildren c hc).1, ih c (hchildren c hc).2⟩⟩
    · rw [WellFormed, Function.update_of_ne hpq]
      exact ⟨hp.1, fun c hc ↦ ⟨(hp.2 c hc).1, ih c (hp.2 c hc).2⟩⟩

/-- No subtree but the root's contains the root page. -/
theorem WellFormed.update_root {h p : Nat} (hp : WellFormed R P h p) (h0 : p ≠ 0) :
    WellFormed R (Function.update P 0 n) h p := by
  induction h generalizing p with
  | zero =>
    obtain ⟨l, hl⟩ := hp
    refine ⟨l, ?_⟩
    induction hl with
    | last hok hnone =>
      exact .last (by rwa [Function.update_of_ne h0]) (by rwa [Function.update_of_ne h0])
    | next hok hsome hr _ ih =>
      exact .next (by rwa [Function.update_of_ne h0]) (by rwa [Function.update_of_ne h0]) hr (ih hr)
  | succ h ih =>
    rw [WellFormed, Function.update_of_ne h0]
    exact ⟨hp.1, fun c hc ↦ ⟨(hp.2 c hc).1, ih (hp.2 c hc).2 (hp.2 c hc).1⟩⟩

/-- A copy of a subtree's root is the root of a subtree. -/
theorem WellFormed.copy {h p : Nat} (hp : WellFormed R P h p) (hq : P q = .newInternal) :
    WellFormed R (Function.update P q (P p)) h q := by
  have hpres : Preserves R P (Function.update P q (P p)) := preserves_update_blank hq
  cases h with
  | zero =>
    obtain ⟨l, hl⟩ := hp
    cases hl with
    | last hok hnone =>
      exact ⟨[q], .last (by rwa [Function.update_self]) (by rwa [Function.update_self])⟩
    | next hok hsome hr hl =>
      exact ⟨_, .next (by rwa [Function.update_self]) (by rwa [Function.update_self]) hr
        (hl.update_of_not_leaf (by rw [hq]; exact nofun))⟩
  | succ h =>
    rw [WellFormed, Function.update_self]
    exact ⟨hp.1, fun c hc ↦ ⟨(hp.2 c hc).1, hpres h c (hp.2 c hc).2⟩⟩

end Update

/-! ### Splits -/

theorem LeafOk.splitLeft {n : Node K V} (hn : LeafOk R n) {m : K} (hm : n.midKey? = some m)
    (newId : Nat) : LeafOk R (n.splitLeft newId) := by
  obtain ⟨v, rest, -, heq⟩ := hn.shape.entries_split hm newId
  exact ⟨hn.shape.splitLeft newId, fun e he ↦ hn.entries e (heq ▸ List.mem_append_left _ he)⟩

theorem LeafOk.splitRight {n : Node K V} (hn : LeafOk R n) {m : K} (hm : n.midKey? = some m) :
    LeafOk R n.splitRight := by
  obtain ⟨v, rest, hright, heq⟩ := hn.shape.entries_split hm 0
  refine ⟨hn.shape.splitRight, fun e he ↦ hn.entries e ?_⟩
  rw [heq]
  exact List.mem_append_right _ (hright ▸ he)

/-- Both writes of a split keep every subtree, and the new page is the root of one, of the height of
the child that was split. -/
theorem WellFormed.split {h c q : Nat} {m : K} (hc : WellFormed R P h c)
    (hm : (P c).midKey? = some m) (hq : P q = .newInternal) (hq0 : q ≠ 0) :
    let P' := Function.update (Function.update P q (P c).splitRight) c ((P c).splitLeft q)
    Preserves R P P' ∧ WellFormed R P' h q := by
  intro P'
  have hcq : c ≠ q := fun e ↦ not_wellFormed_blank (e ▸ hq) hc
  have hpres₁ : Preserves R P (Function.update P q (P c).splitRight) := preserves_update_blank hq
  have hP'q : P' q = (P c).splitRight := by
    rw [show P' q = _ from Function.update_of_ne hcq.symm _ _, Function.update_self]
  have hP'c : P' c = (P c).splitLeft q := Function.update_self _ _ _
  have hP' : ∀ p, p ≠ c → p ≠ q → P' p = P p := fun p hpc hpq ↦ by
    rw [show P' p = _ from Function.update_of_ne hpc _ _, Function.update_of_ne hpq]
  cases h with
  | zero =>
    have hok := hc.leafOk
    have hleft : LeafOk R (P' c) := hP'c ▸ hok.splitLeft hm q
    have hright : LeafOk R (P' q) := hP'q ▸ hok.splitRight hm
    have hleftNext : (P' c).nextLeaf = some q := by rw [hP'c, hok.shape.splitLeft_eq]
    have hrightNext : (P' q).nextLeaf = (P c).nextLeaf := by rw [hP'q, hok.shape.splitRight_eq]
    -- a chain that passes through the child now goes on through the new page
    have hchain : ∀ p l, LeafChain R P p l →
        (∃ l', LeafChain R P' p l') ∧ (p = c → ∃ l', LeafChain R P' q l') := by
      intro p l hl
      induction hl with
      | @last p hokp hnone =>
        by_cases hpc : p = c
        · subst hpc
          have hlast : LeafChain R P' q [q] := .last hright (by rw [hrightNext, hnone])
          exact ⟨⟨_, .next hleft hleftNext hq0 hlast⟩, fun _ ↦ ⟨_, hlast⟩⟩
        · have hpq : p ≠ q := fun e ↦ by
            have := hokp.shape.isLeaf
            rw [e, hq] at this
            cases this
          exact ⟨⟨_, .last (by rwa [hP' p hpc hpq]) (by rwa [hP' p hpc hpq])⟩,
            fun e ↦ absurd e hpc⟩
      | @next p r l hokp hsome hr _ ih =>
        obtain ⟨⟨l', hl'⟩, -⟩ := ih
        by_cases hpc : p = c
        · subst hpc
          have hnext : LeafChain R P' q (q :: l') := .next hright (by rw [hrightNext, hsome]) hr hl'
          exact ⟨⟨_, .next hleft hleftNext hq0 hnext⟩, fun _ ↦ ⟨_, hnext⟩⟩
        · have hpq : p ≠ q := fun e ↦ by
            have := hokp.shape.isLeaf
            rw [e, hq] at this
            cases this
          exact ⟨⟨_, .next (by rwa [hP' p hpc hpq]) (by rwa [hP' p hpc hpq]) hr hl'⟩,
            fun e ↦ absurd e hpc⟩
    refine ⟨preserves_of_chains (fun p l hl ↦ (hchain p l hl).1) fun p hp ↦ hP' p ?_ ?_, ?_⟩
    · intro e
      have := hp.isInternal
      rw [e, hok.shape.isLeaf] at this
      cases this
    · intro e
      have := hp.length_eq
      rw [e, hq] at this
      cases this
    · obtain ⟨l, hl⟩ := hc
      exact (hchain c l hl).2 rfl
  | succ h =>
    have hc₁ := hpres₁ _ _ hc
    have hchild : ∀ d ∈ (P c).children, d ≠ 0 ∧
        WellFormed R (Function.update P q (P c).splitRight) h d :=
      fun d hd ↦ ⟨(hc.2 d hd).1, hpres₁ h d (hc.2 d hd).2⟩
    have hpres₂ : Preserves R (Function.update P q (P c).splitRight) P' := by
      refine preserves_update_internal hc₁ (hc.1.splitLeft hm q) fun d hd ↦ hchild d ?_
      rw [hc.1.splitLeft_eq] at hd
      exact List.mem_of_mem_take hd
    refine ⟨hpres₁.trans hpres₂, ?_⟩
    rw [WellFormed, hP'q]
    refine ⟨hc.1.splitRight hm, fun d hd ↦ ?_⟩
    rw [hc.1.splitRight_eq] at hd
    obtain ⟨hd0, hd⟩ := hchild d (List.mem_of_mem_drop hd)
    exact ⟨hd0, hpres₂ h d hd⟩

/-- A full node of a tree can be split. -/
theorem WellFormed.exists_midKey [ByteLen K] [ByteLen V] {h c : Nat} (hc : WellFormed R P h c)
    (hfull : (P c).isFull) : (∃ m, (P c).midKey? = some m) ∧ (P c).canSplit := by
  cases h with
  | zero =>
    have hs := hc.leafOk.shape
    exact ⟨hs.exists_midKey hfull, hs.canSplit⟩
  | succ h => exact ⟨hc.1.exists_midKey hfull, hc.1.canSplit⟩

/-! ### Insertions -/

namespace BPlusTree

/-- A change of the tree that keeps every subtree. -/
structure Extends (R : K → V → Prop) (t t' : BPlusTree K V) : Prop where
  sized : t'.pager.Sized
  count_le : t.pager.pageCount ≤ t'.pager.pageCount
  preserves : Preserves R t.pager.pages t'.pager.pages

theorem Extends.trans {t₁ t₂ t₃ : BPlusTree K V} (h₁ : Extends R t₁ t₂) (h₂ : Extends R t₂ t₃) :
    Extends R t₁ t₃ :=
  ⟨h₂.sized, h₁.count_le.trans h₂.count_le, h₁.preserves.trans h₂.preserves⟩

/-- A page that is the root of a subtree lies in the file. -/
theorem lt_pageCount_of_wellFormed {t : BPlusTree K V} (ht : t.pager.Sized) {h p : Nat}
    (hp : WellFormed R t.pager.pages h p) : p < t.pager.pageCount := by
  by_contra hge
  exact not_wellFormed_blank (ht.blank p (not_lt.1 hge)) hp

/-- A sound tree: a sized file whose root page is the root of a subtree. -/
structure Sound (R : K → V → Prop) (t : BPlusTree K V) : Prop where
  sized : t.pager.Sized
  root : ∃ h, WellFormed R t.pager.pages h rootPageId

theorem Sound.extends {t t' : BPlusTree K V} (ht : Sound R t) (h : Extends R t t') : Sound R t' :=
  ⟨h.sized, ht.root.imp fun _ hr ↦ h.preserves _ _ hr⟩

variable [ByteLen K] [ByteLen V] (bs : BinarySearch K) {t : BPlusTree K V}

/-- A node's new content may be written when it keeps every subtree. -/
theorem wp_saveNode_extends {Q : Unit → BPlusTree K V → Prop}
    {F : StorageError → BPlusTree K V → Prop} (ht : t.pager.Sized) {q : Nat}
    (hq : q < t.pager.pageCount) {n : Node K V}
    (hn : Preserves R t.pager.pages (Function.update t.pager.pages q n))
    (hQ : ∀ t' : BPlusTree K V, Extends R t t' →
      t'.pager.pages = Function.update t.pager.pages q n → Q () t')
    (hF : ∀ e, Refusal e → F e t) :
    (pagerDevice K V).wp PagesBelow (saveNode q n) Q F t :=
  wp_saveNode ht hq n (fun t' ht' hpages hcount ↦
    hQ t' ⟨ht', hcount.ge, hpages.symm ▸ hn⟩ hpages) hF

/-- Splitting a child keeps every subtree, and makes one more of the child's height. -/
theorem wp_splitChild_extends {Q : Node K V → BPlusTree K V → Prop}
    {F : StorageError → BPlusTree K V → Prop} (ht : t.pager.Sized) {parent : Node K V}
    {i h c : Nat} (hc : WellFormed R t.pager.pages h c) (hfull : (t.pager.pages c).isFull)
    (hi : i ≤ parent.keys.length ∧ i + 1 ≤ parent.children.length)
    (hQ : ∀ (m : K) (q : Nat) (t' : BPlusTree K V), Extends R t t' → q ≠ 0 →
      WellFormed R t'.pager.pages h q →
      Q { parent with
          keys := parent.keys.insertIdx i m
          children := parent.children.insertIdx (i + 1) q } t')
    (hF : ∀ e t', Refusal e → Extends R t t' → F e t') :
    (pagerDevice K V).wp PagesBelow (splitChild parent i c) Q F t := by
  obtain ⟨⟨m, hm⟩, hcan⟩ := hc.exists_midKey hfull
  have hblank := ht.blank t.pager.pageCount le_rfl
  obtain ⟨hpres, hnew⟩ := hc.split hm hblank ht.pos.ne'
  refine wp_splitChild ht (lt_pageCount_of_wellFormed ht hc) hm hcan hi
    (fun t' ht' hpages hcount ↦ ?_) fun e t' he ht' hcount hpages ↦ ?_
  · refine hQ m _ t' ⟨ht', by omega, ?_⟩ ht.pos.ne' ?_
    · rw [hpages]; exact hpres
    · rw [hpages]; exact hnew
  · refine hF e t' he ⟨ht', by omega, ?_⟩
    rcases hpages with hpages | hpages
    · rw [hpages]; exact .refl _
    · rw [hpages]; exact preserves_update_blank hblank

/-- **Descent.** With one step for each level of the subtree, an insertion below a page is done or
refused, and keeps every subtree. -/
theorem wp_insertNonFull_extends {key : K} {value : V} (hR : R key value) {fuel : Nat} :
    ∀ {t : BPlusTree K V} {h q : Nat}, t.pager.Sized → WellFormed R t.pager.pages h q → h < fuel →
      (pagerDevice K V).wp PagesBelow
        (insertNonFull bs fuel q (t.pager.pages q) key value)
        (fun _ t' ↦ Extends R t t') (fun e t' ↦ Refusal e ∧ Extends R t t') t := by
  induction fuel with
  | zero => exact fun _ _ h ↦ absurd h (Nat.not_lt_zero _)
  | succ fuel ih =>
    intro t h q ht hq hfuel
    have hself : Extends R t t := ⟨ht, le_rfl, .refl _⟩
    cases h with
    | zero =>
      have hok := hq.leafOk
      simp only [insertNonFull, hok.shape.isLeaf]
      refine wp_insertLeaf bs ht (lt_pageCount_of_wellFormed ht hq) hok.shape key value
        (fun n' t' hn' hentries hnext ht' hpages hcount ↦ ?_) fun e he ↦ ⟨he, hself⟩
      refine ⟨ht', hcount.ge, ?_⟩
      rw [hpages]
      refine preserves_update_leaf hok.shape.isLeaf ⟨hn', fun x hx ↦ ?_⟩ hnext
      rw [hentries] at hx
      rcases SortedAssoc.mem_upsert hx with rfl | hx
      · exact hR
      · exact hok.entries x hx
    | succ h =>
      simp only [insertNonFull, hq.1.isInternal]
      have hlen := hq.1.length_eq
      have hi : childIndex bs (t.pager.pages q) key < (t.pager.pages q).children.length :=
        childIndex_lt bs (by omega) key
      generalize childIndex bs (t.pager.pages q) key = i at hi ⊢
      simp only [List.getElem?_eq_getElem hi]
      obtain ⟨hc0, hc⟩ := hq.2 _ (List.getElem_mem hi)
      generalize hci : (t.pager.pages q).children[i] = c at hc0 hc ⊢
      -- what is saved at the end: the node with children of the right height
      have hsave : ∀ {t₁ : BPlusTree K V} {n : Node K V}, Extends R t t₁ → n.InternalShape →
          (∀ d ∈ n.children, d ≠ 0 ∧ WellFormed R t₁.pager.pages h d) →
          (pagerDevice K V).wp PagesBelow (saveNode q n)
            (fun _ t' ↦ Extends R t t') (fun e t' ↦ Refusal e ∧ Extends R t t') t₁ := by
        intro t₁ n h₁ hn hchildren
        have hq₁ := h₁.preserves _ _ hq
        exact wp_saveNode_extends h₁.sized (lt_pageCount_of_wellFormed h₁.sized hq₁)
          (preserves_update_internal hq₁ hn hchildren) (fun t' h' _ ↦ h₁.trans h')
          fun e he ↦ ⟨he, h₁⟩
      -- the descent into a child, followed by the save
      have hdescend : ∀ {t₁ : BPlusTree K V} {n : Node K V} {d : Nat}, Extends R t t₁ →
          n.InternalShape → (∀ d ∈ n.children, d ≠ 0 ∧ WellFormed R t₁.pager.pages h d) →
          WellFormed R t₁.pager.pages h d →
          (pagerDevice K V).wp PagesBelow
            (insertNonFull bs fuel d (t₁.pager.pages d) key value >>= fun _ ↦ saveNode q n)
            (fun _ t' ↦ Extends R t t') (fun e t' ↦ Refusal e ∧ Extends R t t') t₁ := by
        intro t₁ n d h₁ hn hchildren hd
        refine Device.wp_bind guard_pagesBelow (Device.wp_mono (ih h₁.sized hd (by omega))
          (fun _ t₂ _ h₂ ↦ ?_) fun e t₂ _ h₂ ↦ ⟨h₂.1, h₁.trans h₂.2⟩)
        exact hsave (h₁.trans h₂) hn
          fun d hd ↦ ⟨(hchildren d hd).1, h₂.preserves _ _ (hchildren d hd).2⟩
      refine Device.wp_read ?_
      show (pagerDevice K V).wp PagesBelow
        (if (t.pager.pages c).isFull then _ else _) _ _ t
      split
      · rename_i hfull
        refine Device.wp_bind guard_pagesBelow (wp_splitChild_extends ht hc hfull
          ⟨by omega, by omega⟩ (fun m r t₁ h₁ hr0 hr ↦ ?_) fun e t₁ he h₁ ↦ ⟨he, h₁⟩)
        have hn := hq.1.insert (i := i) (by omega) m r
        have hchildren : ∀ d ∈ (t.pager.pages q).children.insertIdx (i + 1) r,
            d ≠ 0 ∧ WellFormed R t₁.pager.pages h d := by
          intro d hd
          rcases List.eq_or_mem_of_mem_insertIdx hd with rfl | hd
          · exact ⟨hr0, hr⟩
          · exact ⟨(hq.2 d hd).1, h₁.preserves _ _ (hq.2 d hd).2⟩
        have hkey : ((t.pager.pages q).keys.insertIdx i m)[i]? = some m := by
          rw [List.getElem?_insertIdx_self, if_pos (by omega)]
        have hlen' : ((t.pager.pages q).children.insertIdx (i + 1) r).length =
            (t.pager.pages q).children.length + 1 :=
          List.length_insertIdx_of_le_length (by omega) _
        simp only [hkey]
        have hside : (if m < key then i + 1 else i) <
            ((t.pager.pages q).children.insertIdx (i + 1) r).length := by
          split <;> omega
        simp only [List.getElem?_eq_getElem hside]
        exact Device.wp_read (hdescend h₁ hn hchildren (hchildren _ (List.getElem_mem hside)).2)
      · exact hdescend hself hq.1 hq.2 hc

/-- Splitting the root makes the tree one level higher, or is refused and leaves it as high. -/
theorem wp_splitRoot_sound {h : Nat} (ht : t.pager.Sized)
    (hroot : WellFormed R t.pager.pages h rootPageId)
    (hfull : (t.pager.pages rootPageId).isFull) :
    (pagerDevice K V).wp PagesBelow (splitRoot (t.pager.pages rootPageId))
      (fun _ t' ↦ t'.pager.Sized ∧ t.pager.pageCount ≤ t'.pager.pageCount ∧
        WellFormed R t'.pager.pages (h + 1) rootPageId)
      (fun e t' ↦ Refusal e ∧ Sound R t') t := by
  have hblank := ht.blank t.pager.pageCount le_rfl
  refine Device.wp_bind guard_pagesBelow (wp_allocatePage ht fun t₁ ht₁ hpages₁ hcount₁ ↦ ?_)
  refine Device.wp_bind guard_pagesBelow (wp_saveNode ht₁ (by omega) _
    (fun t₂ ht₂ hpages₂ hcount₂ ↦ ?_) fun e he ↦ ⟨he, ht₁, h, hpages₁.symm ▸ hroot⟩)
  rw [hpages₁] at hpages₂
  have hcopy : WellFormed R t₂.pager.pages h t.pager.pageCount := hpages₂ ▸ hroot.copy hblank
  have hroot₂ : WellFormed R t₂.pager.pages h rootPageId :=
    hpages₂ ▸ preserves_update_blank hblank h _ hroot
  have hfull₂ : (t₂.pager.pages t.pager.pageCount).isFull := by
    rw [hpages₂, Function.update_self]
    exact hfull
  refine Device.wp_bind guard_pagesBelow (wp_splitChild_extends ht₂ hcopy hfull₂
    ⟨le_rfl, le_rfl⟩ (fun m r t₃ h₃ hr0 hr ↦ ?_)
    fun e t₃ he h₃ ↦ ⟨he, Sound.extends ⟨ht₂, h, hroot₂⟩ h₃⟩)
  have hroot₃ := h₃.preserves _ _ hroot₂
  refine wp_saveNode h₃.sized (lt_pageCount_of_wellFormed h₃.sized hroot₃) _
    (fun t₄ ht₄ hpages₄ hcount₄ ↦ ⟨ht₄, ?_, ?_⟩) fun e he ↦ ⟨he, h₃.sized, h, hroot₃⟩
  · have := h₃.count_le
    omega
  · rw [WellFormed, hpages₄, show rootPageId = 0 from rfl, Function.update_self]
    refine ⟨⟨rfl, rfl, rfl, rfl⟩, fun d hd ↦ ?_⟩
    have hd' : d = t.pager.pageCount ∨ d = r := by
      simpa using hd
    rcases hd' with rfl | rfl
    · exact ⟨ht.pos.ne', (h₃.preserves _ _ hcopy).update_root ht.pos.ne'⟩
    · exact ⟨hr0, hr.update_root hr0⟩

/-- **Insertions into a sound tree.** While fewer than `2 ^ 32` pages are handed out, an insertion is
done or refused; it neither panics nor runs in a circle, and it leaves a sound tree either way. -/
theorem insert_sound {key : K} {value : V} (ht : Sound R t) (hR : R key value)
    (hb : (t.insert bs key value).2.PagesBelow) :
    Sound R (t.insert bs key value).2 ∧
      ∀ e, (t.insert bs key value).1 = .error e → Refusal e := by
  obtain ⟨h, hroot⟩ := ht.root
  have hheight : h < t.pager.pageCount := hroot.height_lt ht.sized.blank
  have hwp : (pagerDevice K V).wp PagesBelow (insertProgram bs t.fuel key value)
      (fun _ t' ↦ Sound R t') (fun e t' ↦ Refusal e ∧ Sound R t') t := by
    refine Device.wp_read ?_
    show (pagerDevice K V).wp PagesBelow
      (if (t.pager.pages rootPageId).isFull then _ else _) _ _ t
    split
    · rename_i hfull
      refine Device.wp_bind guard_pagesBelow (Device.wp_mono
        (wp_splitRoot_sound ht.sized hroot hfull) (fun _ t₁ _ h₁ ↦ ?_) fun _ _ _ h₁ ↦ h₁)
      obtain ⟨ht₁, -, hroot₁⟩ := h₁
      exact Device.wp_read (Device.wp_mono
        (wp_insertNonFull_extends bs hR ht₁ hroot₁ (Nat.succ_lt_succ hheight))
        (fun _ t₂ _ h₂ ↦ Sound.extends ⟨ht₁, _, hroot₁⟩ h₂)
        fun _ _ _ h₂ ↦ ⟨h₂.1, Sound.extends ⟨ht₁, _, hroot₁⟩ h₂.2⟩)
    · exact Device.wp_mono
        (wp_insertNonFull_extends bs hR ht.sized hroot (Nat.lt_succ_of_lt hheight))
        (fun _ _ _ h₁ ↦ ht.extends h₁) fun _ _ _ h₁ ↦ ⟨h₁.1, ht.extends h₁.2⟩
  have hout := hwp hb
  rw [insert]
  rcases hrun : (pagerDevice K V).run (insertProgram bs t.fuel key value) t with ⟨e | u, t'⟩
  · rw [hrun] at hout
    exact ⟨hout.2, fun e' he' ↦ Except.error.inj he' ▸ hout.1⟩
  · rw [hrun] at hout
    exact ⟨hout, nofun⟩

end BPlusTree

end KsSql
