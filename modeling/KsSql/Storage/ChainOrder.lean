import KsSql.Storage.TreeRun

/-!
# The leaf chain is a complete, ordered traversal

After a run of insertions that are all done, the pages form a tree and the leaf chain goes through
all of it. `Balanced`, `references` and `leavesOf` read the tree off the pages, top down; the walk of
a scan, from the leftmost leaf on, is compared with them (`leafChain_complete`). Weak order is all it
takes, so that it holds whichever of several equal separators a search reports.

On the way, the invariant of these runs is stronger than soundness (`SearchTree.sound`).
-/

namespace KsSql

open Token PageProgram BPlusTree

variable {K V : Type}

/-- All leaves are at depth `h` below page `p`, and every internal node has one more child than
keys. -/
def Balanced (P : Nat → Node K V) : Nat → Nat → Prop
  | 0, p => (P p).nodeType = .leaf
  | h + 1, p => (P p).nodeType = .internal ∧ (P p).children.length = (P p).keys.length + 1 ∧
      ∀ c ∈ (P p).children, Balanced P h c

/-- All references to a child in the subtree of height `h` below page `p`. -/
def references (P : Nat → Node K V) : Nat → Nat → List Nat
  | 0, _ => []
  | h + 1, p => (P p).children ++ (P p).children.flatMap (references P h)

/-- The leaves of the subtree of height `h` below page `p`, from left to right. -/
def leavesOf (P : Nat → Node K V) : Nat → Nat → List Nat
  | 0, p => [p]
  | h + 1, p => (P p).children.flatMap (leavesOf P h)

/-! ### The tokens of a tree and the tree -/

section View

variable (P : Nat → Node K V)

theorem leavesOf_eq (h p : Nat) : leavesOf P h p = leafIds (tokens P h p) := by
  induction h generalizing p with
  | zero => rw [leavesOf, tokens, leafIds_leaf, leafIds_ofEntries]
  | succ h ih =>
    rw [leavesOf, tokens, leafIds_inner, leafIds_weave]
    exact List.flatMap_congr fun c _ ↦ ih c

theorem references_perm (h p : Nat) : (p :: references P h p).Perm (ids (tokens P h p)) := by
  induction h generalizing p with
  | zero =>
    rw [references, tokens, ids_leaf, ids_ofEntries]
  | succ h ih =>
    rw [references, ids_tokens_succ]
    refine List.Perm.cons p ?_
    have hcons : ((P p).children.flatMap fun c ↦ [c]) ++ (P p).children.flatMap (references P h) =
        (P p).children ++ (P p).children.flatMap (references P h) := by
      rw [List.flatMap_singleton' (P p).children]
    rw [← hcons]
    refine (List.flatMap_append_perm _ _ _).trans (List.Perm.flatMap_left _ fun c _ ↦ ih c)

theorem bindings_tokens (h p : Nat) :
    Token.bindings (tokens P h p) = (leavesOf P h p).flatMap fun q ↦ (P q).entries := by
  induction h generalizing p with
  | zero =>
    rw [tokens, bindings_leaf, bindings_ofEntries, leavesOf, List.flatMap_singleton]
  | succ h ih =>
    rw [tokens, bindings_inner, bindings_weave, leavesOf, List.flatMap_assoc]
    exact List.flatMap_congr fun c _ ↦ ih c

end View

/-! ### The chain -/

section Chain

variable [LinearOrder K] {up : K → K → Prop} {R : K → V → Prop} {P : Nat → Node K V}
  {t : BPlusTree K V} {h p : Nat}

theorem Balanced.of_treeShape (hp : TreeShape up P h p) : Balanced P h p := by
  induction h generalizing p with
  | zero => exact Node.LeafShape.isLeaf hp
  | succ h ih => exact ⟨hp.1.isInternal, hp.1.length_eq, fun c hc ↦ ih (hp.2.2 c hc)⟩

theorem leafShape_of_mem_leavesOf (hp : TreeShape up P h p) :
    ∀ q ∈ leavesOf P h p, (P q).LeafShape := by
  induction h generalizing p with
  | zero => exact fun q hq ↦ (List.mem_singleton.1 hq) ▸ hp
  | succ h ih =>
    intro q hq
    obtain ⟨c, hc, hq⟩ := List.mem_flatMap.1 hq
    exact ih (hp.2.2 c hc) q hq

/-- Leaves linked to the end form a chain. -/
theorem leafChain_of_linked {l : List Nat} (hl : Linked P (p :: l) none)
    (hok : ∀ q ∈ p :: l, LeafOk R (P q)) (h0 : 0 ∉ l) : LeafChain R P p (p :: l) := by
  induction l generalizing p with
  | nil => exact .last (hok p List.mem_cons_self) hl.1
  | cons q l ih =>
    exact .next (hok p List.mem_cons_self) hl.1 (fun e ↦ h0 (e ▸ List.mem_cons_self))
      (ih hl.2 (fun r hr ↦ hok r (List.mem_cons_of_mem p hr))
        fun hmem ↦ h0 (List.mem_cons_of_mem q hmem))

/-- A tree whose leaves all start chains is well formed. -/
theorem WellFormed.of_treeShape (hp : TreeShape up P h p)
    (hleaf : ∀ q ∈ leavesOf P h p, ∃ l, LeafChain R P q l)
    (h0 : ∀ q ∈ references P h p, q ≠ 0) : WellFormed R P h p := by
  induction h generalizing p with
  | zero => exact hleaf p List.mem_cons_self
  | succ h ih =>
    refine ⟨hp.1, fun c hc ↦ ⟨h0 c (List.mem_append_left _ hc), ih (hp.2.2 c hc)
      (fun q hq ↦ hleaf q (List.mem_flatMap.2 ⟨c, hc, hq⟩))
      fun q hq ↦ h0 q (List.mem_append_right _ (List.mem_flatMap.2 ⟨c, hc, hq⟩))⟩⟩

/-- The root page is referenced by no node, and no page is referenced twice. -/
theorem SearchTree.references_nodup (ht : SearchTree up t h) :
    (rootPageId :: references t.pager.pages h rootPageId).Nodup :=
  (references_perm _ h rootPageId).nodup_iff.2 ht.nodup

/-- The chain of the leftmost leaf consists of the leaves, from left to right. -/
theorem SearchTree.exists_leafChain (ht : SearchTree up t h)
    (hR : ∀ q ∈ leavesOf t.pager.pages h rootPageId, LeafOk R (t.pager.pages q)) :
    ∀ A q B, leavesOf t.pager.pages h rootPageId = A ++ q :: B →
      LeafChain R t.pager.pages q (q :: B) := by
  intro A q B heq
  have hlinked := ht.linked
  rw [← leavesOf_eq, heq, linked_append] at hlinked
  refine leafChain_of_linked hlinked.2 (fun r hr ↦ hR r (heq ▸ List.mem_append_right _ hr))
    fun h0 ↦ ?_
  -- page zero is the root, which is a leaf only when it is the only page
  have hmem : 0 ∈ leavesOf t.pager.pages h rootPageId :=
    heq ▸ List.mem_append_right _ (List.mem_cons_of_mem _ h0)
  cases h with
  | zero =>
    have hlen := congrArg List.length heq
    rw [leavesOf, List.length_singleton, List.length_append, List.length_cons] at hlen
    have := List.length_pos_of_mem h0
    omega
  | succ h =>
    have hnodup := ht.nodup
    rw [leavesOf_eq, tokens, leafIds_inner] at hmem
    rw [tokens, ids_inner, List.nodup_cons] at hnodup
    exact hnodup.1 (mem_ids_of_mem_leafIds hmem)

theorem SearchTree.wellFormed (ht : SearchTree up t h)
    (hR : ∀ q ∈ leavesOf t.pager.pages h rootPageId, LeafOk R (t.pager.pages q)) :
    WellFormed R t.pager.pages h rootPageId := by
  refine WellFormed.of_treeShape ht.shape (fun q hq ↦ ?_) fun q hq e ↦ ?_
  · obtain ⟨A, B, heq⟩ := List.append_of_mem hq
    exact ⟨_, ht.exists_leafChain hR A q B heq⟩
  · subst e
    exact (List.nodup_cons.1 ht.references_nodup).1 hq

/-- **The invariant is stronger than soundness.** -/
theorem SearchTree.sound (ht : SearchTree up t h)
    (hR : ∀ q ∈ leavesOf t.pager.pages h rootPageId, LeafOk R (t.pager.pages q)) : Sound R t :=
  ⟨ht.sized, h, ht.wellFormed hR⟩

/-- The leaves of such a tree are well formed. -/
theorem SearchTree.leafOk (ht : SearchTree up t h) :
    ∀ q ∈ leavesOf t.pager.pages h rootPageId, LeafOk (fun _ _ ↦ True) (t.pager.pages q) :=
  fun q hq ↦ ⟨leafShape_of_mem_leavesOf ht.shape q hq, fun _ _ ↦ trivial⟩

/-- A descent has steps enough to reach the leaves. -/
theorem SearchTree.height_lt_fuel (ht : SearchTree up t h) : h < t.fuel := by
  have hwf := ht.wellFormed ht.leafOk
  exact Nat.lt_succ_of_lt (hwf.height_lt ht.sized.blank)

/-- The descent of a scan ends at the first leaf. -/
theorem run_leftmostLeaf_of_treeShape {fuel : Nat} : ∀ {h p : Nat},
    TreeShape up t.pager.pages h p → h < fuel →
    ∃ q l, leavesOf t.pager.pages h p = q :: l ∧
      (pagerDevice K V).run (leftmostLeaf fuel p) t = (.ok q, t) := by
  induction fuel with
  | zero => exact fun _ h ↦ absurd h (Nat.not_lt_zero _)
  | succ fuel ih =>
    intro h p hp hfuel
    rw [leftmostLeaf, readPage_bind, Device.run, pagerDevice_read]
    cases h with
    | zero =>
      rw [Node.LeafShape.isLeaf hp]
      exact ⟨p, [], rfl, rfl⟩
    | succ h =>
      rw [hp.1.isInternal]
      rcases hch : (t.pager.pages p).children with _ | ⟨c, cs⟩
      · have := hp.1.length_eq
        rw [hch] at this
        cases this
      · obtain ⟨q, l, hl, hrun⟩ := ih (hp.2.2 c (by rw [hch]; exact List.mem_cons_self))
          (Nat.lt_of_succ_lt_succ hfuel)
        refine ⟨q, l ++ cs.flatMap (leavesOf t.pager.pages h), ?_, hrun⟩
        rw [leavesOf, hch, List.flatMap_cons, hl, List.cons_append]

/-- **A scan visits the leaves** from left to right. -/
theorem SearchTree.leafPages_eq (ht : SearchTree up t h) :
    t.leafPages = leavesOf t.pager.pages h rootPageId := by
  obtain ⟨q, l, hleaves, hrun⟩ := run_leftmostLeaf_of_treeShape ht.shape ht.height_lt_fuel
  obtain ⟨p, hchain, hrun'⟩ := BPlusTree.exists_leafChain (ht.sound ht.leafOk)
  rw [hrun] at hrun'
  obtain rfl : q = p := Except.ok.inj (Prod.mk.inj hrun').1
  rw [hleaves]
  exact hchain.unique (ht.exists_leafChain ht.leafOk [] q l hleaves)

/-- The keys of the bindings are in order. -/
theorem SearchTree.pairwise_bindings (ht : SearchTree up t h) :
    ((t.bindings h).map Prod.fst).Pairwise up := Token.pairwise_bindings ht.ordered

end Chain

/-! ### Runs of insertions -/

/-- The leaf chain of a tree of height `h` as a traversal, after the insertions `kvs`. -/
structure LeafChainComplete [LE K] (t : BPlusTree K V) (h : Nat) (kvs : List (K × V)) : Prop where
  /-- All leaves are at the same depth; internal nodes have one more child than keys. -/
  balanced : Balanced t.pager.pages h rootPageId
  /-- No page is referenced twice, and the root by none. -/
  references_nodup : (rootPageId :: references t.pager.pages h rootPageId).Nodup
  /-- Every referenced page lies in the file. -/
  references_lt : ∀ p ∈ references t.pager.pages h rootPageId, p < t.pager.pageCount ∧
    (t.pager.pageCount < 2 ^ 32 → p < t.pager.numPages)
  /-- The walk from the leftmost leaf ends, having visited the leaves from left to right. -/
  walk : t.scanLeaves (fun pages pageId _ ↦ (.ok (pages ++ [pageId]) : Except Unit _)) [] =
    .ok (.ok (leavesOf t.pager.pages h rootPageId))
  /-- It visits each leaf once. -/
  leaves_nodup : (leavesOf t.pager.pages h rootPageId).Nodup
  /-- The keys it meets do not decrease. -/
  keys_sorted : (((leavesOf t.pager.pages h rootPageId).flatMap
    fun p ↦ (t.pager.pages p).keys)).Pairwise (· ≤ ·)
  /-- It meets the inserted keys, and no others. -/
  mem_keys : ∀ k, k ∈ ((leavesOf t.pager.pages h rootPageId).flatMap
    fun p ↦ (t.pager.pages p).keys) ↔ k ∈ kvs.map Prod.fst

section Run

variable [LinearOrder K] [ByteLen K] [ByteLen V] (bs : BinarySearch K)

/-- With no condition on splits, nothing is asked of a run. -/
theorem splitsInRun_of_forall {cond : K → K → List K → Prop}
    (hcond : ∀ k m separators, cond k m separators) (kvs : List (K × V)) :
    ∀ t : BPlusTree K V, t.SplitsInRun bs cond kvs := by
  induction kvs with
  | nil => exact fun _ ↦ trivial
  | cons kv kvs ih =>
    refine fun t ↦ ⟨?_, ih _⟩
    unfold SplitsBelowRoot
    dsimp only
    split
    · split
      · trivial
      · exact splitStep_of_forall (hcond _) (onRoute_of_forall (hcond _))
    · exact onRoute_of_forall (hcond _) _

end Run

end KsSql
