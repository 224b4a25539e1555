import KsSql.Storage.MapRefinement

/-!
# Insertions that split nothing below the root

An insertion that splits no node below the root changes the tree in two steps at most. A full root is
split first: its halves go to new pages, which nothing refers to until the new root is written, in
one write, over the old one (`rootSplitPages`). Then one leaf gets the binding (`LeafPut`), again in
one write, and the nodes above it are written back as they were. Every point between two page writes
is therefore one of three: the old pages, with new ones that nothing refers to; the pages under the
new root; and these with the binding in its leaf (`QuietWrite`).

Nothing here needs the tree to be in order. `lookupBelow` is what a lookup finds in any well-formed
subtree, whatever happened to it, and the two steps change it in the inserted key only. The one thing
asked of a root that is split is that its separators are distinct: which of several equal ones a
search reports is open, and the halves of a list are searched separately.
-/

namespace KsSql

open Token PageProgram BPlusTree

variable {K V : Type} [LinearOrder K] {R : K → V → Prop}

/-! ### Lookups in a subtree -/

section Lookup

variable (bs : BinarySearch K) (key : K)

/-- What a lookup finds in the subtree of height `h` below page `p`. -/
def lookupBelow (P : Nat → Node K V) : Nat → Nat → Option V
  | 0, p => (P p).entries.lookup key
  | h + 1, p =>
    match (P p).children[childIndex bs (P p) key]? with
    | some c => lookupBelow P h c
    | none => none

variable {t : BPlusTree K V} {P P' : Nat → Node K V} {h p : Nat}

theorem run_getLoop_eq_lookupBelow {fuel : Nat} : ∀ {h p : Nat},
    WellFormed R t.pager.pages h p → h < fuel →
    (pagerDevice K V).run (getLoop bs key fuel p) t =
      (.ok (lookupBelow bs key t.pager.pages h p), t) := by
  induction fuel with
  | zero => exact fun _ h ↦ absurd h (Nat.not_lt_zero _)
  | succ fuel ih =>
    intro h p hp hfuel
    cases h with
    | zero => exact run_getLoop_leaf bs key hp.leafOk.shape
    | succ h =>
      have hlen := hp.1.length_eq
      obtain ⟨c, hc⟩ : ∃ c, (t.pager.pages p).children[childIndex bs (t.pager.pages p) key]? =
        some c := ⟨_, List.getElem?_eq_getElem (childIndex_lt bs (by omega) key)⟩
      rw [run_getLoop_internal bs key hp.1.isInternal hc, lookupBelow, hc]
      exact ih (hp.2 c (List.mem_of_getElem? hc)).2 (by omega)

variable {bs key}

/-- **A lookup** in a well-formed tree of known height. -/
theorem getPages_eq_lookupBelow (ht : t.pager.Sized)
    (hroot : WellFormed R t.pager.pages h rootPageId) :
    t.getPages bs key = .ok (lookupBelow bs key t.pager.pages h rootPageId) := by
  have hfuel : h < t.fuel := Nat.lt_succ_of_lt (hroot.height_lt ht.blank)
  rw [getPages, run_getLoop_eq_lookupBelow bs key hroot hfuel]

/-- A lookup reads pages of the subtree only. -/
theorem lookupBelow_congr (hp : WellFormed R P h p)
    (hP : ∀ q, (∃ h, WellFormed R P h q) → q = p ∨ q ≠ rootPageId → P' q = P q) :
    lookupBelow bs key P' h p = lookupBelow bs key P h p := by
  induction h generalizing p with
  | zero => rw [lookupBelow, lookupBelow, hP p ⟨0, hp⟩ (Or.inl rfl)]
  | succ h ih =>
    rw [lookupBelow, lookupBelow, hP p ⟨_, hp⟩ (Or.inl rfl)]
    rcases hc : (P p).children[childIndex bs (P p) key]? with _ | c
    · rfl
    · obtain ⟨hc0, hc⟩ := hp.2 c (List.mem_of_getElem? hc)
      exact ih hc fun q hq hqc ↦ hP q hq (Or.inr (hqc.elim (fun e ↦ e ▸ hc0) id))

/-- A subtree depends on its own pages only. -/
theorem wellFormed_congr (hp : WellFormed R P h p)
    (hP : ∀ q, (∃ h, WellFormed R P h q) → q = p ∨ q ≠ rootPageId → P' q = P q) :
    WellFormed R P' h p := by
  induction h generalizing p with
  | zero =>
    obtain ⟨l, hl⟩ := hp
    refine ⟨l, ?_⟩
    induction hl with
    | @last p hok hnone =>
      have hp := hP p ⟨0, _, .last hok hnone⟩ (Or.inl rfl)
      exact .last (hp ▸ hok) (hp ▸ hnone)
    | @next p r l hok hsome hr hl ih =>
      have hp := hP p ⟨0, _, .next hok hsome hr hl⟩ (Or.inl rfl)
      exact .next (hp ▸ hok) (hp ▸ hsome) hr
        (ih fun q hq hqr ↦ hP q hq (Or.inr (hqr.elim (fun e ↦ e ▸ hr) id)))
  | succ h ih =>
    rw [WellFormed, hP p ⟨_, hp⟩ (Or.inl rfl)]
    exact ⟨hp.1, fun c hc ↦ ⟨(hp.2 c hc).1, ih (hp.2 c hc).2
      fun q hq hqc ↦ hP q hq (Or.inr (hqc.elim (fun e ↦ e ▸ (hp.2 c hc).1) id))⟩⟩

end Lookup

/-! ### A binding put into a leaf -/

/-- The pages `P'` are `P` with `v` put under `k` in leaf `q`. -/
structure LeafPut (k : K) (v : V) (P P' : Nat → Node K V) (q : Nat) : Prop where
  old : (P q).LeafShape
  new : (P' q).LeafShape
  entries_eq : (P' q).entries = SortedAssoc.upsert k v (P q).entries
  nextLeaf_eq : (P' q).nextLeaf = (P q).nextLeaf
  frame : ∀ p, p ≠ q → P' p = P p

section LeafPut

variable {bs : BinarySearch K} {k key : K} {v : V} {P P' : Nat → Node K V} {q h p : Nat}

theorem LeafPut.eq_update (hput : LeafPut k v P P' q) : P' = Function.update P q (P' q) := by
  funext p
  by_cases hp : p = q
  · rw [hp, Function.update_self]
  · rw [Function.update_of_ne hp, hput.frame p hp]

/-- Well-formed subtrees stay well formed. -/
theorem LeafPut.preserves (hput : LeafPut k v P P' q) (hR : ∀ e ∈ (P' q).entries, R e.1 e.2) :
    Preserves R P P' := by
  rw [hput.eq_update]
  exact preserves_update_leaf hput.old.isLeaf ⟨hput.new, hR⟩ hput.nextLeaf_eq

/-- The children of a page stay the same, and so does everything about an inner node. -/
theorem LeafPut.children_eq (hput : LeafPut k v P P' q) (p : Nat) :
    (P' p).children = (P p).children := by
  by_cases hp : p = q
  · rw [hp, hput.new.children_eq, hput.old.children_eq]
  · rw [hput.frame p hp]

/-- Lookups of other keys find what they found. -/
theorem LeafPut.lookupBelow_of_ne (hput : LeafPut k v P P' q) (hkey : key ≠ k) :
    lookupBelow bs key P' h p = lookupBelow bs key P h p := by
  induction h generalizing p with
  | zero =>
    rw [lookupBelow, lookupBelow]
    by_cases hp : p = q
    · rw [hp, hput.entries_eq, SortedAssoc.lookup_upsert_of_ne hkey]
    · rw [hput.frame p hp]
  | succ h ih =>
    rw [lookupBelow, lookupBelow]
    by_cases hp : p = q
    · rw [hp, hput.new.children_eq, hput.old.children_eq]
      rfl
    · rw [hput.frame p hp]
      split
      · exact ih
      · rfl

/-- A lookup that found a value of the inserted key finds it still, or finds the new one. -/
theorem LeafPut.lookupBelow_self (hput : LeafPut k v P P' q) {w : V}
    (hw : lookupBelow bs k P h p = some w) :
    lookupBelow bs k P' h p = some w ∨ lookupBelow bs k P' h p = some v := by
  induction h generalizing p with
  | zero =>
    rw [lookupBelow] at hw ⊢
    by_cases hp : p = q
    · right
      rw [hp, hput.entries_eq, SortedAssoc.lookup_upsert_self]
    · left
      rw [hput.frame p hp, hw]
  | succ h ih =>
    rw [lookupBelow] at hw ⊢
    by_cases hp : p = q
    · rw [hp, hput.old.children_eq] at hw
      cases hw
    · rw [hput.frame p hp]
      rcases hc : (P p).children[childIndex bs (P p) k]? with _ | c
      · rw [hc] at hw
        cases hw
      · rw [hc] at hw
        exact ih hw

end LeafPut

/-! ### A root split -/

/-- The pages after the root was split at the key `m` into two new pages. -/
def rootSplitPages (P : Nat → Node K V) (n : Nat) (m : K) : Nat → Node K V :=
  Function.update (splitPages (Function.update P n (P rootPageId)) (n + 1) n) rootPageId
    ⟨.internal, [m], [n, n + 1], [], none⟩

section RootSplit

variable {bs : BinarySearch K} {key m : K} {P : Nat → Node K V} {n h : Nat}

omit [LinearOrder K] in
theorem rootSplitPages_root : rootSplitPages P n m rootPageId =
    ⟨.internal, [m], [n, n + 1], [], none⟩ := Function.update_self _ _ _

omit [LinearOrder K] in
theorem rootSplitPages_left (hn : n ≠ rootPageId) :
    rootSplitPages P n m n = (P rootPageId).splitLeft (n + 1) := by
  rw [rootSplitPages, Function.update_of_ne hn, splitPages_left, Function.update_self]

omit [LinearOrder K] in
theorem rootSplitPages_right :
    rootSplitPages P n m (n + 1) = (P rootPageId).splitRight := by
  rw [rootSplitPages, Function.update_of_ne (show n + 1 ≠ rootPageId from Nat.succ_ne_zero n),
    splitPages_right (Nat.succ_ne_self n), Function.update_self]

omit [LinearOrder K] in
theorem rootSplitPages_of_ne {q : Nat} (hq : q ≠ rootPageId) (hn : q ≠ n) (hn' : q ≠ n + 1) :
    rootSplitPages P n m q = P q := by
  rw [rootSplitPages, Function.update_of_ne hq, splitPages_of_ne hn hn', Function.update_of_ne hn]

/-- The tree is one level higher. -/
theorem wellFormed_rootSplit (hroot : WellFormed R P h rootPageId) (hn : P n = .newInternal)
    (hn' : P (n + 1) = .newInternal) (hm : (P rootPageId).midKey? = some m) :
    WellFormed R (rootSplitPages P n m) (h + 1) rootPageId := by
  have hn0 : n ≠ 0 := fun e ↦ not_wellFormed_blank (p := 0) (by rw [← e, hn]) hroot
  have hcopy := hroot.copy hn
  have hblank : Function.update P n (P rootPageId) (n + 1) = .newInternal := by
    rw [Function.update_of_ne (Nat.succ_ne_self n), hn']
  have hm' : (Function.update P n (P rootPageId) n).midKey? = some m := by
    rw [Function.update_self, hm]
  obtain ⟨hpres, hright⟩ := hcopy.split hm' hblank (Nat.succ_ne_zero n)
  rw [WellFormed, rootSplitPages_root]
  refine ⟨⟨rfl, rfl, rfl, rfl⟩, fun c hc ↦ ?_⟩
  rcases List.mem_cons.1 hc with rfl | hc
  · exact ⟨hn0, (hpres _ _ hcopy).update_root hn0⟩
  · rw [List.mem_singleton.1 hc]
    exact ⟨Nat.succ_ne_zero n, hright.update_root (Nat.succ_ne_zero n)⟩

/-- Between distinct separators there is one place for a key. -/
theorem childIndex_eq {node : Node K V} (hn : node.InternalShape)
    (hkeys : node.keys.Pairwise (· < ·)) {i : Nat} (hi : i ≤ node.keys.length)
    (hle : ∀ s ∈ node.keys.take i, s ≤ key) (hlt : ∀ s ∈ node.keys.drop i, key < s) :
    childIndex bs node key = i := by
  obtain ⟨hj, hle', hlt'⟩ := childIndex_spec bs upper_lt hn hkeys key
  generalize childIndex bs node key = j at hj hle' hlt'
  rcases Nat.lt_trichotomy j i with hji | rfl | hij
  · have hmem : node.keys[j] ∈ node.keys.take i := List.mem_take_iff_getElem.2 ⟨j, by omega, rfl⟩
    have hmem' : node.keys[j] ∈ node.keys.drop j :=
      List.mem_drop_iff_getElem.2 ⟨0, by omega, by simp only [Nat.add_zero]⟩
    exact absurd (hlt' _ hmem') (not_lt.2 (hle _ hmem))
  · rfl
  · have hmem : node.keys[i] ∈ node.keys.take j := List.mem_take_iff_getElem.2 ⟨i, by omega, rfl⟩
    have hmem' : node.keys[i] ∈ node.keys.drop i :=
      List.mem_drop_iff_getElem.2 ⟨0, by omega, by simp only [Nat.add_zero]⟩
    exact absurd (hlt _ hmem') (not_lt.2 (hle' _ hmem))

/-- The half of a leaf in which a key is looked for has the value that the leaf has for it. -/
theorem lookup_half {node : Node K V} (hn : node.LeafShape) (hm : node.midKey? = some m)
    (newId : Nat) : node.entries.lookup key =
      (if m ≤ key then node.splitRight else node.splitLeft newId).entries.lookup key := by
  obtain ⟨w, rest, hright, hentries⟩ := hn.entries_split hm newId
  have hsorted : (node.entries.map Prod.fst).Pairwise (· < ·) := (map_fst_entries hn).symm ▸ hn.sorted
  rw [hentries, List.map_append, List.pairwise_append, List.map_cons, List.pairwise_cons] at hsorted
  obtain ⟨-, ⟨hrest, -⟩, hleft⟩ := hsorted
  rw [hentries]
  split
  · rename_i hmk
    rw [hright, lookup_append_left]
    exact fun a ha ↦ ((hleft a.1 (List.mem_map_of_mem ha) m List.mem_cons_self).trans_le hmk).ne
  · rename_i hmk
    refine lookup_append_right _ fun b hb ↦ ?_
    rcases List.mem_cons.1 hb with rfl | hb
    · exact (not_le.1 hmk).ne'
    · exact ((not_le.1 hmk).trans (hrest b.1 (List.mem_map_of_mem hb))).ne'

/-- The half of an inner node in which a key is looked for has the node's child for it. -/
theorem child_half {node : Node K V} (hn : node.InternalShape)
    (hkeys : node.keys.Pairwise (· < ·)) (hm : node.midKey? = some m) (newId : Nat) :
    node.children[childIndex bs node key]? =
      let half := if m ≤ key then node.splitRight else node.splitLeft newId
      half.children[childIndex bs half key]? := by
  obtain ⟨hmid, hkey⟩ := List.getElem?_eq_some_iff.1 hm
  obtain ⟨hi, hle, hlt⟩ := childIndex_spec bs upper_lt hn hkeys key
  have hlen := hn.length_eq
  generalize childIndex bs node key = i at hi hle hlt
  have hmem : ∀ {j : Nat} (hj : j < node.keys.length), j < i → node.keys[j] ≤ key :=
    fun hj hji ↦ hle _ (List.mem_take_iff_getElem.2 ⟨_, by omega, rfl⟩)
  have hmem' : ∀ {j : Nat} (hj : j < node.keys.length), i ≤ j → key < node.keys[j] :=
    fun {j} hj hij ↦ hlt _ (List.mem_drop_iff_getElem.2 ⟨j - i, by omega, by
      congr 1; omega⟩)
  dsimp only
  split
  · rename_i hmk
    have hmi : node.mid < i := by
      by_contra hge
      exact absurd (hmem' hmid (not_lt.1 hge)) (not_lt.2 (hkey ▸ hmk))
    have hshape := hn.splitRight hm
    rw [hn.splitRight_eq] at hshape ⊢
    rw [childIndex_eq (i := i - (node.mid + 1)) hshape (hkeys.sublist (List.drop_sublist _ _))]
    · rw [List.getElem?_drop]
      congr 1
      omega
    · rw [List.length_drop]
      omega
    · intro s hs
      rw [List.take_drop] at hs
      refine hle s (List.mem_of_mem_drop (i := node.mid + 1) ?_)
      rwa [show node.mid + 1 + (i - (node.mid + 1)) = i by omega] at hs
    · intro s hs
      rw [List.drop_drop, show node.mid + 1 + (i - (node.mid + 1)) = i by omega] at hs
      exact hlt s hs
  · rename_i hmk
    have him : i ≤ node.mid := by
      by_contra hgt
      exact hmk (hkey ▸ hmem hmid (not_le.1 hgt))
    have hshape := hn.splitLeft hm newId
    rw [hn.splitLeft_eq] at hshape ⊢
    rw [childIndex_eq (i := i) hshape (hkeys.sublist (List.take_sublist _ _))]
    · rw [List.getElem?_take_of_lt (by omega)]
    · rw [List.length_take]
      omega
    · intro s hs
      rw [List.take_take, Nat.min_eq_left him] at hs
      exact hle s hs
    · intro s hs
      rw [List.drop_take] at hs
      exact hlt s (List.mem_of_mem_take hs)

/-- **A root split** changes no lookup, when the root's separators are distinct. -/
theorem lookupBelow_rootSplit (hroot : WellFormed R P h rootPageId) (hn : P n = .newInternal)
    (hn' : P (n + 1) = .newInternal) (hm : (P rootPageId).midKey? = some m)
    (hkeys : (P rootPageId).nodeType = .internal → (P rootPageId).keys.Pairwise (· < ·)) :
    lookupBelow bs key (rootSplitPages P n m) (h + 1) rootPageId =
      lookupBelow bs key P h rootPageId := by
  have hn0 : n ≠ rootPageId := fun e ↦
    not_wellFormed_blank (p := rootPageId) (by rw [← e, hn]) hroot
  have hnode := rootSplitPages_root (P := P) (n := n) (m := m)
  have hhalf : rootSplitPages P n m (if m ≤ key then n + 1 else n) =
      if m ≤ key then (P rootPageId).splitRight else (P rootPageId).splitLeft (n + 1) := by
    split
    · exact rootSplitPages_right
    · exact rootSplitPages_left hn0
  have hchild : (rootSplitPages P n m rootPageId).children[childIndex bs
      (rootSplitPages P n m rootPageId) key]? = some (if m ≤ key then n + 1 else n) := by
    rw [childIndex_singleton (a := n) (b := n + 1) (by rw [hnode]) (by rw [hnode]), hnode]
    split <;> rfl
  rw [lookupBelow, hchild]
  show lookupBelow bs key (rootSplitPages P n m) h (if m ≤ key then n + 1 else n) = _
  cases h with
  | zero =>
    rw [lookupBelow, lookupBelow, hhalf, lookup_half hroot.leafOk.shape hm (n + 1)]
  | succ h =>
    rw [lookupBelow, lookupBelow, hhalf,
      child_half hroot.1 (hkeys hroot.1.isInternal) hm (n + 1)]
    dsimp only
    rcases hc : (if m ≤ key then (P rootPageId).splitRight
        else (P rootPageId).splitLeft (n + 1)).children[childIndex bs (if m ≤ key then
        (P rootPageId).splitRight else (P rootPageId).splitLeft (n + 1)) key]? with _ | c
    · rfl
    · have hcmem : c ∈ (P rootPageId).children := by
        have hmem := List.mem_of_getElem? hc
        split at hmem
        · exact (nodeType_half (Or.inr (Or.inl rfl))).2 c hmem
        · exact (nodeType_half (Or.inr (Or.inr ⟨_, rfl⟩))).2 c hmem
      obtain ⟨hc0, hcwf⟩ := hroot.2 c hcmem
      refine lookupBelow_congr hcwf fun q ⟨h', hq⟩ hq0 ↦ rootSplitPages_of_ne
        (hq0.elim (fun e ↦ e ▸ hc0) id) (fun e ↦ ?_) fun e ↦ ?_
      · exact not_wellFormed_blank (e ▸ hn) hq
      · exact not_wellFormed_blank (e ▸ hn') hq

end RootSplit

/-! ### Sizes -/

section Size

variable [ByteLen K] [ByteLen V] {P : Nat → Node K V} {h c : Nat} {m : K}

/-- The halves of a node of a tree fit their pages when the node does. -/
theorem WellFormed.fits_split (hc : WellFormed R P h c) (hfits : (P c).Fits)
    (hm : (P c).midKey? = some m) (newId : Nat) :
    ((P c).splitLeft newId).Fits ∧ (P c).splitRight.Fits := by
  cases h with
  | zero => exact hc.leafOk.shape.fits_split hfits hm newId
  | succ h => exact hc.1.fits_split hfits newId

/-- A root over the two halves of a node takes no more room than the node did. -/
theorem WellFormed.fits_newRoot (hc : WellFormed R P h c) (hfits : (P c).Fits)
    (hm : (P c).midKey? = some m) (a b : Nat) :
    (⟨.internal, [m], [a, b], [], none⟩ : Node K V).Fits := by
  have hkeys := Node.vecSize_of_getElem? hm
  have hlt := (List.getElem?_eq_some_iff.1 hm).1
  have hsize : (⟨.internal, [m], [a, b], [], none⟩ : Node K V).serializedSize =
      45 + byteLen m := by
    simp only [Node.serializedSize, Node.vecSize, List.map_cons, List.map_nil, List.sum_cons,
      List.sum_nil, List.length_cons, List.length_nil, Option.isSome_none, Bool.false_eq_true,
      if_false]
    omega
  rw [Node.Fits, Node.serializedSize] at hfits
  rw [Node.Fits, hsize]
  cases h with
  | zero =>
    have hshape := hc.leafOk.shape
    have hvals := Node.vecSize_of_getElem? (List.getElem?_eq_getElem (hshape.length_eq ▸ hlt))
    omega
  | succ h =>
    have hchildren := hc.1.length_eq
    have hvals : 8 ≤ Node.vecSize (P c).values := Nat.le_add_right _ _
    omega

end Size

/-! ### The descent -/

section Descent

variable [ByteLen K] [ByteLen V] {bs : BinarySearch K} {k : K} {v : V}

/-- A page write of a descent that splits nothing, begun on the pages `P₁`: the leaf that gets the
binding, or a node written back as it was. -/
def LeafWrite (k : K) (v : V) (P₁ P P' : Nat → Node K V) : Prop :=
  (P = P₁ ∧ ∃ q, LeafPut k v P₁ P' q) ∨ P' = P

/-- **The descent** of an insertion that splits nothing puts the binding into one leaf. It can be
refused before that; afterwards only by the queue, since the nodes above fitted their pages before. -/
theorem gwp_insertNonFull_quiet {fuel : Nat} : ∀ {t : BPlusTree K V} {h p : Nat}, t.pager.Sized →
    WellFormed R t.pager.pages h p → (∀ q, (t.pager.pages q).Fits) →
    OnRoute bs (fun _ _ ↦ False) k t.pager.pages fuel (t.pager.pages p) → h < fuel →
    (pagerDevice K V).gwp PagesBelow (onPages (LeafWrite k v t.pager.pages))
      (insertNonFull bs fuel p (t.pager.pages p) k v)
      (fun _ t' ↦ t'.pager.Sized ∧ t'.pager.pageCount = t.pager.pageCount ∧
        ∃ q, LeafPut k v t.pager.pages t'.pager.pages q ∧
          lookupBelow bs k t'.pager.pages h p = some v)
      (fun e t' ↦ t'.pager.Sized ∧ t'.pager.pageCount = t.pager.pageCount ∧ Refusal e ∧
        (t'.pager.pages = t.pager.pages ∨
          e = .walSaturated ∧ ∃ q, LeafPut k v t.pager.pages t'.pager.pages q)) t := by
  induction fuel with
  | zero => exact fun _ _ _ _ h ↦ absurd h (Nat.not_lt_zero _)
  | succ fuel ih =>
    intro t h p ht hp hfits hroute hfuel
    have hlt := lt_pageCount_of_wellFormed ht hp
    cases h with
    | zero =>
      have hleaf := hp.leafOk.shape
      have hput : ∀ n' : Node K V, n'.LeafShape →
          n'.entries = SortedAssoc.upsert k v (t.pager.pages p).entries →
          n'.nextLeaf = (t.pager.pages p).nextLeaf →
          LeafPut k v t.pager.pages (Function.update t.pager.pages p n') p := by
        intro n' hn' hentries hnext
        exact ⟨hleaf, by rwa [Function.update_self], by rwa [Function.update_self],
          by rwa [Function.update_self], fun q hq ↦ Function.update_of_ne hq _ _⟩
      simp only [insertNonFull, hleaf.isLeaf]
      refine gwp_insertLeaf bs ht hlt hleaf k v
        (fun n' hn' hentries hnext ↦ Or.inl ⟨rfl, p, hput n' hn' hentries hnext⟩)
        (fun n' t' hn' hentries hnext ht' hpages hcount ↦ ⟨ht', hcount, p, ?_, ?_⟩)
        fun e he ↦ ⟨ht, rfl, he, Or.inl rfl⟩
      · rw [hpages]
        exact hput n' hn' hentries hnext
      · rw [lookupBelow, hpages, Function.update_self, hentries, SortedAssoc.lookup_upsert_self]
    | succ h =>
      have hlen := hp.1.length_eq
      simp only [insertNonFull, hp.1.isInternal]
      unfold OnRoute at hroute
      simp only [hp.1.isInternal] at hroute
      obtain ⟨c, hc⟩ : ∃ c, (t.pager.pages p).children[childIndex bs (t.pager.pages p) k]? =
        some c := ⟨_, List.getElem?_eq_getElem (childIndex_lt bs (by omega) k)⟩
      simp only [hc] at hroute ⊢
      have hcwf := (hp.2 c (List.mem_of_getElem? hc)).2
      refine Device.gwp_read ?_
      show (pagerDevice K V).gwp PagesBelow _
        (if (t.pager.pages c).isFull then _ else _) _ _ t
      have hnotFull : ¬ (t.pager.pages c).isFull := fun hfull ↦ by
        obtain ⟨⟨m, hm⟩, -⟩ := hcwf.exists_midKey hfull
        rw [SplitStep, if_pos hfull, hm] at hroute
        exact hroute.1
      rw [SplitStep, if_neg hnotFull] at hroute
      rw [if_neg hnotFull]
      -- the node itself is no leaf, so it is what it was when it is written back
      have hself : ∀ {P' : Nat → Node K V} {q : Nat}, LeafPut k v t.pager.pages P' q →
          P' p = t.pager.pages p := fun {P' q} hput ↦ hput.frame p fun e ↦ by
        have := hput.old.isLeaf
        rw [← e, hp.1.isInternal] at this
        cases this
      refine Device.gwp_bind guard_pagesBelow (Device.gwp_mono (ih ht hcwf hfits hroute (by omega))
        (fun _ _ ↦ id) (fun _ t₁ _ h₁ ↦ ?_) fun _ _ _ ↦ id)
      obtain ⟨ht₁, hcount₁, q, hput, hlookup⟩ := h₁
      have hback : Function.update t₁.pager.pages p (t.pager.pages p) = t₁.pager.pages := by
        rw [← hself hput, Function.update_eq_self]
      refine gwp_saveNode ht₁ (by omega) _ (Or.inr hback)
        (fun t₂ ht₂ hpages₂ hcount₂ ↦ ⟨ht₂, by omega, q, ?_, ?_⟩)
        fun e he hfit ↦ ⟨ht₁, hcount₁, he, Or.inr ⟨hfit (hfits p), q, hput⟩⟩
      · rwa [hpages₂, hback]
      · rw [hpages₂, hback, lookupBelow, hself hput, hc]
        exact hlookup

end Descent

/-! ### The insertion -/

section Insert

namespace BPlusTree

/-- The pages of the tree are what they were; pages past the end may have been written. -/
def OldPages (t : BPlusTree K V) (P : Nat → Node K V) : Prop :=
  ∀ q < t.pager.pageCount, P q = t.pager.pages q

variable [ByteLen K] [ByteLen V]

/-- A root that an insertion is about to split has distinct separators. -/
def RootSplitsCleanly (t : BPlusTree K V) : Prop :=
  (t.pager.pages rootPageId).isFull → (t.pager.pages rootPageId).nodeType = .internal →
    (t.pager.pages rootPageId).keys.Pairwise (· < ·)

instance (t : BPlusTree K V) : Decidable t.RootSplitsCleanly :=
  inferInstanceAs (Decidable (_ → _ → _))

/-- The pages on which the descent of an insertion begins: a full root has been split. -/
def descentPages (t : BPlusTree K V) : Nat → Node K V :=
  if (t.pager.pages rootPageId).isFull then
    match (t.pager.pages rootPageId).midKey? with
    | none => t.pager.pages
    | some m => rootSplitPages t.pager.pages t.pager.pageCount m
  else t.pager.pages

/-- The height of the tree, `h` before the insertion, when its descent begins. -/
def descentHeight (t : BPlusTree K V) (h : Nat) : Nat :=
  if (t.pager.pages rootPageId).isFull then h + 1 else h

/-- An insertion of the key splits no node below the root: its descent meets no full one. -/
def QuietBelowRoot (bs : BinarySearch K) (t : BPlusTree K V) (key : K) : Prop :=
  OnRoute bs (fun _ _ ↦ False) key t.descentPages t.fuel (t.descentPages rootPageId)

instance (bs : BinarySearch K) (t : BPlusTree K V) (key : K) : Decidable (t.QuietBelowRoot bs key) :=
  inferInstanceAs (Decidable (OnRoute bs (fun _ _ ↦ False) key _ _ _))

end BPlusTree

variable [ByteLen K] [ByteLen V] {bs : BinarySearch K} {k key : K} {v : V} {t : BPlusTree K V}
  {h : Nat}

/-- A page write of an insertion that splits nothing below the root: one of a root split, or one of
the descent. -/
def QuietWrite (k : K) (v : V) (t : BPlusTree K V) (P P' : Nat → Node K V) : Prop :=
  ((t.pager.pages rootPageId).isFull ∧ t.OldPages P ∧
      (t.OldPages P' ∨ P' = t.descentPages)) ∨
    LeafWrite k v t.descentPages P P'

omit [LinearOrder K] [ByteLen K] [ByteLen V] in
theorem BPlusTree.oldPages_update {P : Nat → Node K V} (hP : t.OldPages P) {q : Nat}
    (hq : t.pager.pageCount ≤ q) (n : Node K V) : t.OldPages (Function.update P q n) :=
  fun r hr ↦ (Function.update_of_ne (by omega) _ _).trans (hP r hr)

theorem wellFormed_descent (ht : t.pager.Sized) (hroot : WellFormed R t.pager.pages h rootPageId) :
    WellFormed R t.descentPages (t.descentHeight h) rootPageId := by
  rw [descentPages, descentHeight]
  split
  · rename_i hfull
    obtain ⟨⟨m, hm⟩, -⟩ := hroot.exists_midKey hfull
    rw [hm]
    exact wellFormed_rootSplit hroot (ht.blank _ le_rfl) (ht.blank _ (Nat.le_succ _)) hm
  · exact hroot

variable (bs key) in
theorem lookupBelow_descent (ht : t.pager.Sized)
    (hroot : WellFormed R t.pager.pages h rootPageId) (hclean : t.RootSplitsCleanly) :
    lookupBelow bs key t.descentPages (t.descentHeight h) rootPageId =
      lookupBelow bs key t.pager.pages h rootPageId := by
  rw [descentPages, descentHeight]
  split
  · rename_i hfull
    obtain ⟨⟨m, hm⟩, -⟩ := hroot.exists_midKey hfull
    rw [hm]
    exact lookupBelow_rootSplit hroot (ht.blank _ le_rfl) (ht.blank _ (Nat.le_succ _)) hm
      (hclean hfull)
  · rfl

theorem fits_descent (hroot : WellFormed R t.pager.pages h rootPageId)
    (hfits : ∀ q, (t.pager.pages q).Fits) (q : Nat) : (t.descentPages q).Fits := by
  rw [descentPages]
  split
  · rename_i hfull
    obtain ⟨⟨m, hm⟩, -⟩ := hroot.exists_midKey hfull
    obtain ⟨hleft, hright⟩ := hroot.fits_split (hfits _) hm (t.pager.pageCount + 1)
    rw [hm]
    dsimp only
    by_cases hq : q = rootPageId
    · rw [hq, rootSplitPages_root]
      exact hroot.fits_newRoot (hfits _) hm _ _
    · by_cases hqn : q = t.pager.pageCount
      · rw [hqn, rootSplitPages_left (hqn ▸ hq)]
        exact hleft
      · by_cases hqn' : q = t.pager.pageCount + 1
        · rw [hqn', rootSplitPages_right]
          exact hright
        · rw [rootSplitPages_of_ne hq hqn hqn']
          exact hfits q
  · exact hfits q

omit [LinearOrder K] in
/-- A root split makes the tree at most one level higher. -/
theorem descentHeight_le (t : BPlusTree K V) (h : Nat) : t.descentHeight h ≤ h + 1 := by
  rw [descentHeight]
  split
  · exact le_rfl
  · exact Nat.le_succ h

/-- Splitting the root writes two new pages, which nothing refers to, and then the new root. Only the
queue can refuse it. -/
theorem gwp_splitRoot {G : (Nat → Node K V) → (Nat → Node K V) → Prop}
    {Q : Unit → BPlusTree K V → Prop} {F : StorageError → BPlusTree K V → Prop}
    (ht : t.pager.Sized) (hroot : WellFormed R t.pager.pages h rootPageId)
    (hfits : ∀ q, (t.pager.pages q).Fits) {m : K}
    (hm : (t.pager.pages rootPageId).midKey? = some m)
    (hcan : (t.pager.pages rootPageId).canSplit)
    (hG : ∀ P P', t.OldPages P →
      t.OldPages P' ∨ P' = rootSplitPages t.pager.pages t.pager.pageCount m → G P P')
    (hQ : ∀ t' : BPlusTree K V, t'.pager.Sized →
      t'.pager.pages = rootSplitPages t.pager.pages t.pager.pageCount m →
      t'.pager.pageCount = t.pager.pageCount + 2 → Q () t')
    (hF : ∀ t' : BPlusTree K V, t'.pager.Sized → t.pager.pageCount ≤ t'.pager.pageCount →
      t.OldPages t'.pager.pages → F .walSaturated t') :
    (pagerDevice K V).gwp PagesBelow (onPages G) (splitRoot (t.pager.pages rootPageId)) Q F t := by
  have hpos : rootPageId < t.pager.pageCount := ht.pos
  have hold : t.OldPages t.pager.pages := fun _ _ ↦ rfl
  refine Device.gwp_bind guard_pagesBelow (gwp_allocatePage ht (hG _ _ hold (Or.inl hold))
    fun t₁ ht₁ hpages₁ hcount₁ ↦ ?_)
  have hold₂ := oldPages_update hold (q := t.pager.pageCount) le_rfl (t.pager.pages rootPageId)
  refine Device.gwp_bind guard_pagesBelow (gwp_saveNode ht₁ (by omega) _
    (hpages₁.symm ▸ hG _ _ hold (Or.inl hold₂)) (fun t₂ ht₂ hpages₂ hcount₂ ↦ ?_)
    fun e _ he ↦ he (hfits _) ▸ hF t₁ ht₁ (by omega) (hpages₁.symm ▸ hold))
  rw [hpages₁] at hpages₂
  have hself : t₂.pager.pages t.pager.pageCount = t.pager.pages rootPageId := by
    rw [hpages₂, Function.update_self]
  have hcount : t₂.pager.pageCount = t.pager.pageCount + 1 := by omega
  have hold₃ := oldPages_update hold₂ (q := t.pager.pageCount + 1) (Nat.le_succ _)
    (t.pager.pages rootPageId).splitRight
  have hold₄ := oldPages_update hold₃ (q := t.pager.pageCount) le_rfl
    ((t.pager.pages rootPageId).splitLeft (t.pager.pageCount + 1))
  refine Device.gwp_bind guard_pagesBelow (gwp_splitChild ht₂ (by omega) (hself ▸ hm)
    (hself ▸ hcan) ⟨le_rfl, le_rfl⟩ ?_ (fun t₃ ht₃ hpages₃ hcount₃ ↦ ?_) ?_)
  · rw [hself, hcount, hpages₂]
    exact ⟨hG _ _ hold₂ (Or.inl hold₂), hG _ _ hold₂ (Or.inl hold₃), hG _ _ hold₃ (Or.inl hold₄)⟩
  · rw [hself, hcount, hpages₂] at hpages₃
    have hnew : Function.update t₃.pager.pages rootPageId
        ⟨.internal, [m], [t.pager.pageCount, t₂.pager.pageCount], [], none⟩ =
        rootSplitPages t.pager.pages t.pager.pageCount m := by
      rw [rootSplitPages, splitPages, hpages₃, Function.update_self, hcount]
    refine gwp_saveNode ht₃ (by omega) _ ?_ (fun t₄ ht₄ hpages₄ hcount₄ ↦
      hQ t₄ ht₄ (hpages₄.trans hnew) (by omega)) fun e _ he ↦ ?_
    · exact hG _ _ (hpages₃.symm ▸ hold₄) (Or.inr hnew)
    · exact he (hroot.fits_newRoot (hfits _) hm _ _) ▸
        hF t₃ ht₃ (by omega) (hpages₃.symm ▸ hold₄)
  · intro e t₃ _ he ht₃ hcount₃ hpages₃
    obtain ⟨hleft, hright⟩ := hroot.fits_split (hfits _) hm t₂.pager.pageCount
    rw [hself] at he
    refine he ⟨hright, hleft⟩ ▸ hF t₃ ht₃ (by omega) ?_
    rcases hpages₃ with hpages₃ | hpages₃
    · rw [hpages₃, hpages₂]
      exact hold₂
    · rw [hpages₃, hself, hcount, hpages₂]
      exact hold₃

variable (bs) in
/-- The descent of an insertion begins on the tree under its new root, unless the queue refused the
root split. -/
theorem exists_descent (ht : t.pager.Sized) (hroot : WellFormed R t.pager.pages h rootPageId)
    (hfits : ∀ q, (t.pager.pages q).Fits) (hb : (t.insert bs k v).2.PagesBelow) :
    (t.insert bs k v).1 = .error .walSaturated ∨
      ∃ t₁ : BPlusTree K V, t₁.pager.Sized ∧ t₁.pager.pages = t.descentPages ∧
        t.pager.pageCount ≤ t₁.pager.pageCount ∧
        (pagerDevice K V).run
          (insertNonFull bs t.fuel rootPageId (t₁.pager.pages rootPageId) k v) t₁ =
            t.insert bs k v ∧
        (∀ s ∈ (pagerDevice K V).trace
          (insertNonFull bs t.fuel rootPageId (t₁.pager.pages rootPageId) k v) t₁,
          s ∈ (pagerDevice K V).points (insertProgram bs t.fuel k v) t) ∧
        ∃ s ∈ (pagerDevice K V).points (insertProgram bs t.fuel k v) t,
          s.pager.pages = t.descentPages := by
  show ((pagerDevice K V).run (if (t.pager.pages rootPageId).isFull then _ else _) t).1 = _ ∨
    ∃ t₁ : BPlusTree K V, _ ∧ _ ∧ _ ∧
      _ = (pagerDevice K V).run (if (t.pager.pages rootPageId).isFull then _ else _) t ∧
      (∀ s ∈ _, s ∈ (pagerDevice K V).points
        (if (t.pager.pages rootPageId).isFull then _ else _) t) ∧
      ∃ s ∈ (pagerDevice K V).points
        (if (t.pager.pages rootPageId).isFull then _ else _) t, _
  change ((pagerDevice K V).run
    (if (t.pager.pages rootPageId).isFull then _ else _) t).2.PagesBelow at hb
  by_cases hfull : (t.pager.pages rootPageId).isFull
  · obtain ⟨⟨m, hm⟩, hcan⟩ := hroot.exists_midKey hfull
    have hpages : t.descentPages = rootSplitPages t.pager.pages t.pager.pageCount m := by
      rw [descentPages, if_pos hfull, hm]
    rw [if_pos hfull] at hb ⊢
    have hsplit := Device.wp_of_gwp (gwp_splitRoot (G := fun _ _ ↦ True)
      (Q := fun _ t₁ ↦ t₁.pager.Sized ∧ t₁.pager.pages = t.descentPages ∧
        t.pager.pageCount ≤ t₁.pager.pageCount)
      (F := fun e _ ↦ e = .walSaturated) ht hroot hfits hm hcan (fun _ _ _ _ ↦ trivial)
      (fun t₁ ht₁ hpages₁ hcount₁ ↦ ⟨ht₁, hpages₁.trans hpages.symm, by omega⟩)
      fun _ _ _ _ ↦ rfl)
    rw [Device.run_bind] at hb ⊢
    rcases hrun : (pagerDevice K V).run
      (splitRoot ((pagerDevice K V).read rootPageId t)) t with ⟨e | u, t₁⟩
    · rw [hrun] at hb
      exact Or.inl (congrArg Except.error (Device.outcome_of_wp hsplit hrun hb))
    · rw [hrun] at hb
      obtain ⟨ht₁, hpages₁, hcount₁⟩ := Device.outcome_of_wp hsplit hrun (guard_pagesBelow.run _ hb)
      obtain ⟨s, hs, hobs⟩ := Device.exists_point (D := pagerDevice K V)
        (fun s : BPlusTree K V ↦ s.pager.pages)
        (fun _ _ _ _ hlog ↦ congrArg Pager.pages (pager_of_log hlog)) (fun _ ↦ rfl)
        (splitRoot ((pagerDevice K V).read rootPageId t)) t
      rw [hrun] at hobs
      exact Or.inr ⟨t₁, ht₁, hpages₁, hcount₁, rfl, fun s hs ↦
        Device.mem_points_bind_of_trace _ hrun hs, s, Device.mem_points_bind _ hs,
        hobs.trans hpages₁⟩
  · simp only [if_neg hfull] at hb ⊢
    have hpages : t.pager.pages = t.descentPages := by rw [descentPages, if_neg hfull]
    exact Or.inr ⟨t, ht, hpages, le_rfl, rfl, fun s hs ↦ List.mem_cons_of_mem t hs, t,
      List.mem_cons_self, hpages⟩

/-- **An insertion that splits nothing below the root**: its page writes, and the pages it leaves.
A node that does not fit is the leaf, before it is written. -/
theorem gwp_insertProgram_quiet (ht : t.pager.Sized)
    (hroot : WellFormed R t.pager.pages h rootPageId) (hfits : ∀ q, (t.pager.pages q).Fits)
    (hquiet : t.QuietBelowRoot bs k) :
    (pagerDevice K V).gwp PagesBelow (onPages (QuietWrite k v t))
      (insertProgram bs t.fuel k v)
      (fun _ t' ↦ t'.pager.Sized ∧ t.pager.pageCount ≤ t'.pager.pageCount ∧
        ∃ q, LeafPut k v t.descentPages t'.pager.pages q ∧
          lookupBelow bs k t'.pager.pages (t.descentHeight h) rootPageId = some v)
      (fun e t' ↦ t'.pager.Sized ∧ t.pager.pageCount ≤ t'.pager.pageCount ∧
        (e = .nodeTooLarge → t'.pager.pages = t.descentPages)) t := by
  have hheight : h < t.pager.pageCount := hroot.height_lt ht.blank
  have hdescent := wellFormed_descent ht hroot
  have hfits' := fits_descent hroot hfits
  refine Device.gwp_read ?_
  show (pagerDevice K V).gwp PagesBelow _
    (if (t.pager.pages rootPageId).isFull then _ else _) _ _ t
  split
  · rename_i hfull
    obtain ⟨⟨m, hm⟩, hcan⟩ := hroot.exists_midKey hfull
    have hpages : t.descentPages = rootSplitPages t.pager.pages t.pager.pageCount m := by
      rw [descentPages, if_pos hfull, hm]
    refine Device.gwp_bind guard_pagesBelow (gwp_splitRoot ht hroot hfits hm hcan
      (fun P P' hP hP' ↦ Or.inl ⟨hfull, hP, hpages ▸ hP'⟩) (fun t₁ ht₁ hpages₁ hcount₁ ↦ ?_)
      fun t₁ ht₁ hcount₁ hold₁ ↦ ⟨ht₁, hcount₁, by rintro ⟨⟩⟩)
    rw [← hpages] at hpages₁
    refine Device.gwp_read (Device.gwp_mono (gwp_insertNonFull_quiet ht₁ (hpages₁ ▸ hdescent)
      (hpages₁ ▸ hfits') (hpages₁ ▸ hquiet) ?_) (fun s s' hs ↦ ?_) (fun _ t₂ _ h₂ ↦ ?_) fun e t₂ _ h₂ ↦ ?_)
    · rw [descentHeight, if_pos hfull]
      exact Nat.succ_lt_succ hheight
    · rw [onPages, hpages₁] at hs
      exact Or.inr hs
    · rw [hpages₁] at h₂
      exact ⟨h₂.1, by omega, h₂.2.2⟩
    · rw [hpages₁] at h₂
      obtain ⟨ht₂, hcount₂, -, hpages₂⟩ := h₂
      refine ⟨ht₂, by omega, fun he ↦ hpages₂.resolve_right fun hs ↦ ?_⟩
      rw [he] at hs
      cases hs.1
  · rename_i hfull
    have hpages : t.descentPages = t.pager.pages := by rw [descentPages, if_neg hfull]
    have hh : t.descentHeight h = h := by rw [descentHeight, if_neg hfull]
    rw [BPlusTree.QuietBelowRoot, hpages] at hquiet
    refine Device.gwp_mono (gwp_insertNonFull_quiet ht hroot hfits hquiet
      (Nat.lt_succ_of_lt hheight)) (fun s s' hs ↦ ?_) (fun _ t₂ _ h₂ ↦ ?_) fun e t₂ _ h₂ ↦ ?_
    · rw [← hpages] at hs
      exact Or.inr hs
    · rw [hpages, hh]
      exact ⟨h₂.1, by omega, h₂.2.2⟩
    · obtain ⟨ht₂, hcount₂, -, hpages₂⟩ := h₂
      refine ⟨ht₂, by omega, fun he ↦ ?_⟩
      rw [hpages]
      refine hpages₂.resolve_right fun hs ↦ ?_
      rw [he] at hs
      cases hs.1

end Insert

end KsSql
