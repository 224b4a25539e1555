import KsSql.Storage.ThreadReads
import KsSql.Util.PageShares

/-!
# Insertions beside each other

Any number of insertions and lookups run beside each other on the pager's thread. An insertion is in
place if neither the root nor any node on its way down is full: it writes the leaf of its key, and the
nodes above it as they were. Insertions in place into different leaves keep to an agreement on the pages
(`BPlusTree.shares`), under which each leaf is the page of one of them and the nodes above the leaves do
not change. So none of them is lost, in whatever order the tasks and the thread take their steps, and the
lookups beside them find what was there or what is inserted (`inserts_beside_each_other`).
-/

namespace KsSql

open BPlusTree PageProgram

/-! ### The leaf of a key -/

section Leaf

variable {K V : Type} [LinearOrder K] {R : K → V → Prop} (bs : BinarySearch K) (key : K)

/-- The leaf to which a descent for the key leads, in so many steps. -/
def leafBelow (P : Nat → Node K V) : Nat → Nat → Nat
  | 0, p => p
  | fuel + 1, p =>
    match (P p).children[childIndex bs (P p) key]? with
    | some c => leafBelow P fuel c
    | none => p

variable {bs key} {P P' : Nat → Node K V} {fuel h p c : Nat}

theorem leafBelow_leaf (hp : (P p).LeafShape) : leafBelow bs key P fuel p = p := by
  cases fuel with
  | zero => rfl
  | succ fuel =>
    rw [leafBelow, hp.children_eq]
    rfl

theorem leafBelow_internal (hc : (P p).children[childIndex bs (P p) key]? = some c) :
    leafBelow bs key P (fuel + 1) p = leafBelow bs key P fuel c := by
  rw [leafBelow, hc]

variable (bs key) in
theorem WellFormed.exists_child (hp : WellFormed R P (h + 1) p) :
    ∃ c, (P p).children[childIndex bs (P p) key]? = some c ∧ WellFormed R P h c := by
  have hlen := hp.1.length_eq
  have hc := List.getElem?_eq_getElem (childIndex_lt bs (by omega : 0 < (P p).children.length) key)
  exact ⟨_, hc, (hp.2 _ (List.mem_of_getElem? hc)).2⟩

variable (bs key) in
theorem wellFormed_leafBelow : ∀ {fuel h p : Nat}, WellFormed R P h p → h ≤ fuel →
    WellFormed R P 0 (leafBelow bs key P fuel p)
  | fuel, 0, p, hp, _ => by
    rw [leafBelow_leaf hp.leafOk.shape]
    exact hp
  | fuel + 1, h + 1, p, hp, hle => by
    obtain ⟨c, hc, hchild⟩ := hp.exists_child bs key
    rw [leafBelow_internal hc]
    exact wellFormed_leafBelow hchild (Nat.le_of_succ_le_succ hle)

end Leaf

/-- A leaf with a binding put into it. -/
structure NodePut {K V : Type} [LinearOrder K] (k : K) (v : V) (n n' : Node K V) : Prop where
  shape : n'.LeafShape
  entries_eq : n'.entries = SortedAssoc.upsert k v n.entries
  nextLeaf_eq : n'.nextLeaf = n.nextLeaf

/-- What a task does with the tree. -/
inductive TreeOperation (K V : Type)
  | put (key : K) (value : V)
  | get (key : K)

section Operations

variable {K V ι : Type} [LinearOrder K] [ByteLen K] [ByteLen V]

/-- `BPlusTree::insert` or `BPlusTree::get`, on the pages. -/
def TreeOperation.program (bs : BinarySearch K) (t : BPlusTree K V) :
    TreeOperation K V → Program K V (Option V)
  | .put k v => insertProgram bs t.fuel k v >>= fun _ ↦ .done none
  | .get k => getLoop bs k t.fuel rootPageId

namespace BPlusTree

variable (bs : BinarySearch K) (t : BPlusTree K V)

/-- The leaf to which the key belongs. -/
def leafOf (key : K) : Nat := leafBelow bs key t.pager.pages t.fuel rootPageId

/-- An insertion of the key meets no full node. -/
def InPlace (key : K) : Prop :=
  ¬ (t.pager.pages rootPageId).isFull ∧
    OnRoute bs (fun _ _ ↦ False) key t.pager.pages t.fuel (t.pager.pages rootPageId)

instance (key : K) : Decidable (t.InPlace bs key) := inferInstanceAs (Decidable (_ ∧ _))

/-- A leaf holds its bindings, perhaps with the one that is put into it; other pages do not change. -/
def shares (ops : ι → TreeOperation K V) : PageShares (Node K V) where
  Holds pid n := n = t.pager.pages pid ∨
    ∃ i k v, ops i = .put k v ∧ t.leafOf bs k = pid ∧ NodePut k v (t.pager.pages pid) n
  Writable pid := pid < t.pager.pageCount

/-- The leaf that an operation changes. -/
def own : TreeOperation K V → Option Nat
  | .put k _ => some (t.leafOf bs k)
  | .get _ => none

end BPlusTree

variable {R : K → V → Prop} {bs : BinarySearch K} {S : PageShares (Node K V)} {P : Nat → Node K V}
  {k key : K} {v : V} {leaf : Nat}

/-! ### The operations keep to the agreement -/

omit [LinearOrder K] in
/-- A node that is saved is written to the routine's own page. -/
theorem within_saveNode {own : Option Nat} {Q : Unit → Node K V → Prop} {F : Node K V → Prop} {q : Nat}
    {n c : Node K V} (hw : S.Writable q) (hF : F c) (hmine : own = some q → S.Holds q n ∧ Q () n)
    (hother : own ≠ some q → (∀ n', S.Holds q n' → n' = n) ∧ Q () c) :
    (saveNode q n).Within S own Q F c := by
  rw [saveNode, Node.toBytes]
  split
  · exact hF
  · rename_i hok
    split at hok
    · cases hok
    · cases hok
      exact ⟨hF, hw, hmine, hother⟩

/-- What an insertion leaves in its leaf. -/
abbrev Inserted (k : K) (v : V) (P : Nat → Node K V) (leaf : Nat) : Unit → Node K V → Prop :=
  fun _ c ↦ NodePut k v (P leaf) c

/-- What is in the leaf of an insertion that fails. -/
abbrev Perhaps (k : K) (v : V) (P : Nat → Node K V) (leaf : Nat) (c : Node K V) : Prop :=
  c = P leaf ∨ NodePut k v (P leaf) c

theorem within_insertLeaf (hn : (P leaf).LeafShape) (hw : S.Writable leaf)
    (hput : ∀ n, NodePut k v (P leaf) n → S.Holds leaf n) :
    (insertLeaf bs leaf (P leaf) k v).Within S (some leaf) (Inserted k v P leaf) (Perhaps k v P leaf)
      (P leaf) := by
  have hsorted : (P leaf).keys.Pairwise (· ≤ ·) := hn.sorted.imp le_of_lt
  have hsave : ∀ {n : Node K V}, NodePut k v (P leaf) n →
      (saveNode leaf n).Within S (some leaf) (Inserted k v P leaf) (Perhaps k v P leaf) (P leaf) :=
    fun hn' ↦ within_saveNode hw (Or.inl rfl) (fun _ ↦ ⟨hput _ hn', hn'⟩) fun hne ↦ absurd rfl hne
  rw [insertLeaf]
  split
  · rename_i i hs
    obtain ⟨hshape, hentries⟩ := leafShape_set hn v (bs.ok_spec hsorted hs)
    exact Within.bind (Q := fun _ c ↦ c = P leaf) (fun _ c hc ↦ hc ▸ hsave ⟨hshape, hentries, rfl⟩)
      (within_require (fun _ ↦ rfl) (Or.inl rfl))
  · rename_i i hs
    obtain ⟨hi, hlt, hgt⟩ := bs.error_spec hsorted hs
    obtain ⟨hshape, hentries⟩ := leafShape_insertIdx hn v hi hlt hgt
    exact Within.bind (Q := fun _ c ↦ c = P leaf) (fun _ c hc ↦ hc ▸ hsave ⟨hshape, hentries, rfl⟩)
      (within_require (fun _ ↦ rfl) (Or.inl rfl))

/-- **A descent** that meets no full node writes the leaf, and the nodes above it as they were. -/
theorem within_insertNonFull
    (hinner : ∀ {h p}, WellFormed R P (h + 1) p → ∀ n, S.Holds p n → n = P p)
    (hput : ∀ n, NodePut k v (P leaf) n → S.Holds leaf n)
    (hw : ∀ {h p}, WellFormed R P h p → S.Writable p) :
    ∀ {fuel h p : Nat}, WellFormed R P h p → h < fuel →
      OnRoute bs (fun _ _ ↦ False) k P fuel (P p) → leafBelow bs k P fuel p = leaf →
      (insertNonFull bs fuel p (P p) k v).Within S (some leaf) (Inserted k v P leaf)
        (Perhaps k v P leaf) (P leaf)
  | fuel + 1, 0, p, hp, _, _, hleaf => by
    obtain rfl : p = leaf := (leafBelow_leaf hp.leafOk.shape).symm.trans hleaf
    simp only [insertNonFull, hp.leafOk.shape.isLeaf]
    exact within_insertLeaf hp.leafOk.shape (hw hp) hput
  | fuel + 1, h + 1, p, hp, hfuel, hroute, hleaf => by
    obtain ⟨c, hc, hchild⟩ := hp.exists_child bs k
    have hleaf' : leafBelow bs k P fuel c = leaf := (leafBelow_internal hc).symm.trans hleaf
    have hle : h ≤ fuel := Nat.le_of_succ_le (Nat.lt_of_succ_lt_succ hfuel)
    simp only [insertNonFull, hp.1.isInternal, hc]
    unfold OnRoute at hroute
    simp only [hp.1.isInternal, hc] at hroute
    have hnotFull : ¬ (P c).isFull := fun hfull ↦ by
      obtain ⟨⟨m, hm⟩, -⟩ := hchild.exists_midKey hfull
      rw [SplitStep, if_pos hfull, hm] at hroute
      exact hroute.1
    rw [SplitStep, if_neg hnotFull] at hroute
    -- the node is no leaf, and is written back as it was
    have hne : leaf ≠ p := fun heq ↦ by
      have hleafOk := wellFormed_leafBelow bs k hchild hle
      rw [hleaf', heq] at hleafOk
      have hkind := hleafOk.leafOk.shape.isLeaf
      rw [hp.1.isInternal] at hkind
      cases hkind
    have hnext : (do
        insertNonFull bs fuel c (P c) k v
        saveNode p (P p) : Program K V Unit).Within S (some leaf) (Inserted k v P leaf)
          (Perhaps k v P leaf) (P leaf) := by
      refine Within.bind (fun _ n hn ↦ ?_) (within_insertNonFull hinner hput hw hchild
        (Nat.lt_of_succ_lt_succ hfuel) hroute hleaf')
      exact within_saveNode (hw hp) (Or.inr hn) (fun heq ↦ absurd (Option.some.inj heq) hne)
        fun _ ↦ ⟨hinner hp, hn⟩
    refine ⟨fun hown ↦ ?_, fun hown n hn ↦ ?_⟩
    · obtain rfl : leaf = c := Option.some.inj hown
      show (if (P leaf).isFull then _ else _ : Program K V Unit).Within _ _ _ _ _
      rw [if_neg hnotFull]
      exact hnext
    · -- a child that is no leaf holds what it held
      have hsame : n = P c := by
        cases h with
        | zero =>
          refine absurd (congrArg some ?_) hown
          exact hleaf'.symm.trans (leafBelow_leaf hchild.leafOk.shape)
        | succ h => exact hinner hchild n hn
      rw [hsame]
      show (if (P c).isFull then _ else _ : Program K V Unit).Within _ _ _ _ _
      rw [if_neg hnotFull]
      exact hnext

omit [ByteLen K] [ByteLen V] in
/-- **A lookup** finds in the leaf of its key what the leaf holds. -/
theorem within_getLoop {Q : Option V → Prop} {c : Node K V}
    (hinner : ∀ {h p}, WellFormed R P (h + 1) p → ∀ n, S.Holds p n → n = P p)
    (hleaf : ∀ {p}, WellFormed R P 0 p → ∀ n, S.Holds p n → n.LeafShape) :
    ∀ {fuel h p : Nat}, WellFormed R P h p → h < fuel →
      (∀ n, S.Holds (leafBelow bs key P fuel p) n → Q (n.entries.lookup key)) →
      (getLoop bs key fuel p).Within S none (fun r _ ↦ Q r) (fun _ ↦ False) c
  | fuel + 1, 0, p, hp, _, hQ => by
    rw [getLoop_succ]
    refine ⟨fun hown ↦ absurd hown (Option.some_ne_none p).symm, fun _ n hn ↦ ?_⟩
    rw [leafBelow_leaf hp.leafOk.shape] at hQ
    show (getNode bs key fuel n).Within S none _ _ c
    rw [getNode_leaf bs key (hleaf hp n hn)]
    exact hQ n hn
  | fuel + 1, h + 1, p, hp, hfuel, hQ => by
    obtain ⟨child, hc, hchild⟩ := hp.exists_child bs key
    rw [getLoop_succ]
    refine ⟨fun hown ↦ absurd hown (Option.some_ne_none p).symm, fun _ n hn ↦ ?_⟩
    rw [leafBelow_internal hc] at hQ
    obtain rfl : n = P p := hinner hp n hn
    show (getNode bs key fuel (P p)).Within S none _ _ c
    rw [getNode_internal bs key hp.1.isInternal hc]
    exact within_getLoop hinner hleaf hchild (Nat.lt_of_succ_lt_succ hfuel) hQ

/-! ### The tree meanwhile -/

section Meanwhile

variable {P' : Nat → Node K V}

omit [ByteLen K] [ByteLen V] in
/-- A lookup finds what the leaf of the key holds. -/
theorem lookupBelow_of_holds
    (hinner : ∀ {h p}, WellFormed R P (h + 1) p → ∀ n, S.Holds p n → n = P p)
    (hP' : ∀ p, S.Holds p (P' p)) :
    ∀ {fuel h p : Nat}, WellFormed R P h p → h ≤ fuel →
      lookupBelow bs key P' h p = (P' (leafBelow bs key P fuel p)).entries.lookup key
  | fuel, 0, p, hp, _ => by
    rw [lookupBelow, leafBelow_leaf hp.leafOk.shape]
  | fuel + 1, h + 1, p, hp, hle => by
    obtain ⟨c, hc, hchild⟩ := hp.exists_child bs key
    rw [lookupBelow, hinner hp _ (hP' p), hc, leafBelow_internal hc]
    exact lookupBelow_of_holds hinner hP' hchild (Nat.le_of_succ_le_succ hle)

omit [ByteLen K] [ByteLen V] in
/-- The tree stays well formed. -/
theorem wellFormed_of_holds
    (hinner : ∀ {h p}, WellFormed AnyBinding P (h + 1) p → ∀ n, S.Holds p n → n = P p)
    (hleaf : ∀ {p}, WellFormed AnyBinding P 0 p → ∀ n, S.Holds p n →
      n.LeafShape ∧ n.nextLeaf = (P p).nextLeaf)
    (hP' : ∀ p, S.Holds p (P' p)) :
    ∀ {h p : Nat}, WellFormed AnyBinding P h p → WellFormed AnyBinding P' h p
  | 0, p, ⟨l, hl⟩ => by
    refine ⟨l, ?_⟩
    induction hl with
    | @last p hok hnone =>
      obtain ⟨hshape, hnext⟩ := hleaf ⟨_, .last hok hnone⟩ _ (hP' p)
      exact .last ⟨hshape, fun _ _ ↦ trivial⟩ (hnext.trans hnone)
    | @next p q l hok hsome hq hl ih =>
      obtain ⟨hshape, hnext⟩ := hleaf ⟨_, .next hok hsome hq hl⟩ _ (hP' p)
      exact .next ⟨hshape, fun _ _ ↦ trivial⟩ (hnext.trans hsome) hq ih
  | h + 1, p, hp => by
    rw [WellFormed, hinner hp _ (hP' p)]
    exact ⟨hp.1, fun c hc ↦ ⟨(hp.2 c hc).1, wellFormed_of_holds hinner hleaf hP' (hp.2 c hc).2⟩⟩

end Meanwhile

/-! ### Insertions in place into different leaves -/

variable {t : BPlusTree K V} {ops : ι → TreeOperation K V} {h₀ : Nat}

/-- Every insertion is in place, and no two of them are into the same leaf. -/
structure Apart (bs : BinarySearch K) (t : BPlusTree K V) (ops : ι → TreeOperation K V) : Prop where
  inPlace : ∀ i k v, ops i = .put k v → t.InPlace bs k
  leaves : ∀ i j k v k' v', ops i = .put k v → ops j = .put k' v' → t.leafOf bs k = t.leafOf bs k' →
    i = j

theorem Apart.own_inj (h : Apart bs t ops) (i j : ι) (pid : Nat) (hi : t.own bs (ops i) = some pid)
    (hj : t.own bs (ops j) = some pid) : i = j := by
  rcases hopi : ops i with ⟨k, v⟩ | key
  · rcases hopj : ops j with ⟨k', v'⟩ | key
    · rw [hopi] at hi
      rw [hopj] at hj
      exact h.leaves i j k v k' v' hopi hopj (Option.some.inj (hi.trans hj.symm))
    · rw [hopj] at hj
      cases hj
  · rw [hopi] at hi
    cases hi

omit [ByteLen K] [ByteLen V] in
variable (bs) in
theorem wellFormed_leafOf (ht : t.pager.Sized) (hroot : WellFormed R t.pager.pages h₀ rootPageId)
    (key : K) : WellFormed R t.pager.pages 0 (t.leafOf bs key) :=
  wellFormed_leafBelow bs key hroot (Nat.le_succ_of_le (hroot.height_lt ht.blank).le)

omit [ByteLen K] [ByteLen V] in
theorem lt_pageCount_of_own (ht : t.pager.Sized) (hroot : WellFormed R t.pager.pages h₀ rootPageId)
    {op : TreeOperation K V} {q : Nat} (hq : t.own bs op = some q) : q < t.pager.pageCount := by
  rcases op with ⟨k, v⟩ | key
  · obtain rfl := Option.some.inj hq
    exact lt_pageCount_of_wellFormed ht (wellFormed_leafOf bs ht hroot k)
  · cases hq

omit [ByteLen K] [ByteLen V] in
/-- Nodes above the leaves do not change. -/
theorem shares_inner (ht : t.pager.Sized) (hroot : WellFormed R t.pager.pages h₀ rootPageId)
    {h p : Nat} (hp : WellFormed R t.pager.pages (h + 1) p) (n : Node K V)
    (hn : (t.shares bs ops).Holds p n) : n = t.pager.pages p := by
  rcases hn with hn | ⟨i, k, v, -, rfl, -⟩
  · exact hn
  · have hkind := (wellFormed_leafOf bs ht hroot k).leafOk.shape.isLeaf
    rw [hp.1.isInternal] at hkind
    cases hkind

omit [ByteLen K] [ByteLen V] in
/-- Leaves stay leaves, and where they are in the chain. -/
theorem shares_leaf {p : Nat} (hp : WellFormed R t.pager.pages 0 p) (n : Node K V)
    (hn : (t.shares bs ops).Holds p n) :
    n.LeafShape ∧ n.nextLeaf = (t.pager.pages p).nextLeaf := by
  rcases hn with rfl | ⟨i, k, v, -, -, hput⟩
  · exact ⟨hp.leafOk.shape, rfl⟩
  · exact ⟨hput.shape, hput.nextLeaf_eq⟩

omit [ByteLen K] [ByteLen V] in
/-- What a lookup finds in a leaf: what the tree has for the key, or what is being inserted for it. -/
theorem lookup_of_shares (ht : t.pager.Sized) (hroot : WellFormed R t.pager.pages h₀ rootPageId)
    {n : Node K V} (hn : (t.shares bs ops).Holds (t.leafOf bs key) n) :
    t.getPages bs key = .ok (n.entries.lookup key) ∨
      ∃ i v, ops i = .put key v ∧ n.entries.lookup key = some v := by
  have hold : t.getPages bs key = .ok ((t.pager.pages (t.leafOf bs key)).entries.lookup key) := by
    rw [getPages_eq_lookupBelow ht hroot, lookupBelow_of_holds (S := t.shares bs ops)
      (shares_inner ht hroot) (fun _ ↦ Or.inl rfl) hroot
      (Nat.le_succ_of_le (hroot.height_lt ht.blank).le)]
    rfl
  rcases hn with rfl | ⟨i, k, v, hi, -, hput⟩
  · exact Or.inl hold
  · rw [hput.entries_eq]
    rcases eq_or_ne key k with rfl | hne
    · exact Or.inr ⟨i, v, hi, SortedAssoc.lookup_upsert_self _ _ _⟩
    · rw [SortedAssoc.lookup_upsert_of_ne hne]
      exact Or.inl hold

omit [ByteLen K] [ByteLen V] in
variable (key) in
/-- What a lookup finds in a tree whose pages hold what was agreed. -/
theorem getPages_of_shares (ht : t.pager.Sized)
    (hroot : WellFormed AnyBinding t.pager.pages h₀ rootPageId) {t' : BPlusTree K V}
    (ht' : t'.pager.Sized) (hP : ∀ p, (t.shares bs ops).Holds p (t'.pager.pages p)) :
    ∃ found, t'.getPages bs key = .ok found ∧
      (t.getPages bs key = .ok found ∨ ∃ i v, ops i = .put key v ∧ found = some v) ∧
      ∀ v, NodePut key v (t.pager.pages (t.leafOf bs key)) (t'.pager.pages (t.leafOf bs key)) →
        found = some v := by
  have hroot' : WellFormed AnyBinding t'.pager.pages h₀ rootPageId :=
    wellFormed_of_holds (shares_inner ht hroot) shares_leaf hP hroot
  have hfound : t'.getPages bs key =
      .ok ((t'.pager.pages (t.leafOf bs key)).entries.lookup key) := by
    rw [getPages_eq_lookupBelow ht' hroot', lookupBelow_of_holds (shares_inner ht hroot) hP hroot
      (Nat.le_succ_of_le (hroot.height_lt ht.blank).le)]
    rfl
  refine ⟨_, hfound, lookup_of_shares ht hroot (hP _), fun v hput ↦ ?_⟩
  rw [hput.entries_eq, SortedAssoc.lookup_upsert_self]

/-- What an operation has done when it is over, with what its leaf holds then. -/
def TreeOperation.Done (bs : BinarySearch K) (t : BPlusTree K V) (ops : ι → TreeOperation K V) :
    TreeOperation K V → Option V → Node K V → Prop
  | .put k v, _, c => NodePut k v (t.pager.pages (t.leafOf bs k)) c
  | .get key, found, _ =>
    t.getPages bs key = .ok found ∨ ∃ i v, ops i = .put key v ∧ found = some v

/-- What the leaf of an operation holds when it has failed. -/
def TreeOperation.Failed (bs : BinarySearch K) (t : BPlusTree K V) : TreeOperation K V → Node K V → Prop
  | .put k v, c => Perhaps k v t.pager.pages (t.leafOf bs k) c
  | .get _, _ => False

/-- **The operations keep to the agreement.** -/
theorem within_program (ht : t.pager.Sized) (hroot : WellFormed R t.pager.pages h₀ rootPageId)
    (hapart : Apart bs t ops) (i : ι) :
    ((ops i).program bs t).Within (t.shares bs ops) (t.own bs (ops i)) ((ops i).Done bs t ops)
      ((ops i).Failed bs t) (t.pager.pages ((t.own bs (ops i)).getD rootPageId)) := by
  have hfuel : h₀ < t.fuel := Nat.lt_succ_of_lt (hroot.height_lt ht.blank)
  rcases hop : ops i with ⟨k, v⟩ | key
  · obtain ⟨hnotFull, hroute⟩ := hapart.inPlace i k v hop
    have hinsert : (insertNonFull bs t.fuel rootPageId (t.pager.pages rootPageId) k v).Within
        (t.shares bs ops) (some (t.leafOf bs k)) (Inserted k v t.pager.pages (t.leafOf bs k))
        (Perhaps k v t.pager.pages (t.leafOf bs k)) (t.pager.pages (t.leafOf bs k)) :=
      within_insertNonFull (shares_inner ht hroot)
        (fun n hn ↦ Or.inr ⟨i, k, v, hop, rfl, hn⟩) (lt_pageCount_of_wellFormed ht) hroot hfuel
        hroute rfl
    have hread : ∀ (n : Node K V) (split : Program K V Unit), n = t.pager.pages rootPageId →
        (if n.isFull then split else insertNonFull bs t.fuel rootPageId n k v).Within
          (t.shares bs ops) (some (t.leafOf bs k)) (Inserted k v t.pager.pages (t.leafOf bs k))
          (Perhaps k v t.pager.pages (t.leafOf bs k)) (t.pager.pages (t.leafOf bs k)) := by
      rintro n split rfl
      rw [if_neg hnotFull]
      exact hinsert
    refine Within.bind (fun _ c hc ↦ hc) (?_ : (insertProgram bs t.fuel k v).Within _ _
      (Inserted k v t.pager.pages (t.leafOf bs k)) _ _)
    rw [insertProgram, readPage_bind]
    refine ⟨fun hown ↦ ?_, fun hown n hn ↦ hread n _ ?_⟩
    · have hleaf : t.leafOf bs k = rootPageId := Option.some.inj hown
      exact hread _ _ (congrArg t.pager.pages hleaf)
    · -- a root that is another page than the leaf is no leaf
      cases h₀ with
      | zero => exact absurd (congrArg some (leafBelow_leaf hroot.leafOk.shape)) hown
      | succ h₀ => exact shares_inner ht hroot hroot n hn
  · exact within_getLoop (shares_inner ht hroot) (fun hp n hn ↦ (shares_leaf hp n hn).1) hroot hfuel
      fun n hn ↦ lookup_of_shares ht hroot hn

end Operations

/-! ### On the pager's thread -/

variable {α ι : Type} [DecidableEq ι]

/-- Where the task of a routine stands that writes only pages below the given length: before the rest of
the routine, or behind the write of a page, before it looks whether the file has become longer. -/
inductive Stands (length : Nat) (p : Program Bytes Bytes α) : NodeTask (Except StorageError α) → Prop
  | ready : Stands length p (NodeTask.ofProgram p)
  | written (pageId : Nat) : pageId * pageSize < length → Stands length p
      (.access .loadLength fun (currentLen : Nat) ↦
        if pageId * pageSize ≥ currentLen then
          .access (.storeLength (pageId * pageSize + pageSize)) fun _ ↦ NodeTask.ofProgram p
        else NodeTask.ofProgram p)

/-- What is left of the routine of a task that is over. -/
theorem Stands.over {length : Nat} {p : Program Bytes Bytes α} {outcome : Except StorageError α}
    (h : Stands length p (.done outcome)) :
    (∃ a, p = .done a ∧ outcome = .ok a) ∨ ∃ e, p = .fail e ∧ outcome = .error e := by
  generalize hq : (Session.done outcome : NodeTask (Except StorageError α)) = q at h
  cases h with
  | ready => exact NodeTask.over_of_done hq.symm
  | written pageId hlt => cases hq

section Race

variable {S : PageShares (Node Bytes Bytes)} {own : ι → Option Nat}
  {Q : ι → α → Node Bytes Bytes → Prop} {F : ι → Node Bytes Bytes → Prop} {t : BPlusTree Bytes Bytes}

/-- Routines that keep to an agreement, in the middle of a run from the tree `t`. -/
structure Sharing (S : PageShares (Node Bytes Bytes)) (own : ι → Option Nat)
    (Q : ι → α → Node Bytes Bytes → Prop) (F : ι → Node Bytes Bytes → Prop) (t : BPlusTree Bytes Bytes)
    (y : (ι → NodeTask (Except StorageError α)) × BPlusTree Bytes Bytes) (P : Nat → Node Bytes Bytes)
    (c : ι → Node Bytes Bytes) (p : ι → Program Bytes Bytes α) : Prop where
  owned : Owned S own t.pager.pages P c
  within : ∀ i, (p i).Within S (own i) (Q i) (F i) (c i)
  stands : ∀ i, Stands t.pager.fileLength (p i) (y.1 i)
  pager : y.2.pager = { t.pager with pages := P }

/-- The task of one routine has taken a step. -/
theorem Sharing.update {y : (ι → NodeTask (Except StorageError α)) × BPlusTree Bytes Bytes}
    {P P' : Nat → Node Bytes Bytes} {c : ι → Node Bytes Bytes} {p : ι → Program Bytes Bytes α}
    (h : Sharing S own Q F t y P c p) {i : ι} {n : Node Bytes Bytes} {p' : Program Bytes Bytes α}
    {q : NodeTask (Except StorageError α)} {u : BPlusTree Bytes Bytes}
    (howned : Owned S own t.pager.pages P' (Function.update c i n))
    (hwithin : p'.Within S (own i) (Q i) (F i) n) (hstands : Stands t.pager.fileLength p' q)
    (hpager : u.pager = { t.pager with pages := P' }) :
    Sharing S own Q F t (Function.update y.1 i q, u) P' (Function.update c i n)
      (Function.update p i p') := by
  refine ⟨howned, fun j ↦ ?_, fun j ↦ ?_, hpager⟩
  · rcases eq_or_ne j i with rfl | hj
    · rw [Function.update_self, Function.update_self]
      exact hwithin
    · rw [Function.update_of_ne hj, Function.update_of_ne hj]
      exact h.within j
  · show Stands _ (Function.update p i p' j) (Function.update y.1 i q j)
    rcases eq_or_ne j i with rfl | hj
    · rw [Function.update_self, Function.update_self]
      exact hstands
    · rw [Function.update_of_ne hj, Function.update_of_ne hj]
      exact h.stands j

/-- **A step** of any of the tasks keeps to the agreement. -/
theorem Sharing.step (hS : ∀ pageId, S.Writable pageId → pageId * pageSize < t.pager.fileLength)
    (hown : ∀ i j pid, own i = some pid → own j = some pid → i = j)
    {x y : (ι → NodeTask (Except StorageError α)) × BPlusTree Bytes Bytes} (hstep : nodeService.Atomic x y)
    (hx : ∃ P c p, Sharing S own Q F t x P c p) : ∃ P c p, Sharing S own Q F t y P c p := by
  obtain ⟨P, c, p, h⟩ := hx
  cases hstep with
  | @step i tasks q s u hi =>
    have hsame : Owned S own t.pager.pages P (Function.update c i (c i)) := by
      rw [Function.update_eq_self]
      exact h.owned
    have hwithin := h.within i
    have hstands : Stands t.pager.fileLength (p i) (tasks i) := h.stands i
    have hpager : s.pager = { t.pager with pages := P } := h.pager
    generalize hp : p i = r at hwithin hstands
    generalize tasks i = q₀ at hi hstands
    cases hstands with
    | ready =>
      cases r with
      | done a => cases hi
      | fail e => cases hi
      | read pageId next =>
        cases hi
        show ∃ P c p, Sharing S own Q F t
          (Function.update tasks i (NodeTask.ofProgram (next (s.pager.pages pageId))), s) P c p
        have hpage : s.pager.pages pageId = P pageId := by rw [hpager]
        rw [hpage]
        exact ⟨P, _, _, h.update hsame (h.owned.read hwithin) .ready hpager⟩
      | write pageId n next =>
        cases hi
        obtain ⟨n', hnext, howned⟩ := h.owned.write hown hwithin
        refine ⟨_, _, _, h.update howned hnext (.written pageId (hS pageId hwithin.1)) ?_⟩
        show { s.pager with pages := Function.update s.pager.pages pageId n } = _
        rw [hpager]
      | log pageId n next =>
        cases hi
        show ∃ P c p, Sharing S own Q F t
          (Function.update tasks i (NodeTask.propagate (s.enqueue pageId n).1 (NodeTask.ofProgram next)),
            (s.enqueue pageId n).2) P c p
        rw [BPlusTree.enqueue]
        rcases s.wal.enqueue (.pageUpdate pageId n) with e | wal
        · exact ⟨P, _, _, Sharing.update h hsame (show (PageProgram.fail e).Within _ _ _ _ _ from hwithin.1)
            .ready hpager⟩
        · exact ⟨P, _, _, h.update hsame hwithin.2 .ready hpager⟩
      | numPages next => exact hwithin.elim
    | written pageId hlt =>
      cases hi
      have hlength : s.pager.fileLength = t.pager.fileLength := by rw [hpager]
      have hnot : ¬ pageId * pageSize ≥ s.pager.fileLength := by
        rw [hlength]
        exact not_le.2 hlt
      show ∃ P c p, Sharing S own Q F t
        (Function.update tasks i (if pageId * pageSize ≥ s.pager.fileLength then
          .access (.storeLength (pageId * pageSize + pageSize)) fun _ ↦ NodeTask.ofProgram r
          else NodeTask.ofProgram r), s) P c p
      rw [if_neg hnot]
      exact ⟨P, _, _, h.update hsame hwithin .ready hpager⟩

/-- **A run** of routines that keep to an agreement. -/
theorem exists_sharing {routines : ι → Program Bytes Bytes α} {c : ι → Node Bytes Bytes}
    (hS : ∀ pageId, S.Writable pageId → pageId * pageSize < t.pager.fileLength)
    (hown : ∀ i j pid, own i = some pid → own j = some pid → i = j)
    (howned : Owned S own t.pager.pages t.pager.pages c)
    (hwithin : ∀ i, (routines i).Within S (own i) (Q i) (F i) (c i))
    {y : (ι → NodeTask (Except StorageError α)) × BPlusTree Bytes Bytes}
    (hruns : Relation.ReflTransGen nodeService.Atomic (fun j ↦ NodeTask.ofProgram (routines j), t) y) :
    ∃ P c p, Sharing S own Q F t y P c p :=
  Service.atomic_invariant (J := fun y ↦ ∃ P c p, Sharing S own Q F t y P c p)
    (fun _ _ hstep hx ↦ Sharing.step hS hown hstep hx) hruns
    ⟨_, c, routines, howned, hwithin, fun _ ↦ .ready, rfl⟩

end Race

/-- The tasks of a list of operations. -/
abbrev operations (bs : BinarySearch Bytes) (t : BPlusTree Bytes Bytes)
    (ops : ι → TreeOperation Bytes Bytes) (i : ι) : Program Bytes Bytes (Option Bytes) :=
  (ops i).program bs t

omit [DecidableEq ι] in
theorem treeRoutine_operations {bs : BinarySearch Bytes} {t : BPlusTree Bytes Bytes}
    {ops : ι → TreeOperation Bytes Bytes} (i : ι) : TreeRoutine bs (operations bs t ops i) := by
  rw [operations]
  rcases ops i with ⟨k, v⟩ | key
  · exact .insert t.fuel k v none
  · exact .reader (readOnly_getLoop bs key t.fuel rootPageId)

/-- **Insertions beside each other lose nothing.** In a tree that insertions grew, let any number of
insertions in place into different leaves run beside any number of lookups. However the tasks and the
pager's thread take their steps: a lookup that is over finds what the tree had for its key, or what is
inserted for it; and the disk holds at any time a tree that has the same, and has what is inserted as soon
as the insertion is over, unless it failed. -/
theorem inserts_beside_each_other {bs : BinarySearch Bytes} {tier : MemoryTier Bytes Bytes}
    {t : BPlusTree Bytes Bytes} (hgrown : t.Grown bs tier fun _ _ _ ↦ True) (hb : t.PagesBelow)
    {ops : ι → TreeOperation Bytes Bytes} (hapart : Apart bs t ops) {disk : Disk}
    (hd : disk.Represents t) {m : Mail pagerInterface ι Disk (Except TaskError (Option Bytes))}
    (hruns : Mail.Runs pagerService channelCapacity (startTasks (operations bs t ops) disk) m) :
    (∀ i key r, ops i = .get key → m.parties i = .running (.done r) →
      ∃ found, r = .ok found ∧
        (t.getPages bs key = .ok found ∨ ∃ j v, ops j = .put key v ∧ found = some v)) ∧
    ∃ t', m.shared.Represents t' ∧ Sound AnyBinding t' ∧ ∀ key, ∃ found,
      t'.getPages bs key = .ok found ∧
        ((∃ i v, ops i = .put key v ∧ found = some v) ∨ t.getPages bs key = .ok found ∧
          ∀ i v, ops i = .put key v → m.parties i ≠ .running (.done (.ok none))) := by
  obtain ⟨⟨ht, h₀, hroot⟩, -⟩ := hgrown.sound (R := AnyBinding) (fun _ _ _ _ ↦ trivial) hb
  obtain ⟨y, hy, hrep, hdone⟩ := exists_nodes_of_runs treeRoutine_operations hd hruns
  have hcontent : ∀ i pid, t.own bs (ops i) = some pid →
      t.pager.pages pid = t.pager.pages ((t.own bs (ops i)).getD rootPageId) := fun i pid hi ↦ by
    rw [hi]
    rfl
  have hwritable : ∀ pageId, (t.shares bs ops).Writable pageId →
      pageId * pageSize < t.pager.fileLength := fun pageId hlt ↦ by
    rw [ht.aligned]
    exact Nat.mul_lt_mul_of_pos_right hlt (by decide)
  obtain ⟨P, c, p, h⟩ := exists_sharing hwritable (fun i j pid ↦ hapart.own_inj i j pid)
    ⟨fun _ ↦ Or.inl rfl, hcontent, fun _ _ ↦ rfl⟩ (within_program ht hroot hapart) hy
  -- an operation that is over has done its work, or has failed
  have hover : ∀ i r, m.parties i = .running (.done r) →
      (∃ a, r = .ok a ∧ (ops i).Done bs t ops a (c i)) ∨
        (∃ e, r = .error e) ∧ (ops i).Failed bs t (c i) := by
    intro i r hi
    obtain ⟨outcome, rfl, htask⟩ := hdone i r hi
    have hstands := h.stands i
    rw [htask] at hstands
    have hwithin := h.within i
    rcases hstands.over with ⟨a, ha, rfl⟩ | ⟨e, he, rfl⟩
    · rw [ha] at hwithin
      exact Or.inl ⟨a, rfl, hwithin⟩
    · rw [he] at hwithin
      exact Or.inr ⟨⟨_, rfl⟩, hwithin⟩
  let t' := y.2
  have hpages : t'.pager.pages = P := by rw [h.pager]
  refine ⟨fun i key r hop hi ↦ ?_, t', hrep, ?_⟩
  · rcases hover i r hi with ⟨a, rfl, hfound⟩ | ⟨-, hfailed⟩
    · rw [hop] at hfound
      exact ⟨a, rfl, hfound⟩
    · rw [hop] at hfailed
      exact hfailed.elim
  have hroot' : WellFormed AnyBinding t'.pager.pages h₀ rootPageId :=
    wellFormed_of_holds (shares_inner ht hroot) shares_leaf (hpages ▸ h.owned.holds) hroot
  have ht' : t'.pager.Sized := by
    rw [h.pager]
    refine ⟨ht.aligned, ht.pos, ht.handed, fun q hq ↦ ?_⟩
    show P q = _
    rw [h.owned.rest q fun i hi ↦ ?_]
    · exact ht.blank q hq
    · exact absurd (lt_pageCount_of_own ht hroot hi) (not_lt.2 hq)
  refine ⟨⟨ht', h₀, hroot'⟩, fun key ↦ ?_⟩
  obtain ⟨found, hget, hfound, hput⟩ := getPages_of_shares key ht hroot ht'
    (hpages ▸ h.owned.holds)
  refine ⟨found, hget, or_iff_not_imp_left.2 fun hnew ↦ ⟨hfound.resolve_right hnew, ?_⟩⟩
  intro i v hop hi
  rcases hover i _ hi with ⟨a, -, hdone⟩ | ⟨⟨e, he⟩, -⟩
  · rw [hop] at hdone
    have hcell : P (t.leafOf bs key) = c i := h.owned.content i _ (by rw [hop]; rfl)
    exact hnew ⟨i, v, hop, hput v (by rw [hpages, hcell]; exact hdone)⟩
  · cases he

/-- A tree with two leaves, which have room. -/
def twoLeaves : BPlusTree Bytes Bytes :=
  let t := ((openEmpty (MemoryTier.new 1024)).insert .std [1] (List.replicate 1600 0)).2
  let t := (t.insert .std [2] (List.replicate 1600 0)).2
  (t.insert .std [3] [7]).2

/-- Insertions into both leaves, and a lookup. -/
def putTwo : Option Bool → TreeOperation Bytes Bytes
  | none => .get [3]
  | some false => .put [0] [5]
  | some true => .put [9] [6]

/-- When both insertions are over and have not failed, the disk has both bindings, and the old ones. -/
theorem inserts_beside_each_other_twoLeaves : ∃ disk : Disk, disk.Represents twoLeaves ∧
    ∀ m, Mail.Runs pagerService channelCapacity (startTasks (operations .std twoLeaves putTwo) disk) m →
      (∀ i, m.parties (some i) = .running (.done (.ok none))) →
      ∃ t', m.shared.Represents t' ∧ t'.getPages .std [0] = .ok (some [5]) ∧
        t'.getPages .std [9] = .ok (some [6]) ∧ t'.getPages .std [3] = .ok (some [7]) := by
  have hgrown : twoLeaves.Grown .std (MemoryTier.new 1024) fun _ _ _ ↦ True :=
    .insert _ _ (.insert _ _ (.insert _ _ .empty trivial) trivial) trivial
  obtain ⟨hb, hfirst, hsecond, hleaves, hold⟩ : twoLeaves.pager.handedOut.length < 2 ^ 32 ∧
      twoLeaves.InPlace .std [0] ∧ twoLeaves.InPlace .std [9] ∧
        twoLeaves.leafOf .std [0] ≠ twoLeaves.leafOf .std [9] ∧
          twoLeaves.getPages .std [3] = .ok (some [7]) := by decide +kernel
  have hapart : Apart .std twoLeaves putTwo := by
    refine ⟨fun i k v hi ↦ ?_, fun i j k v k' v' hi hj hleaf ↦ ?_⟩
    · rcases i with - | - | -
      · cases hi
      · cases hi
        exact hfirst
      · cases hi
        exact hsecond
    · rcases i with - | - | - <;> cases hi <;> rcases j with - | - | - <;> cases hj
      · rfl
      · exact absurd hleaf hleaves
      · exact absurd hleaf.symm hleaves
      · rfl
  obtain ⟨disk, hd⟩ := hgrown.exists_represents
  refine ⟨disk, hd, fun m hruns hdone ↦ ?_⟩
  obtain ⟨-, t', hrep, -, hfound⟩ := inserts_beside_each_other hgrown hb hapart hd hruns
  refine ⟨t', hrep, ?_, ?_, ?_⟩
  · obtain ⟨found, hget, ⟨i, v, hi, rfl⟩ | ⟨-, hnot⟩⟩ := hfound [0]
    · rcases i with - | - | - <;> cases hi
      exact hget
    · exact absurd (hdone false) (hnot (some false) [5] rfl)
  · obtain ⟨found, hget, ⟨i, v, hi, rfl⟩ | ⟨-, hnot⟩⟩ := hfound [9]
    · rcases i with - | - | - <;> cases hi
      exact hget
    · exact absurd (hdone true) (hnot (some true) [6] rfl)
  · obtain ⟨found, hget, ⟨i, v, hi, rfl⟩ | ⟨hsame, -⟩⟩ := hfound [3]
    · rcases i with - | - | - <;> cases hi
    · rw [hget, ← hsame, hold]

end KsSql
