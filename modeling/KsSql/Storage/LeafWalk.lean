import KsSql.Storage.Soundness

/-!
# Lookups and leaf walks

The two ways in which the pages are read: `BPlusTree::get`, and the walk along the leaf chain with
which `scan_table_with_filter` of `parser/engine.rs` reads a table. The walk goes down the first
children to the leftmost leaf and then follows `next_leaf`, visiting one node after another until the
visit fails or the chain ends. Both loops get one step for each page of the file and one more.

On a sound tree neither gets stuck. A lookup returns a stored value (`getPages_sound`), and a walk is
a fold over a chain of well-formed leaves, the same for every visit (`scanLeaves_eq_foldlM`).
-/

namespace KsSql

open PageProgram

namespace BPlusTree

section Routines

variable {K V : Type}

/-- The descent of a scan: down the first children, stopping at a leaf or a childless node. -/
def leftmostLeaf : Nat → Nat → Program K V Nat
  | 0, _ => .fail .diverged
  | fuel + 1, pageId => do
    let node ← readPage pageId
    match node.nodeType, node.children with
    | .leaf, _ => pure pageId
    | .internal, [] => pure pageId
    | .internal, child :: _ => leftmostLeaf fuel child

/-- The walk of a scan: visit a page's node, then go to the next leaf. A leaf that links to itself
ends the walk. -/
def walkLeaves {ε β : Type} (visit : β → Nat → Node K V → Except ε β) :
    Nat → Nat → β → Program K V (Except ε β)
  | 0, _, _ => .fail .diverged
  | fuel + 1, pageId, acc => do
    let node ← readPage pageId
    match visit acc pageId node with
    | .error e => pure (.error e)
    | .ok acc =>
      match node.nextLeaf with
      | none => pure (.ok acc)
      | some next => if next = pageId then pure (.ok acc) else walkLeaves visit fuel next acc

end Routines

variable {K V : Type} {ε β : Type}

/-- The page reads of a scan, run alone. -/
def scanLeaves (t : BPlusTree K V) (visit : β → Nat → Node K V → Except ε β) (acc : β) :
    Except StorageError (Except ε β) :=
  ((pagerDevice K V).run (do
    let leaf ← leftmostLeaf t.fuel rootPageId
    walkLeaves visit t.fuel leaf acc) t).1

/-- The pages that a scan visits. -/
def leafPages (t : BPlusTree K V) : List Nat :=
  match t.scanLeaves (fun pages pageId _ ↦ (.ok (pages ++ [pageId]) : Except Unit _)) [] with
  | .ok (.ok pages) => pages
  | _ => []

/-- The bindings on the leaf chain, in the order in which a scan meets them. -/
def leafEntries (t : BPlusTree K V) : List (K × V) :=
  t.leafPages.flatMap fun p ↦ (t.pager.pages p).entries

/-! ### On a sound tree -/

variable [LinearOrder K] {R : K → V → Prop} {t : BPlusTree K V}

/-- The pages of a chain are in the file, so that a chain is no longer than the file. -/
theorem length_le_of_leafChain (ht : t.pager.Sized) {p : Nat} {l : List Nat}
    (hl : LeafChain R t.pager.pages p l) : l.length ≤ t.pager.pageCount := by
  have hsub : l ⊆ List.range t.pager.pageCount := fun q hq ↦ by
    obtain ⟨l', hl', -⟩ := hl.exists_of_mem q hq
    exact List.mem_range.2 (lt_pageCount_of_wellFormed (h := 0) ht ⟨l', hl'⟩)
  have := (hl.nodup.subperm hsub).length_le
  rwa [List.length_range] at this

/-- The descent of a scan ends at a leaf. -/
theorem run_leftmostLeaf {fuel : Nat} : ∀ {h p : Nat}, WellFormed R t.pager.pages h p → h < fuel →
    ∃ q, WellFormed R t.pager.pages 0 q ∧
      (pagerDevice K V).run (leftmostLeaf fuel p) t = (.ok q, t) := by
  induction fuel with
  | zero => exact fun _ h ↦ absurd h (Nat.not_lt_zero _)
  | succ fuel ih =>
    intro h p hp hfuel
    have hread : (pagerDevice K V).run (leftmostLeaf (fuel + 1) p) t = (pagerDevice K V).run
        (match (t.pager.pages p).nodeType, (t.pager.pages p).children with
        | .leaf, _ => pure p
        | .internal, [] => pure p
        | .internal, child :: _ => leftmostLeaf fuel child) t := rfl
    rw [hread]
    cases h with
    | zero =>
      rw [hp.leafOk.shape.isLeaf]
      exact ⟨p, hp, rfl⟩
    | succ h =>
      rw [hp.1.isInternal]
      rcases hch : (t.pager.pages p).children with _ | ⟨c, cs⟩
      · have := hp.1.length_eq
        rw [hch] at this
        cases this
      · exact ih (hp.2 c (by rw [hch]; exact List.mem_cons_self)).2 (by omega)

/-- The walk of a scan is a fold over the pages of the chain. -/
theorem run_walkLeaves (visit : β → Nat → Node K V → Except ε β) {p : Nat} {l : List Nat}
    (hl : LeafChain R t.pager.pages p l) : ∀ {fuel : Nat} (acc : β), l.length ≤ fuel →
    (pagerDevice K V).run (walkLeaves visit fuel p acc) t =
      (.ok (l.foldlM (fun acc p ↦ visit acc p (t.pager.pages p)) acc), t) := by
  induction hl with
  | @last p hok hnone =>
    intro fuel acc hfuel
    obtain ⟨fuel, rfl⟩ := Nat.exists_eq_add_of_lt (show 0 < fuel from hfuel)
    rw [Nat.zero_add]
    have hread : ((pagerDevice K V).read p t).nextLeaf = none := hnone
    show (pagerDevice K V).run (match visit acc p (t.pager.pages p) with
      | .error e => _
      | .ok acc => _) t = _
    rw [List.foldlM_cons]
    rcases visit acc p (t.pager.pages p) with e | acc'
    · rfl
    · simp only [hread]
      rfl
  | @next p q l hok hsome hr hl ih =>
    intro fuel acc hfuel
    obtain ⟨fuel, rfl⟩ := Nat.exists_eq_add_of_lt (show 0 < fuel by
      rw [List.length_cons] at hfuel; omega)
    rw [Nat.zero_add]
    have hqp : q ≠ p := by
      have hnodup := (LeafChain.next hok hsome hr hl).nodup
      exact fun e ↦ (List.nodup_cons.1 hnodup).1 (e ▸ hl.head_mem)
    have hread : ((pagerDevice K V).read p t).nextLeaf = some q := hsome
    show (pagerDevice K V).run (match visit acc p (t.pager.pages p) with
      | .error e => _
      | .ok acc => _) t = _
    rw [List.foldlM_cons]
    rcases visit acc p (t.pager.pages p) with e | acc'
    · rfl
    · simp only [hread, if_neg hqp]
      exact ih acc' (by rw [List.length_cons] at hfuel; omega)

/-- Collecting what a fold goes over. -/
theorem foldlM_collect {α : Type} (l done : List α) :
    l.foldlM (fun l a ↦ (.ok (l ++ [a]) : Except Unit _)) done = .ok (done ++ l) := by
  induction l generalizing done with
  | nil => rw [List.append_nil]; rfl
  | cons a l ih =>
    rw [List.foldlM_cons]
    exact (ih _).trans (by rw [List.append_assoc, List.singleton_append])

/-- A scan that starts at a leaf whose chain is known visits that chain. -/
theorem scanLeaves_of_leafChain (ht : t.pager.Sized) {p : Nat} {l : List Nat}
    (hdescent : (pagerDevice K V).run (leftmostLeaf t.fuel rootPageId) t = (.ok p, t))
    (hl : LeafChain R t.pager.pages p l) (visit : β → Nat → Node K V → Except ε β) (acc : β) :
    t.scanLeaves visit acc =
      .ok (l.foldlM (fun acc p ↦ visit acc p (t.pager.pages p)) acc) := by
  rw [scanLeaves, Device.run_bind, hdescent]
  exact congrArg Prod.fst (run_walkLeaves visit hl acc
    ((length_le_of_leafChain ht hl).trans (Nat.le_succ _)))

/-- The pages that a scan visits form a chain. -/
theorem exists_leafChain (ht : Sound R t) : ∃ p, LeafChain R t.pager.pages p t.leafPages ∧
    (pagerDevice K V).run (leftmostLeaf t.fuel rootPageId) t = (.ok p, t) := by
  obtain ⟨h, hroot⟩ := ht.root
  obtain ⟨p, ⟨l, hl⟩, hdescent⟩ := run_leftmostLeaf hroot
    (Nat.lt_succ_of_lt (hroot.height_lt ht.sized.blank))
  have hpages : t.leafPages = l := by
    rw [leafPages, scanLeaves_of_leafChain ht.sized hdescent hl, foldlM_collect, List.nil_append]
  exact ⟨p, hpages ▸ hl, hdescent⟩

/-- **A scan of a sound tree** is a fold over the pages on the leaf chain. -/
theorem scanLeaves_eq_foldlM (ht : Sound R t) (visit : β → Nat → Node K V → Except ε β) (acc : β) :
    t.scanLeaves visit acc =
      .ok (t.leafPages.foldlM (fun acc p ↦ visit acc p (t.pager.pages p)) acc) := by
  obtain ⟨p, hl, hdescent⟩ := exists_leafChain ht
  exact scanLeaves_of_leafChain ht.sized hdescent hl visit acc

/-- What a scan of a sound tree visits are well-formed leaves. -/
theorem leafOk_of_mem_leafPages (ht : Sound R t) : ∀ p ∈ t.leafPages, LeafOk R (t.pager.pages p) := by
  obtain ⟨p, hl, -⟩ := exists_leafChain ht
  intro q hq
  obtain ⟨l', hl', -⟩ := hl.exists_of_mem q hq
  exact hl'.leafOk

/-- Every binding on the leaf chain satisfies the tree's relation. -/
theorem rel_of_mem_leafEntries (ht : Sound R t) {e : K × V} (he : e ∈ t.leafEntries) :
    R e.1 e.2 := by
  obtain ⟨p, hp, he⟩ := List.mem_flatMap.1 he
  exact (leafOk_of_mem_leafPages ht p hp).entries e he

variable (bs : BinarySearch K)

/-- What a lookup does with a node it has read. -/
def getNode (key : K) (fuel : Nat) (node : Node K V) : Program K V (Option V) :=
  match node.nodeType with
  | .leaf =>
    match bs.search node.keys key with
    | .ok idx =>
      match node.values[idx]? with
      | some value => pure (some value)
      | none => .fail .panicked
    | .error _ => pure none
  | .internal =>
    match node.children[childIndex bs node key]? with
    | some childId => getLoop bs key fuel childId
    | none => .fail .panicked

theorem getLoop_succ (key : K) (fuel p : Nat) :
    (getLoop bs key (fuel + 1) p : Program K V (Option V)) = .read p (getNode bs key fuel) := rfl

/-- A lookup passes through an internal node to the child that the search picks. -/
theorem getNode_internal (key : K) {fuel c : Nat} {node : Node K V}
    (hint : node.nodeType = .internal) (hc : node.children[childIndex bs node key]? = some c) :
    getNode bs key fuel node = getLoop bs key fuel c := by
  simp only [getNode, hint, hc]

/-- A lookup in a leaf finds what its bindings say. -/
theorem getNode_leaf (key : K) {fuel : Nat} {node : Node K V} (hn : node.LeafShape) :
    getNode bs key fuel node = .done (node.entries.lookup key) := by
  have hsorted : node.keys.Pairwise (· ≤ ·) := hn.sorted.imp le_of_lt
  have hlen := hn.length_eq
  simp only [getNode, hn.isLeaf]
  rcases hs : bs.search node.keys key with i | i
  · have hnot := bs.not_mem_of_error hsorted hs
    have hnone : node.entries.lookup key = none :=
      List.lookup_eq_none_iff.2 fun e he ↦ bne_iff_ne.2 fun h : key = e.1 ↦
        hnot (h ▸ SortedAssoc.mem_fst_of_mem_zip he)
    rw [hnone]
    rfl
  · have hi : i < node.values.length := hlen ▸ bs.lt_length_of_ok hsorted hs
    have hkey := bs.ok_spec hsorted hs
    -- overwriting the value by itself changes nothing
    have hset := SortedAssoc.upsert_zip_set (v := node.values[i]) hlen hn.sorted hkey
    rw [List.set_getElem_self] at hset
    have hsome : node.entries.lookup key = some node.values[i] := by
      rw [Node.entries, hset, SortedAssoc.lookup_upsert_self]
    simp only [List.getElem?_eq_getElem hi, hsome]
    rfl

theorem run_getLoop_internal (key : K) {fuel p c : Nat}
    (hint : (t.pager.pages p).nodeType = .internal)
    (hc : (t.pager.pages p).children[childIndex bs (t.pager.pages p) key]? = some c) :
    (pagerDevice K V).run (getLoop bs key (fuel + 1) p) t =
      (pagerDevice K V).run (getLoop bs key fuel c) t := by
  show (pagerDevice K V).run (getNode bs key fuel (t.pager.pages p)) t = _
  rw [getNode_internal bs key hint hc]

theorem run_getLoop_leaf (key : K) {fuel p : Nat} (hp : (t.pager.pages p).LeafShape) :
    (pagerDevice K V).run (getLoop bs key (fuel + 1) p) t =
      (.ok ((t.pager.pages p).entries.lookup key), t) := by
  show (pagerDevice K V).run (getNode bs key fuel (t.pager.pages p)) t = _
  rw [getNode_leaf bs key hp]
  rfl

/-- A binding that a lookup in a list finds is in the list. -/
theorem mem_of_lookup_eq_some {l : List (K × V)} {k : K} {v : V} (h : l.lookup k = some v) :
    (k, v) ∈ l := by
  induction l with
  | nil => cases h
  | cons a l ih =>
    rw [List.lookup_cons] at h
    split at h
    · rename_i hk
      obtain rfl := Option.some.inj h
      rw [eq_of_beq hk]
      exact List.mem_cons_self
    · exact List.mem_cons_of_mem a (ih h)

/-- A lookup in a subtree ends, and returns nothing or a value stored under the key. -/
theorem run_getLoop_of_wellFormed (key : K) {fuel : Nat} : ∀ {h p : Nat},
    WellFormed R t.pager.pages h p → h < fuel →
    ∃ r, (pagerDevice K V).run (getLoop bs key fuel p) t = (.ok r, t) ∧
      ∀ v, r = some v → R key v := by
  induction fuel with
  | zero => exact fun _ h ↦ absurd h (Nat.not_lt_zero _)
  | succ fuel ih =>
    intro h p hp hfuel
    cases h with
    | zero =>
      exact ⟨_, run_getLoop_leaf bs key hp.leafOk.shape,
        fun v hv ↦ hp.leafOk.entries (key, v) (mem_of_lookup_eq_some hv)⟩
    | succ h =>
      have hlen := hp.1.length_eq
      obtain ⟨c, hc⟩ : ∃ c, (t.pager.pages p).children[childIndex bs (t.pager.pages p) key]? =
        some c := ⟨_, List.getElem?_eq_getElem (childIndex_lt bs (by omega) key)⟩
      rw [run_getLoop_internal bs key hp.1.isInternal hc]
      exact ih (hp.2 c (List.mem_of_getElem? hc)).2 (by omega)

/-- **A lookup in a sound tree** returns nothing, or a value stored under the key. -/
theorem getPages_sound (ht : Sound R t) (key : K) :
    ∃ r, t.getPages bs key = .ok r ∧ ∀ v, r = some v → R key v := by
  obtain ⟨h, hroot⟩ := ht.root
  obtain ⟨r, hrun, hr⟩ := run_getLoop_of_wellFormed bs key hroot
    (show h < t.fuel from Nat.lt_succ_of_lt (hroot.height_lt ht.sized.blank))
  exact ⟨r, by rw [getPages, hrun], hr⟩

end BPlusTree

end KsSql
