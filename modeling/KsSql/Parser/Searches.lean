import KsSql.Parser.ScanRefinement
import KsSql.Parser.Script

/-!
# The universal search

`SEARCH` walks over the pages of the tree and lists the keys of the records whose encoded rows contain a
text. It does not look at the memory tier, and it decodes every entry whose key does not start with `__`
as a record.

On a sound tree it goes through the entries on the leaf chain (`universalSearch_eq`): down the first
children and along the leaves there are never more pages than the file has. So it lists the live rows that
contain the text exactly if every such entry is a record and the records in the tree match as the live
rows do (`Searchable`, `searchFinds_iff`).
-/

namespace KsSql

open PageProgram BPlusTree Engine

/-! ### The walk on a sound tree -/

namespace BPlusTree

variable {K V : Type} [LinearOrder K] {R : K → V → Prop} {t : BPlusTree K V} {ε β : Type}

/-- The inner pages on the way to a leaf and the pages on its chain are different pages of the file. -/
theorem height_add_length_le {P : Nat → Node K V} {h p q n : Nat} {l : List Nat}
    (hp : WellFormed R P h p) (hl : LeafChain R P q l)
    (hblank : ∀ q, n ≤ q → P q = .newInternal) : h + l.length ≤ n := by
  choose f hf using hp.exists_at
  let inner : List Nat := (List.finRange h).map fun j : Fin h ↦ f (j + 1) j.2
  have hleaf : ∀ q ∈ l, WellFormed R P 0 q := fun q hq ↦ by
    obtain ⟨l', hl', -⟩ := hl.exists_of_mem q hq
    exact ⟨l', hl'⟩
  have hinner : inner.Nodup := by
    refine (List.nodup_finRange h).map fun i j hij ↦ ?_
    have hij' : f (i + 1) i.2 = f (j + 1) j.2 := hij
    exact Fin.ext (Nat.succ.inj ((hf (i + 1) i.2).height_unique (hij' ▸ hf (j + 1) j.2)))
  have hnodup : (inner ++ l).Nodup := by
    refine List.Nodup.append hinner hl.nodup fun q hq hq' ↦ ?_
    obtain ⟨j, -, rfl⟩ := List.mem_map.1 hq
    exact absurd ((hf (j + 1) j.2).height_unique (hleaf _ hq')) (Nat.succ_ne_zero _)
  have hsub : inner ++ l ⊆ List.range n := fun q hq ↦ by
    refine List.mem_range.2 (by_contra fun hge ↦ ?_)
    rcases List.mem_append.1 hq with hq | hq
    · obtain ⟨j, -, rfl⟩ := List.mem_map.1 hq
      exact not_wellFormed_blank (hblank _ (not_lt.1 hge)) (hf (j + 1) j.2)
    · exact not_wellFormed_blank (hblank _ (not_lt.1 hge)) (hleaf q hq)
  have hlength := (hnodup.subperm hsub).length_le
  rwa [List.length_append, List.length_map, List.length_finRange, List.length_range] at hlength

/-- Along the leaves a search is a fold over the chain. -/
theorem run_searchLoop_leaf (visit : β → Node K V → Except ε β) {p : Nat} {l : List Nat}
    (hl : LeafChain R t.pager.pages p l) : ∀ {fuel : Nat} (acc : β), l.length ≤ fuel →
    (pagerDevice K V).run (searchLoop visit fuel p acc) t =
      (.ok (l.foldlM (fun acc p ↦ visit acc (t.pager.pages p)) acc), t) := by
  induction hl with
  | @last p hok hnone =>
    intro fuel acc hfuel
    obtain ⟨fuel, rfl⟩ := Nat.exists_eq_add_of_lt (show 0 < fuel from hfuel)
    rw [Nat.zero_add]
    rw [searchLoop, readPage_bind, Device.run, pagerDevice_read, hok.shape.isLeaf, List.foldlM_cons]
    dsimp only
    rcases visit acc (t.pager.pages p) with e | acc'
    · rfl
    · simp only [hnone]
      rfl
  | @next p q l hok hsome hr hl ih =>
    intro fuel acc hfuel
    obtain ⟨fuel, rfl⟩ := Nat.exists_eq_add_of_lt (show 0 < fuel by
      rw [List.length_cons] at hfuel; omega)
    rw [Nat.zero_add]
    rw [searchLoop, readPage_bind, Device.run, pagerDevice_read, hok.shape.isLeaf, List.foldlM_cons]
    dsimp only
    rcases visit acc (t.pager.pages p) with e | acc'
    · rfl
    · simp only [hsome]
      exact ih acc' (by rw [List.length_cons] at hfuel; omega)

/-- A search goes down the first children, as a scan does, and then along the leaves. -/
theorem run_searchLoop (visit : β → Node K V → Except ε β) : ∀ {h p : Nat},
    WellFormed R t.pager.pages h p → ∃ q l, LeafChain R t.pager.pages q l ∧
      (∀ fuel, h < fuel → (pagerDevice K V).run (leftmostLeaf fuel p) t = (.ok q, t)) ∧
      ∀ fuel acc, h + l.length ≤ fuel →
        (pagerDevice K V).run (searchLoop visit fuel p acc) t =
          (.ok (l.foldlM (fun acc p ↦ visit acc (t.pager.pages p)) acc), t)
  | 0, p, hp => by
    obtain ⟨l, hl⟩ := id hp
    refine ⟨p, l, hl, fun fuel hfuel ↦ ?_, fun fuel acc hfuel ↦
      run_searchLoop_leaf visit hl acc (by omega)⟩
    obtain ⟨fuel, rfl⟩ := Nat.exists_eq_add_of_lt hfuel
    rw [leftmostLeaf, readPage_bind, Device.run, pagerDevice_read, hp.leafOk.shape.isLeaf]
    rfl
  | h + 1, p, hp => by
    obtain ⟨c, cs, hch⟩ : ∃ c cs, (t.pager.pages p).children = c :: cs := by
      rcases hch : (t.pager.pages p).children with - | ⟨c, cs⟩
      · have hlength := hp.1.length_eq
        rw [hch] at hlength
        cases hlength
      · exact ⟨c, cs, rfl⟩
    obtain ⟨q, l, hl, hdescent, hsearch⟩ := run_searchLoop visit
      (hp.2 c (by rw [hch]; exact List.mem_cons_self)).2
    refine ⟨q, l, hl, fun fuel hfuel ↦ ?_, fun fuel acc hfuel ↦ ?_⟩
    · obtain ⟨fuel, rfl⟩ := Nat.exists_eq_add_of_lt hfuel
      rw [leftmostLeaf, readPage_bind, Device.run, pagerDevice_read, hp.1.isInternal, hch]
      exact hdescent _ (by omega)
    · obtain ⟨fuel, rfl⟩ := Nat.exists_eq_add_of_lt (show 0 < fuel by omega)
      rw [Nat.zero_add]
      rw [searchLoop, readPage_bind, Device.run, pagerDevice_read, hp.1.isInternal, hch]
      exact hsearch fuel acc (by omega)

/-- **A search of a sound tree** is a fold over the pages on the leaf chain. -/
theorem search_eq_foldlM (ht : Sound R t) (visit : β → Node K V → Except ε β) (acc : β) :
    ((pagerDevice K V).run (searchLoop visit t.fuel rootPageId acc) t).1 =
      .ok (t.leafPages.foldlM (fun acc p ↦ visit acc (t.pager.pages p)) acc) := by
  obtain ⟨h, hroot⟩ := ht.root
  obtain ⟨q, l, hl, hdescent, hsearch⟩ := run_searchLoop visit hroot
  have hpages : t.leafPages = l := by
    rw [leafPages, scanLeaves_of_leafChain ht.sized
      (hdescent t.fuel (Nat.lt_succ_of_lt (hroot.height_lt ht.sized.blank))) hl, foldlM_collect,
      List.nil_append]
  rw [hsearch t.fuel acc ((height_add_length_le hroot hl ht.sized.blank).trans (Nat.le_succ _)),
    hpages]

end BPlusTree

/-! ### Entry by entry -/

namespace Frontend

variable (f : Frontend) (rt : Runtime) (query : Text)

/-- A search does not pass the key over. -/
def Searched (key : Bytes) : Prop := (bytes "__").isPrefixOf (f.fromUtf8Lossy key) = false

instance : DecidablePred f.Searched := fun key ↦
  inferInstanceAs (Decidable ((bytes "__").isPrefixOf (f.fromUtf8Lossy key) = false))

/-- The encoded row of a record, as a text. -/
def rowText (record : Record) : Bytes := f.fromUtf8Lossy (rt.payloadBytes record.value)

/-- The record is listed by a search for the text. -/
def Matches (record : Record) : Prop :=
  record.isDeleted = false ∧ occursIn query.utf8 (f.rowText rt record) = true

instance : DecidablePred (f.Matches rt query) := fun _ ↦ instDecidableAnd

/-- What a search lists of entries one after another: the keys and the encoded rows. -/
def searchEntries : List (Bytes × Data) → Except EngineError (List (Bytes × Bytes))
  | [] => .ok []
  | (key, data) :: entries =>
    if f.Searched key then do
      let record ← rt.decodeRecord data
      let found ← searchEntries entries
      pure (if f.Matches rt query record then (f.fromUtf8Lossy key, f.rowText rt record) :: found
        else found)
    else searchEntries entries

/-- The line for a match. -/
def matchLine (found : Bytes × Bytes) : Bytes :=
  bytes "Match in Key " ++ found.1 ++ bytes ": " ++ found.2

/-- What a search answers that has found the given matches. -/
def searchAnswer (found : List (Bytes × Bytes)) : Bytes :=
  joinLines ([searchHeading query, List.replicate 40 45] ++ found.map matchLine)

variable {f rt query}

theorem searchEntries_append (l l' : List (Bytes × Data)) :
    f.searchEntries rt query (l ++ l') = (do
      let found ← f.searchEntries rt query l
      let found' ← f.searchEntries rt query l'
      pure (found ++ found')) := by
  induction l with
  | nil =>
    rw [List.nil_append, searchEntries, Except.ok_bind]
    rcases f.searchEntries rt query l' with err | found <;> rfl
  | cons x l ih =>
    rw [List.cons_append, searchEntries, searchEntries]
    split
    · rcases rt.decodeRecord x.2 with err | record
      · rfl
      · rw [Except.ok_bind, Except.ok_bind, ih]
        rcases f.searchEntries rt query l with err | found
        · rfl
        · rcases f.searchEntries rt query l' with err | found'
          · rfl
          · refine congrArg Except.ok ?_
            split <;> rfl
    · exact ih

/-- A leaf is searched entry by entry, if each of its keys has a value. -/
theorem searchLeaf_eq : ∀ {keys : List Bytes} {values : List Data} {results : List Bytes},
    keys.length = values.length →
      f.searchLeaf rt query keys values results =
        (f.searchEntries rt query (keys.zip values)).map fun found ↦ results ++ found.map matchLine
  | [], _, results, _ => congrArg Except.ok (List.append_nil results).symm
  | key :: keys, [], _, h => nomatch h
  | key :: keys, data :: values, results, h => by
    have hlen : keys.length = values.length := Nat.succ.inj h
    rw [searchLeaf, List.zip_cons_cons, searchEntries]
    by_cases hkey : f.Searched key
    · rw [if_neg (ne_true_of_eq_false hkey), if_pos hkey]
      dsimp only
      rcases rt.decodeRecord data with err | record
      · rfl
      · rw [Except.ok_bind, Except.ok_bind, searchLeaf_eq hlen]
        rcases f.searchEntries rt query (keys.zip values) with err | found
        · rfl
        · refine congrArg Except.ok ?_
          show (if f.Matches rt query record then _ else _) ++ _ =
            _ ++ List.map matchLine (if f.Matches rt query record then _ else _)
          by_cases hmatch : f.Matches rt query record
          · rw [if_pos hmatch, if_pos hmatch, List.map_cons, List.append_assoc]
            rfl
          · rw [if_neg hmatch, if_neg hmatch]
    · rw [if_pos (eq_true_of_ne_false hkey), if_neg hkey]
      exact searchLeaf_eq hlen

theorem foldlM_searchLeaf (nodes : Nat → Node Bytes Data) : ∀ (pages : List Nat)
    (results : List Bytes), (∀ p ∈ pages, (nodes p).keys.length = (nodes p).values.length) →
    pages.foldlM (fun results p ↦ f.searchLeaf rt query (nodes p).keys (nodes p).values results)
        results =
      (f.searchEntries rt query (pages.flatMap fun p ↦ (nodes p).entries)).map
        fun found ↦ results ++ found.map matchLine
  | [], results, _ => congrArg Except.ok (List.append_nil results).symm
  | p :: pages, results, hlen => by
    rw [List.foldlM_cons, List.flatMap_cons, searchEntries_append,
      searchLeaf_eq (hlen p List.mem_cons_self)]
    show (Except.map _ (f.searchEntries rt query (nodes p).entries) >>= _) = _
    rcases f.searchEntries rt query (nodes p).entries with err | found
    · rfl
    · rw [Except.ok_bind]
      refine (foldlM_searchLeaf nodes pages (results ++ found.map matchLine)
        fun q hq ↦ hlen q (List.mem_cons_of_mem p hq)).trans ?_
      rcases f.searchEntries rt query (pages.flatMap fun p ↦ (nodes p).entries) with err | found'
      · rfl
      · refine congrArg Except.ok ?_
        show results ++ found.map matchLine ++ found'.map matchLine =
          results ++ (found ++ found').map matchLine
        rw [List.map_append, List.append_assoc]

/-- **A search** of a sound tree goes through the entries on the leaf chain. -/
theorem universalSearch_eq {e : Engine} {R : Bytes → Data → Prop} (he : BPlusTree.Sound R e.btree) :
    f.universalSearch rt query e =
      (f.searchEntries rt query e.btree.leafEntries).map (searchAnswer query) := by
  rw [universalSearch, BPlusTree.search_eq_foldlM he]
  dsimp only
  rw [foldlM_searchLeaf e.btree.pager.pages e.btree.leafPages _
    fun p hp ↦ (BPlusTree.leafOk_of_mem_leafPages he p hp).shape.length_eq]
  show Except.map joinLines (Except.map _ (f.searchEntries rt query e.btree.leafEntries)) = _
  rcases f.searchEntries rt query e.btree.leafEntries with err | found <;> rfl

variable (f rt query) in
/-- What a search lists of an entry. -/
def listed (x : Bytes × Data) : Option (Bytes × Bytes) :=
  if f.Searched x.1 then
    match rt.decodeRecord x.2 with
    | .ok record =>
      if f.Matches rt query record then some (f.fromUtf8Lossy x.1, f.rowText rt record) else none
    | .error _ => none
  else none

/-- A search lists what it lists of each entry, if it can decode those that it does not pass over. -/
theorem searchEntries_of_decoded (query : Text) : ∀ {entries : List (Bytes × Data)},
    (∀ x ∈ entries, f.Searched x.1 → ∃ record, rt.decodeRecord x.2 = .ok record) →
      f.searchEntries rt query entries = .ok (entries.filterMap (f.listed rt query))
  | [], _ => rfl
  | x :: entries, h => by
    have hrest := searchEntries_of_decoded query fun y hy ↦ h y (List.mem_cons_of_mem x hy)
    rw [searchEntries, List.filterMap_cons, listed]
    by_cases hkey : f.Searched x.1
    · obtain ⟨record, hrecord⟩ := h x List.mem_cons_self hkey
      rw [if_pos hkey, if_pos hkey, hrecord, Except.ok_bind, hrest, Except.ok_bind]
      dsimp only
      split <;> rfl
    · rw [if_neg hkey, if_neg hkey]
      exact hrest

theorem decoded_of_searchEntries : ∀ {entries : List (Bytes × Data)} {found : List (Bytes × Bytes)},
    f.searchEntries rt query entries = .ok found →
      ∀ x ∈ entries, f.Searched x.1 → ∃ record, rt.decodeRecord x.2 = .ok record
  | [], _, _ => fun _ hx ↦ nomatch hx
  | x :: entries, found, h => by
    rw [searchEntries] at h
    by_cases hkey : f.Searched x.1
    · rw [if_pos hkey] at h
      obtain ⟨record, hrecord, h⟩ := Except.exists_of_bind_eq_ok h
      obtain ⟨found', hfound', -⟩ := Except.exists_of_bind_eq_ok h
      exact List.forall_mem_cons.2 ⟨fun _ ↦ ⟨record, hrecord⟩, decoded_of_searchEntries hfound'⟩
    · rw [if_neg hkey] at h
      exact List.forall_mem_cons.2 ⟨fun h ↦ absurd h hkey, decoded_of_searchEntries h⟩

/-! ### The request -/

/-- The request `SEARCH 'q'`. -/
def searchFor (q : Text) : Text := searchText ++ ' ' :: '\'' :: (q ++ ['\''])

/-- The text that is searched for: quotes inside are dropped with those around. -/
def searchedText (q : Text) : Text := q.filter (· ≠ '\'')

/-- The letters of `SEARCH` and what stands around the text are their own upper case. -/
def UpperSearch (f : Frontend) : Prop := ∀ c ∈ searchText ++ [' ', '\''], f.toUppercase c = [c]

instance (f : Frontend) : Decidable f.UpperSearch :=
  inferInstanceAs (Decidable (∀ c ∈ searchText ++ [' ', '\''], f.toUppercase c = [c]))

theorem upperSearch_plain : Frontend.plain.UpperSearch :=
  have hall : ∀ c ∈ searchText ++ [' ', '\''], [c.toUpper] = [c] :=
    List.all_iff_forall_prop.1 (by decide)
  hall

theorem dispatch_searchFor (hupper : f.UpperSearch) (q : Text) :
    f.dispatch (searchFor q) = .search (searchedText q) := by
  have htrim : Text.trim (searchFor q) = searchFor q := by
    have hend : Text.trimEnd ("EARCH '".toList ++ (q ++ ['\''])) =
        "EARCH '".toList ++ (q ++ ['\'']) := by
      rw [← List.append_assoc]
      exact Text.trimEnd_append_cons rfl _ []
    exact (Text.trim_append_cons (c := 'S') rfl [] _).trans (congrArg ('S' :: ·) hend)
  have hstart : f.upper searchText = searchText := by
    have hletter : ∀ c ∈ searchText, f.toUppercase c = [c] := fun c hc ↦
      hupper c (List.mem_append_left _ hc)
    rw [Frontend.upper, List.flatMap_congr hletter]
    rfl
  have hupperText : f.upper (searchFor q) = searchText ++ f.upper (' ' :: '\'' :: (q ++ ['\''])) := by
    rw [searchFor, Frontend.upper, List.flatMap_append]
    exact congrArg (· ++ _) hstart
  have hnone : commandTexts.lookup (f.upper (searchFor q)) = none := by
    refine List.lookup_eq_none_iff.2 fun c hc ↦ bne_iff_ne.2 fun heq ↦ ?_
    rw [hupperText] at heq
    have hhead : c.1.head? = some 'S' := by
      rw [← heq]
      rfl
    have hletters : ∀ c ∈ commandTexts, c.1.head? ≠ some 'S' := by decide
    exact hletters c hc hhead
  have hprefix : searchText.isPrefixOf (f.upper (searchFor q)) = true := by
    rw [hupperText]
    exact List.isPrefixOf_iff_prefix.2 (List.prefix_append _ _)
  have htext : (Text.trim (.trimStartMatches searchText (searchFor q))).filter (· ≠ '\'') =
      searchedText q := by
    have hrest : Text.trimStartMatches searchText (searchFor q) = ' ' :: '\'' :: (q ++ ['\'']) :=
      Text.trimStartMatches_append_cons (by decide) (by decide) searchText _
    have hquote : Text.trim ([' '] ++ '\'' :: (q ++ ['\''])) = '\'' :: (q ++ ['\'']) := by
      rw [Text.trim_append_cons rfl, Text.trimEnd_append_cons rfl]
      rfl
    rw [hrest, show ' ' :: '\'' :: (q ++ ['\'']) = [' '] ++ '\'' :: (q ++ ['\'']) from rfl, hquote,
      List.filter_cons_of_neg (by decide), List.filter_append, searchedText]
    exact List.append_nil _
  rw [dispatch, htrim, hnone]
  dsimp only
  rw [if_pos hprefix, htext]

end Frontend

/-! ### When a search is right -/

/-- The latest committed record under the key is a row that is not deleted. -/
def Engine.LiveColumns (e : Engine) (key : Bytes) (columns : Row) : Prop :=
  ∃ r, e.lastInstalled key = some (.record r) ∧ r.isDeleted = false ∧ r.value = .row columns

/-- The row has the text in one of its columns. -/
def Row.Mentions (columns : Row) (q : Text) : Prop :=
  ∃ c value, columns.lookup c = some value ∧ occursIn q.utf8 value = true

namespace Frontend

variable (f : Frontend) (rt : Runtime) (e : Engine) (q : Text)

/-- `SEARCH 'q'` lists exactly the keys of the live rows that have the text in a column, each once. -/
def SearchFinds : Prop :=
  ∃ query found, f.dispatch (searchFor q) = .search query ∧
    f.universalSearch rt query e = .ok (searchAnswer query found) ∧
    f.searchEntries rt query e.btree.leafEntries = .ok found ∧ (found.map Prod.fst).Nodup ∧
    ∀ key, key ∈ found.map Prod.fst ↔ ∃ columns, e.LiveColumns key columns ∧ columns.Mentions q

/-- The entry of the tree is a record that is not deleted and has the text, without its quotes, in its
encoding. -/
def TreeMatch (x : Bytes × Data) : Prop := (f.listed rt (searchedText q) x).isSome = true

instance : DecidablePred (f.TreeMatch rt q) := fun _ ↦ instDecidableEqBool _ _

/-- The tree has only records where a search looks, and they match as the live rows do. -/
structure Searchable : Prop where
  records : ∀ x ∈ e.btree.leafEntries, f.Searched x.1 → ∃ record, rt.decodeRecord x.2 = .ok record
  once : ((e.btree.leafEntries.filter (f.TreeMatch rt q)).map Prod.fst).Nodup
  live : ∀ x ∈ e.btree.leafEntries, f.TreeMatch rt q x →
    ∃ columns, e.LiveColumns x.1 columns ∧ columns.Mentions q
  present : ∀ key columns, e.LiveColumns key columns → columns.Mentions q →
    ∃ data, (key, data) ∈ e.btree.leafEntries ∧ f.TreeMatch rt q (key, data)

variable {f rt e q}

/-- The keys that a search lists are those of the matching entries, where they are texts. -/
theorem map_fst_filterMap_listed {entries : List (Bytes × Data)}
    (htexts : ∀ x ∈ entries, f.fromUtf8Lossy x.1 = x.1) :
    (entries.filterMap (f.listed rt (searchedText q))).map Prod.fst =
      (entries.filter (f.TreeMatch rt q)).map Prod.fst := by
  have hkey : ∀ (x : Bytes × Data) (y : Bytes × Bytes),
      f.listed rt (searchedText q) x = some y → y.1 = f.fromUtf8Lossy x.1 := by
    intro x y h
    rw [listed] at h
    split at h
    · split at h
      · split at h
        · rw [← Option.some.inj h]
        · cases h
      · cases h
    · cases h
  induction entries with
  | nil => rfl
  | cons x entries ih =>
    have hrest := ih fun y hy ↦ htexts y (List.mem_cons_of_mem x hy)
    rcases hlisted : f.listed rt (searchedText q) x with - | y
    · have hno : ¬ f.TreeMatch rt q x := by
        rw [TreeMatch, hlisted]
        nofun
      rw [List.filterMap_cons_none hlisted, List.filter_cons_of_neg (by simpa using hno), hrest]
    · have hyes : f.TreeMatch rt q x := by
        rw [TreeMatch, hlisted]
        rfl
      rw [List.filterMap_cons_some hlisted, List.filter_cons_of_pos (by simpa using hyes),
        List.map_cons, List.map_cons, hrest, hkey x y hlisted, htexts x List.mem_cons_self]

end Frontend

/-- **When a search is right.** In every state that a run reaches, `SEARCH 'q'` succeeds and lists exactly
the keys of the live rows that have the text in a column, each once, if and only if every entry of the tree
that the search does not pass over is a record, and the records of the tree match as the live rows do. -/
theorem searchFinds_iff [Bincode (WalEntry Bytes Data)] {f : Frontend} {rt : Runtime} {actions : List Action}
    {s : System} (hupper : f.UpperSearch) (hrun : System.start.run rt actions = some s)
    (hbounded : s.engine.Bounded)
    (htexts : ∀ x ∈ s.engine.btree.leafEntries, f.fromUtf8Lossy x.1 = x.1) (q : Text) :
    f.SearchFinds rt s.engine q ↔ f.Searchable rt s.engine q := by
  have hsearch : ∀ query, f.universalSearch rt query s.engine =
      (f.searchEntries rt query s.engine.btree.leafEntries).map (Frontend.searchAnswer query) :=
    fun query ↦ Frontend.universalSearch_eq (System.coherent_of_run hrun hbounded).sound
  have hmem : ∀ key, key ∈ (s.engine.btree.leafEntries.filter (f.TreeMatch rt q)).map Prod.fst ↔
      ∃ data, (key, data) ∈ s.engine.btree.leafEntries ∧ f.TreeMatch rt q (key, data) := by
    intro key
    rw [List.mem_map]
    constructor
    · rintro ⟨⟨key, data⟩, hx, rfl⟩
      exact ⟨data, (List.mem_filter.1 hx).1, of_decide_eq_true (List.mem_filter.1 hx).2⟩
    · rintro ⟨data, hx, hmatch⟩
      exact ⟨(key, data), List.mem_filter.2 ⟨hx, decide_eq_true hmatch⟩, rfl⟩
  constructor
  · rintro ⟨query, found, hdispatch, -, hfound, hnodup, hkeys⟩
    obtain rfl : Frontend.searchedText q = query := by
      rw [Frontend.dispatch_searchFor hupper] at hdispatch
      exact Request.search.inj hdispatch
    have hrecords := Frontend.decoded_of_searchEntries hfound
    obtain rfl := Except.ok.inj
      ((Frontend.searchEntries_of_decoded _ hrecords).symm.trans hfound)
    rw [Frontend.map_fst_filterMap_listed htexts] at hnodup hkeys
    refine ⟨hrecords, hnodup, fun x hx hmatch ↦ (hkeys x.1).1 ((hmem x.1).2 ⟨x.2, hx, hmatch⟩),
      fun key columns hlive hmention ↦ (hmem key).1 ((hkeys key).2 ⟨columns, hlive, hmention⟩)⟩
  · rintro ⟨hrecords, honce, hlive, hpresent⟩
    have hfound := Frontend.searchEntries_of_decoded (Frontend.searchedText q) hrecords
    refine ⟨_, _, Frontend.dispatch_searchFor hupper q, by rw [hsearch, hfound]; rfl, hfound, ?_, ?_⟩
    · rw [Frontend.map_fst_filterMap_listed htexts]
      exact honce
    · intro key
      rw [Frontend.map_fst_filterMap_listed htexts, hmem]
      constructor
      · rintro ⟨data, hx, hmatch⟩
        exact hlive _ hx hmatch
      · rintro ⟨columns, hcolumns, hmention⟩
        exact hpresent key columns hcolumns hmention

/-- A tree that holds the latest record of every row and nothing else can be searched for a text without
quotes that the encodings of the rows contain in their values only. -/
theorem searchable_of_latest {f : Frontend} {rt : Runtime} {e : Engine} {q : Text}
    (hq : '\'' ∉ q) (hkeys : (e.btree.leafEntries.map Prod.fst).Nodup)
    (hrows : ∀ x ∈ e.btree.leafEntries, f.Searched x.1 → x.2.isRow = true)
    (hlatest : ∀ key data, f.Searched key →
      ((key, data) ∈ e.btree.leafEntries ↔ e.lastInstalled key = some data))
    (hnames : ∀ key columns, e.LiveColumns key columns → f.Searched key)
    (hencoding : ∀ key columns, e.LiveColumns key columns →
      (occursIn q.utf8 (f.fromUtf8Lossy (rt.payloadBytes (.row columns))) = true ↔
        columns.Mentions q)) : f.Searchable rt e q := by
  have hsame : Frontend.searchedText q = q := by
    refine List.filter_eq_self.2 fun c hc ↦ decide_eq_true fun heq ↦ hq ?_
    rwa [← heq]
  have hlisted : ∀ {key : Bytes} {r : Record} {columns : Row}, f.Searched key →
      r.value = .row columns → (f.TreeMatch rt q (key, .record r) ↔ r.isDeleted = false ∧
        occursIn q.utf8 (f.fromUtf8Lossy (rt.payloadBytes (.row columns))) = true) := by
    intro key r columns hkey hvalue
    rw [Frontend.TreeMatch, Frontend.listed, if_pos hkey, hsame]
    show Option.isSome (if f.Matches rt q r then _ else _) = true ↔ _
    rw [← hvalue]
    by_cases hmatch : f.Matches rt q r
    · rw [if_pos hmatch]
      exact iff_of_true rfl hmatch
    · rw [if_neg hmatch]
      exact iff_of_false nofun hmatch
  have hsearched : ∀ {x : Bytes × Data}, f.TreeMatch rt q x → f.Searched x.1 := by
    intro x hmatch
    by_contra hkey
    rw [Frontend.TreeMatch, Frontend.listed, if_neg hkey] at hmatch
    cases hmatch
  refine ⟨fun x hx hkey ↦ ?_, ?_, fun x hx hmatch ↦ ?_, fun key columns hlive hmention ↦ ?_⟩
  · obtain ⟨r, columns, hr, -⟩ := exists_row_of_isRow (hrows x hx hkey)
    exact ⟨r, by rw [hr]; rfl⟩
  · exact hkeys.sublist (List.filter_sublist.map _)
  · have hkey := hsearched hmatch
    obtain ⟨r, columns, hr, hvalue⟩ := exists_row_of_isRow (hrows x hx hkey)
    obtain ⟨key, data⟩ := x
    obtain rfl : data = .record r := hr
    obtain ⟨hdeleted, hoccurs⟩ := (hlisted hkey hvalue).1 hmatch
    have hlive : e.LiveColumns key columns := ⟨r, (hlatest key _ hkey).1 hx, hdeleted, hvalue⟩
    exact ⟨columns, hlive, (hencoding key columns hlive).1 hoccurs⟩
  · have hkey := hnames key columns hlive
    obtain ⟨r, hlast, hdeleted, hvalue⟩ := id hlive
    exact ⟨.record r, (hlatest key _ hkey).2 hlast,
      (hlisted hkey hvalue).2 ⟨hdeleted, (hencoding key columns hlive).2 hmention⟩⟩

/-- A row that has reached the tree is found. -/
theorem searchFinds_iff_drained : let _ := plainBincode []
    ∃ s, System.start.run .plain insertDrained = some s ∧
      (Frontend.plain.SearchFinds .plain s.engine "2".toList ↔
        Frontend.plain.Searchable .plain s.engine "2".toList) := by
  let _ := plainBincode []
  obtain ⟨s, hs⟩ : ∃ s, System.start.run .plain insertDrained = some s :=
    Option.isSome_iff_exists.1 (by decide +kernel)
  have hall : (System.start.run .plain insertDrained).all (fun s ↦
      s.engine.btree.pager.handedOut.length < 2 ^ 32 ∧ s.engine.history.bumps < 2 ^ 64) = true := by
    decide +kernel
  rw [hs, Option.all_some, decide_eq_true_iff] at hall
  exact ⟨s, hs, searchFinds_iff Frontend.upperSearch_plain hs ⟨hall.1, hall.2⟩ (fun _ _ ↦ rfl) "2".toList⟩

/-- A row that has not reached the tree is not found: after `CREATE TABLE u (id)` and
`INSERT INTO u VALUES ('2')` the answer to `SEARCH '2'` lists nothing. -/
theorem not_searchFinds : ¬ ∀ (_ : Bincode (WalEntry Bytes Data)) (f : Frontend) (rt : Runtime)
    (actions : List Action) (s : System), f.UpperSearch → System.start.run rt actions = some s →
      s.engine.Bounded → (∀ x ∈ s.engine.btree.leafEntries, f.fromUtf8Lossy x.1 = x.1) →
        ∀ q, f.SearchFinds rt s.engine q := by
  intro h
  let _ := plainBincode []
  let actions : List Action := [.call 1 (createTableOf "u" ["id"]), .call 1 (insertOf "u" ["2"])]
  obtain ⟨s, hs⟩ : ∃ s, System.start.run .plain actions = some s :=
    Option.isSome_iff_exists.1 (by decide +kernel)
  have hall : (System.start.run .plain actions).all (fun s ↦
      s.engine.btree.pager.handedOut.length < 2 ^ 32 ∧ s.engine.history.bumps < 2 ^ 64 ∧
        (s.engine.btree.leafEntries.filter (Frontend.plain.TreeMatch .plain "2".toList)) = [] ∧
        s.engine.lastInstalled (rowKey (bytes "u") 0) = some (.record ⟨.row
          ((∅ : Row).insert (bytes "id") (bytes "2")), 0, false, 1⟩)) = true := by decide +kernel
  rw [hs, Option.all_some, decide_eq_true_iff] at hall
  obtain ⟨hpages, hbumps, hnone, hlast⟩ := hall
  obtain ⟨query, found, hdispatch, -, hfound, -, hkeys⟩ :=
    h _ .plain .plain actions s Frontend.upperSearch_plain hs ⟨hpages, hbumps⟩ (fun _ _ ↦ rfl) "2".toList
  obtain rfl : Frontend.searchedText "2".toList = query := by
    rw [Frontend.dispatch_searchFor Frontend.upperSearch_plain] at hdispatch
    exact Request.search.inj hdispatch
  have hmem := (hkeys (rowKey (bytes "u") 0)).2 ⟨_, ⟨_, hlast, rfl, rfl⟩, bytes "id", bytes "2",
    rfl, by decide⟩
  rw [← Except.ok.inj ((Frontend.searchEntries_of_decoded _
    (Frontend.decoded_of_searchEntries hfound)).symm.trans hfound),
    Frontend.map_fst_filterMap_listed fun _ _ ↦ rfl, hnone] at hmem
  cases hmem

end KsSql
