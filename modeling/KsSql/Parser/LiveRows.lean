import KsSql.Parser.Runs

/-!
# The live rows of a table

What a scan of a table is for: the rows whose latest installed record is not deleted and not newer
than the version read at (`Engine.LiveAt`). Where nothing was evicted, and the leaf chain shows no
record that the memory tier has replaced (`NothingStale`), a scan returns them, each once
(`scanTable_live`).

The keys of index entries start with `idx:`. A table whose rows' keys do not is called plain
(`PlainTable`): only a table named `idx` is not. Under the keys of a plain table there are records of
rows only.
-/

namespace KsSql

/-- What the keys of index entries start with. -/
def indexPrefix : Bytes := bytes "idx:"

/-- A key that is not taken for that of an index entry. -/
def PlainKey (key : Bytes) : Prop := indexPrefix.isPrefixOf key = false

/-- A table whose rows are not taken for index entries. -/
def PlainTable (t : Bytes) : Prop := PlainKey (tablePrefix t)

instance : DecidablePred PlainKey := fun key ↦
  inferInstanceAs (Decidable (indexPrefix.isPrefixOf key = false))

instance : DecidablePred PlainTable := fun t ↦ inferInstanceAs (Decidable (PlainKey (tablePrefix t)))

theorem not_plainKey_of_isIndexKey {key : Bytes} (h : IsIndexKey key) : ¬ PlainKey key := by
  obtain ⟨t, c, v, rfl⟩ := h
  have hprefix : indexPrefix <+: indexKey t c v :=
    ⟨t ++ bytes ":" ++ c ++ bytes ":" ++ v, by simp only [indexKey, indexPrefix, List.append_assoc]⟩
  rw [PlainKey, List.isPrefixOf_iff_prefix.2 hprefix]
  exact nofun

/-- The only colon of `idx:` is at its end, so that it does not reach beyond a table's prefix. -/
theorem PlainTable.plainKey {t key : Bytes} (h : PlainTable t)
    (hkey : (tablePrefix t).isPrefixOf key = true) : PlainKey key := by
  rw [PlainKey, ← Bool.not_eq_true, List.isPrefixOf_iff_prefix]
  intro hindex
  rw [List.isPrefixOf_iff_prefix] at hkey
  have hplain : ¬ indexPrefix <+: tablePrefix t := by
    rw [← List.isPrefixOf_iff_prefix, Bool.not_eq_true]
    exact h
  rcases List.prefix_or_prefix_of_prefix hkey hindex with hle | hle
  · obtain ⟨rest, hrest⟩ := hle
    rcases List.eq_nil_or_concat rest with rfl | ⟨rest, last, rfl⟩
    · rw [List.append_nil] at hrest
      exact hplain (hrest ▸ List.prefix_rfl)
    · -- the colon of the table's prefix would be one of the letters before the end
      have hcolon : (58 : UInt8) ∈ indexPrefix.dropLast := by
        rw [← hrest, List.concat_eq_append, ← List.append_assoc, List.dropLast_concat]
        exact List.mem_append_left _ (List.mem_append_right _ (by decide))
      exact absurd hcolon (by decide)
  · exact hplain hle

namespace Engine

variable {rt : Runtime} {N : Bytes → Prop} {e e' : Engine} {t key : Bytes} {columns : Row}
  {version : Nat}

/-- Under a key of the table the latest installed record is a row that is not deleted and not newer
than the version. -/
def LiveAt (e : Engine) (version : Nat) (t key : Bytes) (columns : Row) : Prop :=
  (tablePrefix t).isPrefixOf key = true ∧ ∃ r, e.lastInstalled key = some (.record r) ∧
    r.version ≤ version ∧ r.isDeleted = false ∧ r.value = .row columns

/-- No record on the leaf chain is shown under a key of the table whose latest record is not. -/
def NothingStale (e : Engine) (version : Nat) (t : Bytes) : Prop :=
  ∀ x ∈ e.btree.leafEntries, (tablePrefix t).isPrefixOf x.1 = true → ∀ r, x.2 = .record r →
    r.version ≤ version → r.isDeleted = false →
      ∃ r', e.lastInstalled x.1 = some (.record r') ∧ r'.version ≤ version ∧ r'.isDeleted = false

/-- What is stored under a plain key, except that of the catalogue, is the record of a row. -/
theorem Coherent.exists_row_of_known {data : Data} (h : e.Coherent rt N) (hplain : PlainKey key)
    (hschemas : key ≠ schemasKey) (hknown : e.Known N key data) :
    ∃ r columns, data = .record r ∧ r.value = .row columns ∧ r.version ≤ e.currentVersion ∧
      ∀ c ∈ columns.keys, N c := by
  obtain ⟨hversion, hrest⟩ := h.legit_of_known hknown
  rcases hrest with hindex | hkey | ⟨r, rfl, hindex | hkey | ⟨columns, hvalue, hcolumns⟩⟩
  · exact absurd hplain (not_plainKey_of_isIndexKey hindex)
  · exact absurd hkey hschemas
  · exact absurd hplain (not_plainKey_of_isIndexKey hindex)
  · exact absurd hkey hschemas
  · exact ⟨r, columns, rfl, hvalue, hversion r rfl, hcolumns⟩

theorem ne_schemasKey_of_isPrefixOf (hkey : (tablePrefix t).isPrefixOf key = true) :
    key ≠ schemasKey := by
  rintro rfl
  rw [List.isPrefixOf_iff_prefix] at hkey
  have hcolon : (58 : UInt8) ∈ schemasKey := hkey.subset (List.mem_append_right _ (by decide))
  exact absurd hcolon (by decide)

/-- **What a scan shows under a key** of a plain table is the live row, if nothing stale is shown. -/
theorem view_eq_some_iff (h : e.Coherent rt N) (hev : e.history.evictions = 0) (ht : PlainTable t)
    (hstale : e.NothingStale version t) :
    e.view rt t version key = some columns ↔ e.LiveAt version t key columns := by
  have hrow : ∀ {k : Bytes} {d : Data}, (tablePrefix t).isPrefixOf k = true → e.Known N k d →
      ∃ r columns, d = .record r ∧ r.value = .row columns ∧ r.version ≤ e.currentVersion ∧
        ∀ c ∈ columns.keys, N c := fun hk hknown ↦
    h.exists_row_of_known (ht.plainKey hk) (ne_schemasKey_of_isPrefixOf hk) hknown
  -- what the memory tier holds of a live row is shown first
  have hlive : ∀ {columns : Row}, e.LiveAt version t key columns →
      e.view rt t version key = some columns := by
    rintro columns ⟨hkey, r, hr, hversion, hdeleted, hvalue⟩
    rw [view_eq, h.full hev key, hr, Option.bind_some, rt.shownUnder_row hkey hvalue,
      if_pos ⟨hversion, hdeleted⟩, Option.some_or]
  refine ⟨fun hview ↦ ?_, hlive⟩
  obtain ⟨data, hdata, hshown⟩ := exists_mem_of_firstHit hview
  have hkey : (tablePrefix t).isPrefixOf key = true := by
    by_contra hkey
    rw [Runtime.shownUnder, if_neg hkey] at hshown
    cases hshown
  obtain ⟨r, columns', rfl, hvalue, -⟩ := hrow hkey (h.known_of_entries hdata)
  rw [rt.shownUnder_row hkey hvalue] at hshown
  split at hshown
  · rename_i hcond
    cases hshown
    rcases List.mem_append.1 hdata with htier | hleaf
    · rw [mem_iterate_iff] at htier
      exact ⟨hkey, r, (h.full hev key).symm.trans htier, hcond.1, hcond.2, hvalue⟩
    · obtain ⟨r', hr', hversion', hdeleted'⟩ := hstale _ hleaf hkey r rfl hcond.1 hcond.2
      obtain ⟨r'', columns'', heq, hvalue'', -⟩ := hrow hkey
        (h.known_of_tier ((h.full hev key).trans hr'))
      cases heq
      have hlast : e.LiveAt version t key columns'' :=
        ⟨hkey, r', hr', hversion', hdeleted', hvalue''⟩
      rw [hlive hlast] at hview
      cases hview
      exact hlast
  · cases hshown

/-- **A scan returns the live rows**, each once. -/
theorem scanTable_live (h : e.Coherent rt N) (hev : e.history.evictions = 0) (ht : PlainTable t)
    (hstale : e.NothingStale version t) :
    e.scanTable rt t version = .ok (rowsOf rt t (e.scanned rt t version)) ∧
      (e.scanned rt t version).Nodup ∧
      ∀ key columns, (key, columns) ∈ e.scanned rt t version ↔ e.LiveAt version t key columns := by
  have hnodup : ((e.scanned rt t version).map Prod.fst).Nodup :=
    nodup_firstHits _ _ List.nodup_nil
  refine ⟨scanTable_ok h.sound fun x hx hkey ↦ ?_, hnodup.of_map _,
    fun key columns ↦ mem_scanned.trans (view_eq_some_iff h hev ht hstale)⟩
  obtain ⟨r, columns, hr, hvalue, -⟩ := h.exists_row_of_known (ht.plainKey hkey)
    (ne_schemasKey_of_isPrefixOf hkey) (h.known_of_entries hx)
  exact ⟨r, by rw [hr]; rfl, fun _ _ ↦ ⟨columns, by rw [hvalue]; rfl⟩⟩

/-- Two engines with the same live rows scan the same rows, up to their order. -/
theorem scanned_perm_of_live {version' : Nat} (h : e.Coherent rt N) (h' : e'.Coherent rt N)
    (hev : e.history.evictions = 0) (hev' : e'.history.evictions = 0) (ht : PlainTable t)
    (hstale : e.NothingStale version t) (hstale' : e'.NothingStale version' t)
    (hlive : ∀ key columns, e.LiveAt version t key columns ↔ e'.LiveAt version' t key columns) :
    (e.scanned rt t version).Perm (e'.scanned rt t version') := by
  obtain ⟨-, hnodup, hmem⟩ := scanTable_live h hev ht hstale
  obtain ⟨-, hnodup', hmem'⟩ := scanTable_live h' hev' ht hstale'
  refine (List.perm_ext_iff_of_nodup hnodup hnodup').2 fun x ↦ ?_
  rw [hmem, hmem', hlive]

end Engine

end KsSql
