import KsSql.Parser.Insertions
import KsSql.Parser.Isolation
import KsSql.Parser.Sessions
import KsSql.Parser.UndoRedo
import KsSql.Parser.VersionClock
import KsSql.Util.Filters

/-!
# What the engine shows of tables

The tables are read off the engine as `Engine.database`: under each key there is the row whose record was
installed last in the memory tier, unless it is deleted. The transactions are read off the buffers as
`Engine.snapshot`: a row was changed by others if its record is newer than the transaction's version.
Together they are `Engine.sessions`.

A statement of a connection scans the tables at the version of its transaction, or at the current one. It
finds the rows that the connection is to see (`Tabular.enumerates`), where what is stored besides the
catalogue are the rows of tables with simple names (`Tabular`), nothing was evicted, and no older record
on the leaf chain is shown in place of the last one (`NothingStale`).
-/

namespace KsSql

open Engine

/-- The row that the bytes are the record of, if it is not deleted. -/
def Data.liveRow : Data → Option Row
  | .record ⟨.row columns, _, false, _⟩ => some columns
  | _ => none

theorem Data.liveRow_eq_some_iff {data : Data} {columns : Row} : data.liveRow = some columns ↔
    ∃ r, data = .record r ∧ r.isDeleted = false ∧ r.value = .row columns := by
  constructor
  · intro h
    unfold Data.liveRow at h
    split at h
    · exact ⟨_, rfl, rfl, congrArg Payload.row (Option.some.inj h)⟩
    · cases h
  · rintro ⟨⟨value, version, isDeleted, timestamp⟩, rfl, rfl, rfl⟩
    rfl

/-- The version of a record does not matter. -/
theorem Data.liveRow_version (r : Record) (version : Nat) :
    (Data.record { r with version := version }).liveRow = (Data.record r).liveRow := by
  obtain ⟨value, v, isDeleted, timestamp⟩ := r
  cases value <;> cases isDeleted <;> rfl

/-- A name without a colon, which is not the one that the keys of index entries begin with. -/
def SimpleName (t : Bytes) : Prop := t ≠ bytes "idx" ∧ (58 : UInt8) ∉ t

instance : DecidablePred SimpleName := fun _ ↦ inferInstanceAs (Decidable (_ ∧ _))

/-- The keys of a table with a simple name are no other table's. -/
theorem isPrefixOf_rowKey_iff {t t' : Bytes} (h : SimpleName t) (id : UInt64) :
    (tablePrefix t').isPrefixOf (rowKey t id) = true ↔ t' = t := by
  rw [List.isPrefixOf_iff_prefix]
  constructor
  · intro hinto
    have hname : t' ++ [58] <+: t ++ [58] := isPrefix_of_not_mem hinto (colon_not_mem_hex16 id)
    rcases List.prefix_concat_iff.1 hname with heq | hle
    · exact List.append_cancel_right heq
    · exact absurd (hle.subset (List.mem_append_right _ List.mem_cons_self)) h.2
  · rintro rfl
    exact List.prefix_append _ _

theorem SimpleName.plainKey {t : Bytes} (h : SimpleName t) (id : UInt64) : PlainKey (rowKey t id) := by
  have hindex : indexPrefix = tablePrefix (bytes "idx") := by decide
  rw [PlainKey, ← Bool.not_eq_true, hindex, isPrefixOf_rowKey_iff h id]
  exact fun heq ↦ h.1 heq.symm

/-- A key of a table with a simple name. -/
def IsRowKey (key : Bytes) : Prop := ∃ t id, SimpleName t ∧ key = rowKey t id

theorem IsRowKey.table_eq {t t' key : Bytes} (h : IsRowKey key) (ht : (tablePrefix t).isPrefixOf key = true)
    (ht' : (tablePrefix t').isPrefixOf key = true) : t' = t := by
  obtain ⟨u, id, hname, rfl⟩ := h
  exact ((isPrefixOf_rowKey_iff hname id).1 ht').trans ((isPrefixOf_rowKey_iff hname id).1 ht).symm

/-- A table with a key like this is plain. -/
theorem IsRowKey.plainTable {t key : Bytes} (h : IsRowKey key) (ht : (tablePrefix t).isPrefixOf key = true) :
    PlainTable t := by
  obtain ⟨u, id, hname, rfl⟩ := h
  rw [PlainTable, PlainKey, ← Bool.not_eq_true, List.isPrefixOf_iff_prefix]
  intro hindex
  have hplain := hname.plainKey id
  rw [PlainKey, ← Bool.not_eq_true, List.isPrefixOf_iff_prefix] at hplain
  exact hplain (hindex.trans (List.isPrefixOf_iff_prefix.1 ht))

/-- The rows under some keys, as changes of the tables that the keys belong to. -/
def rowsUnder (keys : List Bytes) (row : Bytes → Option Row) : RowChanges := fun t key ↦
  if (tablePrefix t).isPrefixOf key ∧ key ∈ keys then some (row key) else none

theorem rowsUnder_isSome_iff {keys : List Bytes} {row : Bytes → Option Row} {t key : Bytes} :
    (rowsUnder keys row t key).isSome ↔ (tablePrefix t).isPrefixOf key ∧ key ∈ keys := by
  unfold rowsUnder
  split
  · rename_i h
    exact iff_of_true rfl h
  · rename_i h
    exact iff_of_false nofun h

/-- The row that a transaction writes under a key. -/
def Transaction.row (tx : Transaction) (key : Bytes) : Option Row :=
  (tx.updates.lookup key).bind Data.liveRow

namespace Engine

variable {rt : Runtime} {N : Bytes → Prop} {e u : Engine} {conn version : Nat} {t key : Bytes}
  {columns : Row} {data : Data}

/-- The row under a key that is not deleted. -/
def liveRow (e : Engine) (key : Bytes) : Option Row := (e.lastInstalled key).bind Data.liveRow

/-- The tables, as they are to be seen. -/
def database (e : Engine) : Database where
  tables t := e.schemas.lookup t
  rows t key := if (tablePrefix t).isPrefixOf key then e.liveRow key else none
  inserted := e.history.drawn.length

/-- A transaction, as it is to be seen. -/
def snapshot (e : Engine) (tx : Transaction) : Snapshot where
  writes := rowsUnder tx.updates.keys tx.row
  overtaken t key := (tablePrefix t).isPrefixOf key ∧
    ∃ r, e.lastInstalled key = some (.record r) ∧ tx.snapshotVersion < r.version
  moved := tx.snapshotVersion < e.currentVersion

/-- The tables and the transactions, as they are to be seen. -/
def sessions (e : Engine) : TableSessions where
  db := e.database
  opened conn := (e.activeTransactions.lookup conn).map e.snapshot

theorem rows_database_eq_some_iff :
    e.database.rows t key = some columns ↔ e.LiveRow t key columns := by
  rw [database, LiveRow]
  dsimp only
  split
  · rename_i hkey
    rw [liveRow, Option.bind_eq_some_iff, and_iff_right hkey]
    constructor
    · rintro ⟨data, hdata, hrow⟩
      obtain ⟨r, rfl, hdeleted, hvalue⟩ := Data.liveRow_eq_some_iff.1 hrow
      exact ⟨r, hdata, hdeleted, hvalue⟩
    · rintro ⟨r, hr, hdeleted, hvalue⟩
      exact ⟨.record r, hr, Data.liveRow_eq_some_iff.2 ⟨r, rfl, hdeleted, hvalue⟩⟩
  · rename_i hkey
    exact iff_of_false nofun fun h ↦ hkey h.1

theorem opened_sessions (e : Engine) (conn : Nat) :
    e.sessions.opened conn = (e.activeTransactions.lookup conn).map e.snapshot := rfl

theorem view_of_none (h : e.activeTransactions.lookup conn = none) : e.sessions.view conn = e.database := by
  rw [TableSessions.view, opened_sessions, h]
  rfl

theorem view_of_some {tx : Transaction} (h : e.activeTransactions.lookup conn = some tx) :
    e.sessions.view conn = (e.snapshot tx).view e.database := by
  rw [TableSessions.view, opened_sessions, h]
  rfl

theorem tables_view (conn : Nat) : (e.sessions.view conn).tables = e.database.tables := by
  unfold TableSessions.view
  split <;> rfl

/-- What was installed last is not newer than the current version. -/
theorem Coherent.version_le_of_lastInstalled (hco : e.Coherent rt N) {r : Record}
    (hr : e.lastInstalled key = some (.record r)) : r.version ≤ e.currentVersion := by
  obtain ⟨w, hw, -, hdata⟩ := mem_installs_of_lastInstalled hr
  exact (hco.legit w hw).1 r hdata

/-- The rows that a connection is to see are those whose last records are not newer than the version that
it reads at. -/
theorem rows_view_eq_some_iff (hco : e.Coherent rt N) :
    (e.sessions.view conn).rows t key = some columns ↔ e.LiveAt (e.readVersion conn) t key columns := by
  rw [readVersion]
  rcases htx : e.activeTransactions.lookup conn with - | tx
  · rw [view_of_none htx]
    refine rows_database_eq_some_iff.trans ⟨?_, ?_⟩
    · rintro ⟨hkey, r, hr, hdeleted, hvalue⟩
      exact ⟨hkey, r, hr, hco.version_le_of_lastInstalled hr, hdeleted, hvalue⟩
    · rintro ⟨hkey, r, hr, -, hdeleted, hvalue⟩
      exact ⟨hkey, r, hr, hdeleted, hvalue⟩
  · rw [view_of_some htx, Snapshot.view]
    dsimp only
    split
    · rename_i hover
      refine iff_of_false (Option.some_ne_none columns).symm ?_
      rintro ⟨-, r, hr, hversion, -⟩
      obtain ⟨-, r', hr', hlt⟩ := hover
      obtain rfl := Data.record.inj (Option.some.inj (hr.symm.trans hr'))
      exact absurd hversion (Nat.not_le.2 hlt)
    · rename_i hover
      refine rows_database_eq_some_iff.trans ⟨?_, ?_⟩
      · rintro ⟨hkey, r, hr, hdeleted, hvalue⟩
        exact ⟨hkey, r, hr, Nat.not_lt.1 fun hlt ↦ hover ⟨hkey, r, hr, hlt⟩, hdeleted, hvalue⟩
      · rintro ⟨hkey, r, hr, -, hdeleted, hvalue⟩
        exact ⟨hkey, r, hr, hdeleted, hvalue⟩

instance : Decidable (e.NothingStale version t) :=
  decidable_of_iff (∀ x ∈ e.btree.leafEntries, (tablePrefix t).isPrefixOf x.1 = true →
    ∀ r ∈ x.2.record?, r.version ≤ version → r.isDeleted = false →
      ∃ r' ∈ (e.lastInstalled x.1).bind Data.record?, r'.version ≤ version ∧ r'.isDeleted = false) <| by
    simp only [NothingStale, Option.mem_def, Data.record?_eq_some, Option.bind_eq_some_iff,
      exists_eq_right]

/-! ### Tables with simple names -/

/-- The bytes under a key were installed in the memory tier, or are the catalogue. -/
def Traced (e : Engine) (key : Bytes) (data : Data) : Prop :=
  (∃ w ∈ e.history.installs, w.key = key ∧ w.data = data) ∨ key = schemasKey

/-- There is no index, and what is stored besides the catalogue, or is to be, are the records of tables
with simple names. -/
structure Tabular (e : Engine) : Prop where
  unindexed : e.indices = ∅
  written : ∀ w ∈ e.history.installs, IsRowKey w.key ∧ ∃ r, w.data = .record r
  buffered : ∀ conn tx, e.activeTransactions.lookup conn = some tx → ∀ key ∈ tx.updates.keys, IsRowKey key
  enqueued : ∀ key data, .recordUpdate key data ∈ e.btree.wal.enqueued → e.Traced key data

/-- No record that was installed last under a key is deleted. -/
def Undeleted (e : Engine) : Prop := ∀ key data, e.lastInstalled key = some data → data.isDeleted = false

theorem Undeleted.noneResurrected (h : e.Undeleted) (t : Bytes) : e.NoneResurrected t :=
  fun x _ _ _ data hdata ↦ h x.1 data hdata

theorem Undeleted.install (h : e.Undeleted) {w : Install} (hw : w.data.isDeleted = false) :
    (e.install rt w).Undeleted := by
  intro key data hdata
  rw [lastInstalled_install] at hdata
  split at hdata
  · exact Option.some.inj hdata ▸ hw
  · exact h key data hdata

theorem Tabular.isRowKey_of_lastInstalled (h : e.Tabular) (hdata : e.lastInstalled key = some data) :
    IsRowKey key := by
  obtain ⟨w, hw, rfl, -⟩ := mem_installs_of_lastInstalled hdata
  exact (h.written w hw).1

/-! ### What is read -/

/-- What is stored besides the catalogue is the record of a row. -/
theorem Tabular.exists_row (h : e.Tabular) (hco : e.Coherent rt N) (htraced : e.Traced key data)
    (hne : key ≠ schemasKey) : IsRowKey key ∧ ∃ r columns, data = .record r ∧
      r.value = .row columns ∧ ∀ c ∈ columns.keys, N c := by
  obtain ⟨w, hw, rfl, rfl⟩ := htraced.resolve_right hne
  have hrowKey := (h.written w hw).1
  obtain ⟨t, id, ht, hkey⟩ := hrowKey
  obtain ⟨r, columns, hr, hvalue, -, hcolumns⟩ := hco.exists_row_of_known
    (hkey ▸ ht.plainKey id) hne (Or.inl ⟨w, hw, rfl, rfl⟩)
  exact ⟨⟨t, id, ht, hkey⟩, r, columns, hr, hvalue, hcolumns⟩

theorem Tabular.traced_of_stored (h : e.Tabular) (hs : e.Stored N key data) : e.Traced key data :=
  hs.elim (h.enqueued key data) fun hkey ↦ Or.inr hkey.1

theorem Coherent.traced_of_tier (hco : e.Coherent rt N)
    (hdata : e.btree.memoryTier.get key = some data) : e.Traced key data :=
  Or.inl (mem_installs_of_lastInstalled (hco.tier key data hdata))

theorem Tabular.traced_of_entries (h : e.Tabular) (hco : e.Coherent rt N) {x : Bytes × Data}
    (hx : x ∈ e.entries rt) : e.Traced x.1 x.2 := by
  rcases List.mem_append.1 hx with hx | hx
  · exact hco.traced_of_tier (mem_iterate_iff.1 hx)
  · exact h.traced_of_stored (BPlusTree.rel_of_mem_leafEntries hco.sound hx)

theorem Tabular.rowsOnly (h : e.Tabular) (hco : e.Coherent rt N) (t : Bytes) : e.RowsOnly rt t := by
  intro x hx hkey
  obtain ⟨-, r, columns, hr, hvalue, -⟩ :=
    h.exists_row hco (h.traced_of_entries hco hx) (ne_schemasKey_of_isPrefixOf hkey)
  obtain ⟨value, version, isDeleted, timestamp⟩ := r
  obtain rfl : value = .row columns := hvalue
  rw [hr]
  rfl

/-- There is nothing under the key of an index entry. -/
theorem Tabular.fetch_indexKey (h : e.Tabular) (hco : e.Coherent rt N) (t column value : Bytes) :
    e.fetch rt (indexKey t column value) = .ok none := by
  have huntraced : ∀ data, ¬ e.Traced (indexKey t column value) data := by
    intro data htraced
    obtain ⟨⟨t', id, ht', hkey⟩, -⟩ := h.exists_row hco htraced (indexKey_ne_schemasKey _ _ _)
    have hindex : IsIndexKey (rowKey t' id) := ⟨t, column, value, hkey.symm⟩
    exact not_plainKey_of_isIndexKey hindex (ht'.plainKey id)
  rcases htier : e.btree.memoryTier.get (indexKey t column value) with - | data
  · obtain ⟨r, hr, hrel⟩ := BPlusTree.getPages_sound rt.search hco.sound (indexKey t column value)
    rcases r with - | data
    · simp only [Engine.fetch, BPlusTree.get, htier, hr]
    · exact absurd (h.traced_of_stored (hrel data rfl)) (huntraced data)
  · exact absurd (hco.traced_of_tier htier) (huntraced data)

/-- What a scan shows under a key is the live row. -/
theorem Tabular.view_eq_some_iff (h : e.Tabular) (hco : e.Coherent rt N) (hev : e.history.evictions = 0)
    (hstale : e.NothingStale version t) :
    e.view rt t version key = some columns ↔ e.LiveAt version t key columns := by
  by_cases ht : PlainTable t
  · exact Engine.view_eq_some_iff hco hev ht hstale
  · -- there is nothing under the keys of such a table
    constructor
    · intro hview
      obtain ⟨data, hdata, hshown⟩ := exists_mem_of_firstHit hview
      have hkey : (tablePrefix t).isPrefixOf key = true := by
        by_contra hkey
        rw [Runtime.shownUnder, if_neg hkey] at hshown
        cases hshown
      have hrowKey := (h.exists_row hco (h.traced_of_entries hco hdata)
        (ne_schemasKey_of_isPrefixOf hkey)).1
      exact absurd (hrowKey.plainTable hkey) ht
    · rintro ⟨hkey, r, hr, -⟩
      exact absurd ((h.isRowKey_of_lastInstalled hr).plainTable hkey) ht

/-- The order in which a scan of a connection finds the rows of the tables. -/
def order (rt : Runtime) (e : Engine) (conn : Nat) (t : Bytes) : List (Bytes × Row) :=
  e.scanned rt t (e.readVersion conn)

/-- **A scan** finds the rows of the table that its connection is to see, each once. -/
theorem Tabular.enumerates (h : e.Tabular) (hco : e.Coherent rt N) (hev : e.history.evictions = 0)
    (hstale : e.NothingStale (e.readVersion conn) t) :
    Enumerates ((e.sessions.view conn).rows t) (e.order rt conn t) :=
  ⟨(enumerates_firstHits _ _).nodup, fun _ _ ↦ mem_scanned.trans
    ((h.view_eq_some_iff hco hev hstale).trans (rows_view_eq_some_iff hco).symm)⟩

/-- At the current version it is enough that no deleted row comes back. -/
theorem Tabular.nothingStale (h : e.Tabular) (hco : e.Coherent rt N) (hev : e.history.evictions = 0)
    (hnone : e.NoneResurrected t) : e.NothingStale e.currentVersion t := by
  intro x hx hkey r hr _ hdeleted
  have hrows := h.rowsOnly hco t
  obtain ⟨data, hdata⟩ := exists_lastInstalled_of_leaf hco hrows hx hkey
  obtain ⟨r', columns, rfl, -, hversion⟩ := exists_row_of_lastInstalled hco hev hrows hkey hdata
  exact ⟨r', hdata, hversion, hnone x hx hkey (by rw [hr]; exact hdeleted) _ hdata⟩

theorem Tabular.scan_eq (h : e.Tabular) (hco : e.Coherent rt N) (t : Bytes) (version : Nat)
    (filter : Option Expr) : e.scanTableWithFilter rt t version filter =
      .ok (rowsOf rt t (e.scanned rt t version)) := by
  rw [scanTableWithFilter_of_unindexed fun lookup _ ↦ h.fetch_indexKey hco t lookup.1 lookup.2]
  exact scanTable_ok hco.sound fun x hx hkey ↦ readable_of_isRow (h.rowsOnly hco t x hx hkey)

theorem Tabular.selectRows_eq (h : e.Tabular) (hco : e.Coherent rt N) (conn : Nat) (select : Select) :
    e.selectRows rt (e.readVersion conn) select =
      (e.sessions.view conn).selectRows rt (e.order rt conn) select := by
  have htables : ∀ t, (e.sessions.view conn).tables t = e.schemas.lookup t := fun t ↦
    congrFun (tables_view conn) t
  have htable : ∀ t, e.scanTable rt t (e.readVersion conn) = .ok (rowsOf rt t (e.order rt conn t)) :=
    fun t ↦ h.scan_eq hco t (e.readVersion conn) none
  rw [Engine.selectRows, Database.selectRows]
  rcases select.fromTables with - | ⟨⟨⟨t⟩ | -, joins⟩, -⟩
  · rfl
  · simp only [Except.ok_bind, Database.schemaOf, htables]
    rcases e.schemas.lookup t with - | schema
    · rfl
    simp only [Except.ok_bind, h.scan_eq hco]
    rcases joins with - | ⟨⟨⟨right⟩ | -, operator⟩, -⟩
    · rfl
    · dsimp only
      rcases e.schemas.lookup right with - | rightSchema
      · rfl
      · simp only [Except.ok_bind, htable]
        rfl
    · rfl
  · rfl

theorem Tabular.handleQuery_eq (h : e.Tabular) (hco : e.Coherent rt N) (q : Query) (conn : Nat) :
    e.handleQuery rt q conn = (e.sessions.view conn).queryText rt (e.order rt conn) q := by
  obtain ⟨body, limit⟩ := q
  cases body with
  | select select =>
    show (e.selectRows rt (e.readVersion conn) select >>= _) = _
    rw [h.selectRows_eq hco]
    rfl
  | _ => rfl

/-- The keys of the rows to be changed are those of the rows that satisfy the condition. -/
theorem Tabular.selectedKeys_eq (h : e.Tabular) (hco : e.Coherent rt (· ≠ keyColumn))
    (hev : e.history.evictions = 0) (hstale : e.NothingStale (e.readVersion conn) t)
    (selection : Option Expr) : selectedKeys rt selection (rowsOf rt t (e.order rt conn t)) =
      ((e.order rt conn t).filter (Database.selects rt t selection)).map Prod.fst := by
  rw [selectedKeys, rowsOf, List.filterMap_map, ← filterMap_ite_eq_map_filter]
  refine List.filterMap_congr fun x hx ↦ ?_
  have hlive := (rows_view_eq_some_iff hco).1 (((h.enumerates hco hev hstale).mem_iff x.1 x.2).1 hx)
  obtain ⟨hkey, r, hr, -, -, hvalue⟩ := hlive
  obtain ⟨-, r', columns, hr', hvalue', hcolumns⟩ := h.exists_row hco
    (Or.inl (mem_installs_of_lastInstalled hr)) (ne_schemasKey_of_isPrefixOf hkey)
  obtain rfl := Data.record.inj hr'
  obtain rfl := Payload.row.inj (hvalue.symm.trans hvalue')
  show (if selection.all (evaluateWhere rt (scannedRow rt t x.1 x.2)) = true then
    (scannedRow rt t x.1 x.2).lookup keyColumn else none) = _
  rw [lookup_keyColumn_scannedRow fun hmem ↦ hcolumns _ hmem rfl]
  rfl

/-! ### What leaves the tables alone -/

theorem Traced.mono (h : e.Traced key data) (hi : e.history.installs ⊆ u.history.installs) :
    u.Traced key data :=
  h.imp (fun ⟨w, hw, heq⟩ ↦ ⟨w, hi hw, heq⟩) id

/-- From `e` to `u` nothing was committed, and what was enqueued was installed before. -/
structure SameCommitted (e u : Engine) : Prop where
  installs : u.history.installs = e.history.installs
  currentVersion : u.currentVersion = e.currentVersion
  indices : u.indices = e.indices
  enqueued : ∀ key data, .recordUpdate key data ∈ u.btree.wal.enqueued →
    .recordUpdate key data ∈ e.btree.wal.enqueued ∨ e.Traced key data

theorem SameCommitted.refl (e : Engine) : SameCommitted e e := ⟨rfl, rfl, rfl, fun _ _ ↦ Or.inl⟩

theorem SameCommitted.liveRow (h : SameCommitted e u) : u.liveRow = e.liveRow := by
  funext key
  rw [Engine.liveRow, lastInstalled, h.installs]
  rfl

theorem SameCommitted.snapshot (h : SameCommitted e u) : u.snapshot = e.snapshot := by
  funext tx
  have hlast : u.lastInstalled = e.lastInstalled := by
    funext key
    rw [lastInstalled, h.installs]
    rfl
  rw [Engine.snapshot, Engine.snapshot, hlast, h.currentVersion]

theorem SameCommitted.undeleted (h : SameCommitted e u) (he : e.Undeleted) : u.Undeleted := by
  intro key data hdata
  rw [lastInstalled, h.installs] at hdata
  exact he key data hdata

theorem SameCommitted.tabular (h : SameCommitted e u) (he : e.Tabular)
    (hbuffered : ∀ conn tx, u.activeTransactions.lookup conn = some tx → ∀ key ∈ tx.updates.keys,
      IsRowKey key) : u.Tabular where
  unindexed := h.indices.trans he.unindexed
  written := h.installs ▸ he.written
  buffered := hbuffered
  enqueued key data hd := by
    have htraced : e.Traced key data := (h.enqueued key data hd).elim (he.enqueued key data) id
    exact htraced.mono (h.installs ▸ List.Subset.refl _)

theorem SameCommitted.pushed (h : SameCommitted e u) (htraced : e.Traced key data) :
    SameCommitted e (u.pushed key data) where
  installs := h.installs
  currentVersion := h.currentVersion
  indices := h.indices
  enqueued k d hd := by
    rcases List.mem_append.1 hd with hd | hd
    · exact h.enqueued k d hd
    · cases List.mem_singleton.1 hd
      exact Or.inr htraced

/-- An insertion into the tree enqueues images of pages only. -/
theorem SameCommitted.insertTree (h : SameCommitted e u) (key : Bytes) (data : Data) :
    SameCommitted e { u with btree := (u.btree.insert rt.search key data).2 } where
  installs := h.installs
  currentVersion := h.currentVersion
  indices := h.indices
  enqueued k d hd := by
    obtain ⟨images, himages, hwal⟩ := (BPlusTree.insert_frame rt.search u.btree key data).wal
    have hd : .recordUpdate k d ∈ (u.btree.insert rt.search key data).2.wal.enqueued := hd
    rw [hwal] at hd
    rcases List.mem_append.1 hd with hd | hd
    · exact h.enqueued k d hd
    · obtain ⟨pid, n, heq⟩ := himages _ hd
      cases heq

/-- From `e` to `u`, nothing that the tables and the transactions are read off has changed. -/
structure Unseen (e u : Engine) : Prop extends SameCommitted e u where
  drawn : u.history.drawn = e.history.drawn
  schemas : u.schemas = e.schemas
  active : ∀ conn, u.activeTransactions.lookup conn = e.activeTransactions.lookup conn

theorem Unseen.refl (e : Engine) : Unseen e e := ⟨.refl e, rfl, rfl, fun _ ↦ rfl⟩

theorem Unseen.sessions (h : Unseen e u) : u.sessions = e.sessions := by
  refine TableSessions.ext ?_ (funext fun conn ↦ ?_)
  · show u.database = e.database
    rw [database, h.schemas, h.drawn, h.toSameCommitted.liveRow]
    rfl
  · show (u.activeTransactions.lookup conn).map u.snapshot = _
    rw [h.active, h.toSameCommitted.snapshot]
    rfl

theorem Unseen.tabular (h : Unseen e u) (he : e.Tabular) : u.Tabular :=
  h.toSameCommitted.tabular he fun conn tx htx ↦ he.buffered conn tx (h.active conn ▸ htx)

theorem Unseen.pushed (h : Unseen e u) (htraced : e.Traced key data) : Unseen e (u.pushed key data) :=
  ⟨h.toSameCommitted.pushed htraced, h.drawn, h.schemas, h.active⟩

theorem Unseen.insertTree (h : Unseen e u) (key : Bytes) (data : Data) :
    Unseen e { u with btree := (u.btree.insert rt.search key data).2 } :=
  ⟨h.toSameCommitted.insertTree key data, h.drawn, h.schemas, h.active⟩

/-- A change of the catalogue. -/
theorem sessions_schemas (e : Engine) (t : Bytes) (schema : TableSchema) :
    ({ e with schemas := e.schemas.insert t schema } : Engine).sessions =
      { e.sessions with db := { e.database with
        tables := Function.update e.database.tables t (some schema) } } := by
  refine TableSessions.ext (Database.ext (funext fun t' ↦ ?_) rfl rfl) rfl
  show (e.schemas.insert t schema).lookup t' = Function.update (fun t ↦ e.schemas.lookup t) t _ t'
  rw [HashMap.lookup_insert_eq_ite, Function.update_apply]

end Engine

end KsSql
