import KsSql.Parser.LiveRows
import KsSql.Parser.Rows
import KsSql.Parser.Writes

/-!
# What a statement on one table does to another

All tables, indexes and the catalogue share one key space. A statement outside transactions writes
records under the keys in `Statement.writes`: the generated row keys for `INSERT`, the index keys for
`CREATE INDEX`, and for `UPDATE` and `DELETE` whatever the selected rows carry under `__key__`. Where
none of these is a key of the other table, and the memory tier has room for them, a `SELECT` on that
table answers as before (`tables_isolated`).

The keys of index entries are those of a table named `idx`, so an index on any table breaks it
(`not_tables_isolated`).
-/

namespace KsSql

open Engine

/-- Two answers are the same, up to the order of the rows. -/
def SameAnswer : Except EngineError (List Bytes × List Row) →
    Except EngineError (List Bytes × List Row) → Prop
  | .ok answer, .ok answer' => answer.1 = answer'.1 ∧ answer.2.Perm answer'.2
  | .error err, .error err' => err = err'
  | _, _ => False

theorem SameAnswer.refl (answer : Except EngineError (List Bytes × List Row)) :
    SameAnswer answer answer := by
  rcases answer with err | answer
  · exact rfl
  · exact ⟨rfl, .refl _⟩

/-- Two same answers have as many rows. -/
theorem SameAnswer.length_eq {x y : Except EngineError (List Bytes × List Row)}
    (h : SameAnswer x y) : x.toOption.map (fun answer ↦ answer.2.length) =
      y.toOption.map fun answer ↦ answer.2.length := by
  rcases x with err | answer <;> rcases y with err' | answer'
  · rfl
  · cases h
  · cases h
  · exact congrArg some h.2.length_eq

/-- None of the keys is a key of the table. -/
def KeepOff (t : Bytes) (keys : List Bytes) : Prop :=
  ∀ key ∈ keys, (tablePrefix t).isPrefixOf key = false

instance {t : Bytes} {keys : List Bytes} : Decidable (KeepOff t keys) :=
  inferInstanceAs (Decidable (∀ key ∈ _, _ = _))

namespace Engine

variable {rt : Runtime} {N : Bytes → Prop} {e u : Engine} {conn n : Nat} {t t' : Bytes}

/-- From `e` to `u` at most `n` keys were written, none of them a key of the table `t`. -/
structure WritesBeside (t : Bytes) (e : Engine) (n : Nat) (u : Engine) : Prop where
  pager : u.btree.pager = e.btree.pager
  tier : ∀ key, (tablePrefix t).isPrefixOf key = true →
    u.btree.memoryTier.get key = e.btree.memoryTier.get key
  size : u.btree.memoryTier.cache.size ≤ e.btree.memoryTier.cache.size + n
  limit : u.btree.memoryTier.maxRamMb = e.btree.memoryTier.maxRamMb
  tables : SameTables e.schemas u.schemas
  active : u.activeTransactions = e.activeTransactions
  version_ge : e.currentVersion ≤ u.currentVersion
  version_le : u.currentVersion ≤ e.currentVersion + n

/-- Some keys were written, none of them a key of the table. -/
def Beside (t : Bytes) (e u : Engine) : Prop := ∃ n, WritesBeside t e n u

/-- Writes under keys that are not of the table. -/
theorem Overwrites.beside
    (h : Overwrites (fun key _ ↦ (tablePrefix t).isPrefixOf key = false) e n u) :
    WritesBeside t e n u where
  pager := h.pager
  tier key hkey := by
    rcases h.tier key with hsame | ⟨data, -, hoff⟩
    · exact hsame
    · rw [hkey] at hoff
      cases hoff
  size := h.size
  limit := h.limit
  tables := h.tables
  active := h.active
  version_ge := h.version_ge
  version_le := h.version_le

/-- A statement writes beside a table if none of the keys it writes is one of the table's. -/
theorem beside_executeStatement {stmt : Statement} (hstmt : stmt.OnTable t)
    (hauto : e.activeTransactions.lookup conn = none) (hkeys : KeepOff t' (stmt.writes rt e conn))
    (hroom : e.btree.memoryTier.HasRoom (stmt.writes rt e conn).length)
    (hwrap : e.currentVersion + (stmt.writes rt e conn).length < 2 ^ 64) :
    Beside t' e (executeStatement rt stmt conn e).2 := by
  obtain ⟨n, h⟩ : Written _ e (executeStatement rt stmt conn e).2 := Effect.state_of_wp
    (wp_executeStatement_overwrites hstmt hauto (fun key hkey _ _ ↦ hkeys key hkey) hroom hwrap)
  exact ⟨n, h.beside⟩

/-! ### What the other table's reader finds -/

/-- The version that a connection reads at does not become less. -/
theorem WritesBeside.readVersion_le (h : WritesBeside t e n u) (reader : Nat) :
    e.readVersion reader = u.readVersion reader ∨
      e.currentVersion ≤ e.readVersion reader ∧ e.currentVersion ≤ u.readVersion reader := by
  rw [readVersion, readVersion, h.active]
  split
  · exact Or.inl rfl
  · exact Or.inr ⟨le_rfl, h.version_ge⟩

/-- The entries under the table's keys are the same. -/
theorem WritesBeside.mem_entries_iff (h : WritesBeside t e n u) {x : Bytes × Data}
    (hkey : (tablePrefix t).isPrefixOf x.1 = true) : x ∈ u.entries rt ↔ x ∈ e.entries rt := by
  rw [entries, entries, List.mem_append, List.mem_append, BPlusTree.leafEntries_congr h.pager]
  refine or_congr ?_ Iff.rfl
  obtain ⟨key, data⟩ := x
  rw [mem_iterate_iff, mem_iterate_iff]
  exact iff_of_eq (congrArg (· = some data) (h.tier key hkey))

/-- What a scan shows under a key is the same. -/
theorem WritesBeside.view_eq (h : WritesBeside t e n u) (hco : e.Coherent rt N)
    (hrows : e.RowsOnly rt t) (reader : Nat) (key : Bytes) :
    u.view rt t (u.readVersion reader) key = e.view rt t (e.readVersion reader) key := by
  have hshown : ∀ data, (key, data) ∈ e.entries rt →
      rt.shownUnder t (u.readVersion reader) key data =
        rt.shownUnder t (e.readVersion reader) key data := by
    intro data hdata
    rcases h.readVersion_le reader with heq | ⟨hle, hle'⟩
    · rw [heq]
    · by_cases hkey : (tablePrefix t).isPrefixOf key = true
      · obtain ⟨r, columns, rfl, hvalue⟩ := exists_row_of_isRow (hrows _ hdata hkey)
        have hversion : r.version ≤ e.currentVersion :=
          (hco.legit_of_known (hco.known_of_entries hdata)).1 r rfl
        rw [rt.shownUnder_row hkey hvalue, rt.shownUnder_row hkey hvalue]
        simp only [hversion.trans hle, hversion.trans hle', true_and]
      · rw [Runtime.shownUnder, Runtime.shownUnder, if_neg hkey, if_neg hkey]
  by_cases hkey : (tablePrefix t).isPrefixOf key = true
  · rw [Engine.view_eq, Engine.view_eq, h.tier key hkey, BPlusTree.leafEntries_congr h.pager,
      firstHit_congr fun data hdata ↦ hshown data (List.mem_append_right _ hdata)]
    congr 1
    rcases htier : e.btree.memoryTier.get key with - | data
    · rfl
    · exact hshown data (List.mem_append_left _ (mem_iterate_iff.2 htier))
  · have hnone : ∀ (e : Engine) version, e.view rt t version key = none := fun e version ↦
      firstHit_eq_none_iff.2 fun data _ ↦ if_neg hkey
    rw [hnone, hnone]

/-- `SELECT *` from a table that does not exist. -/
theorem selectAll_of_lookup_eq_none {reader : Nat} (hs : e.schemas.lookup t = none) :
    e.selectAll rt reader t = .error (.namedTableNotFound t) := by
  simp only [selectAll, selectRows, Except.ok_bind, hs]
  rfl

/-- `SELECT *` returns what the scan finds, under the table's columns. -/
theorem selectAll_of_lookup {reader : Nat} {schema : TableSchema} {rows : List Row}
    (hs : e.schemas.lookup t = some schema) (hrows : e.scanTable rt t (e.readVersion reader) = .ok rows) :
    e.selectAll rt reader t = .ok (schema.columns.map (qualified t), rows) := by
  simp only [selectAll, selectRows, Except.ok_bind, hs, scanTableWithFilter, indexLookup, hrows]
  rfl

/-- **A reader of a table of rows** finds the same when none of its keys was written. -/
theorem WritesBeside.sameAnswer (h : WritesBeside t e n u) (hco : e.Coherent rt N)
    (hrows : e.RowsOnly rt t) (reader : Nat) :
    SameAnswer (e.selectAll rt reader t) (u.selectAll rt reader t) := by
  have hsound : BPlusTree.Sound (e.Stored N) u.btree := hco.sound.congr h.pager
  have hok : e.scanTable rt t (e.readVersion reader) = _ :=
    scanTable_ok hco.sound fun x hx hkey ↦ readable_of_isRow (hrows x hx hkey)
  have hok' : u.scanTable rt t (u.readVersion reader) = _ := scanTable_ok hsound fun x hx hkey ↦
    readable_of_isRow (hrows x ((h.mem_entries_iff hkey).1 hx) hkey)
  have hperm : (rowsOf rt t (e.scanned rt t (e.readVersion reader))).Perm
      (rowsOf rt t (u.scanned rt t (u.readVersion reader))) :=
    (scanned_perm fun key ↦ (h.view_eq hco hrows reader key).symm).map _
  rcases h.tables.lookup t with ⟨hnone', hnone⟩ | ⟨schema, schema', hs', hs, hcolumns⟩
  · rw [selectAll_of_lookup_eq_none hnone', selectAll_of_lookup_eq_none hnone]
    exact rfl
  · rw [selectAll_of_lookup hs hok, selectAll_of_lookup hs' hok']
    exact ⟨by rw [hcolumns], hperm⟩

end Engine

/-! ### Ordinary names -/

/-- A prefix that ends in a byte which the rest has not lies in the first part. -/
theorem isPrefix_of_not_mem {a b d : Bytes} {c : UInt8} (h : a ++ [c] <+: b ++ d) (hc : c ∉ d) :
    a ++ [c] <+: b := by
  rcases List.prefix_or_prefix_of_prefix h (List.prefix_append b d) with hle | ⟨rest, hrest⟩
  · exact hle
  · rw [← hrest, List.prefix_append_right_inj] at h
    rcases List.eq_nil_or_concat rest with rfl | ⟨rest, last, rfl⟩
    · rw [← hrest, List.append_nil]
    · rw [List.concat_eq_append, ← List.append_assoc] at hrest
      obtain ⟨-, hlast⟩ := List.append_inj' hrest rfl
      rw [List.concat_eq_append, hlast] at h
      exact absurd (h.subset (List.mem_append_right _ List.mem_cons_self)) hc

theorem colon_not_mem_hex16 (id : UInt64) : (58 : UInt8) ∉ hex16 id := by
  intro h
  obtain ⟨i, -, heq⟩ := List.mem_map.1 h
  have hall : ∀ d < 16, hexDigit d ≠ 58 := by decide
  exact hall _ (Nat.mod_lt _ (by decide)) heq

/-- The keys that `INSERT` generates are keys of tables with a shorter name only. -/
theorem keepOff_insert {rt : Runtime} {e : Engine} {conn : Nat} {t t' : Bytes}
    (h : (tablePrefix t').isPrefixOf (tablePrefix t) = false) (source : Option Query) :
    KeepOff t' ((Statement.insert t source).writes rt e conn) := by
  have hkey : ∀ id, (tablePrefix t').isPrefixOf (rowKey t id) = false := by
    intro id
    rw [← Bool.not_eq_true, List.isPrefixOf_iff_prefix] at h ⊢
    exact fun hprefix ↦ h (isPrefix_of_not_mem hprefix (colon_not_mem_hex16 id))
  intro key hmem
  unfold Statement.writes at hmem
  split at hmem
  · rename_i heq
    cases heq
  · rename_i heq
    cases heq
    obtain ⟨i, -, rfl⟩ := List.mem_map.1 hmem
    exact hkey _
  · rename_i heq
    cases heq
  · rename_i heq
    cases heq
  · cases hmem

/-- The keys of index entries are not those of a plain table. -/
theorem keepOff_createIndex {rt : Runtime} {e : Engine} {conn : Nat} {t t' : Bytes}
    (h : PlainTable t') (name : Option Bytes) (columns : List Expr) :
    KeepOff t' ((Statement.createIndex name t columns).writes rt e conn) := by
  intro key hmem
  rw [← Bool.not_eq_true]
  intro hkey
  refine not_plainKey_of_isIndexKey ?_ (h.plainKey hkey)
  rcases columns with - | ⟨column, rest⟩
  · cases hmem
  · rw [Statement.writes, indexedKeys] at hmem
    split at hmem
    · obtain ⟨row, -, hrow⟩ := List.mem_filterMap.1 hmem
      rw [indexedKey] at hrow
      split at hrow
      · exact ⟨_, _, _, (Option.some.inj hrow).symm⟩
      · cases hrow
    · cases hmem

/-- A scanned row carries its key, unless a column has taken its place. -/
theorem lookup_keyColumn_scannedRow {rt : Runtime} {t key : Bytes} {columns : Row}
    (h : keyColumn ∉ columns.keys) : (scannedRow rt t key columns).lookup keyColumn = some key := by
  have hfold : ∀ (l : List (Bytes × Bytes)) (row : Row), (∀ c ∈ l, c.1 ≠ keyColumn) →
      row.lookup keyColumn = some key →
      (l.foldl (fun row c ↦ (row.insert c.1 c.2).insert (qualified t c.1) c.2) row).lookup keyColumn =
        some key := by
    intro l
    induction l with
    | nil => exact fun _ _ h ↦ h
    | cons c l ih =>
      intro row hl hrow
      refine ih _ (fun c' hc' ↦ hl c' (List.mem_cons_of_mem _ hc')) ?_
      rw [AList.lookup_insert_ne (qualified_ne_keyColumn t c.1).symm,
        AList.lookup_insert_ne (hl c List.mem_cons_self).symm]
      exact hrow
  refine hfold _ _ (fun c hc heq ↦ h ?_) (AList.lookup_insert _)
  rw [← heq]
  exact AList.lookup_isSome.1 (Option.isSome_iff_exists.2 ⟨c.2, mem_iterate_iff.1 hc⟩)

/-- `UPDATE` and `DELETE`, without a lookup in an index, change keys of their own table where no row
of it has a column `__key__`. -/
theorem keepOff_changedKeys {rt : Runtime} {N : Bytes → Prop} {e : Engine} {conn : Nat}
    {t t' : Bytes} {selection : Option Expr} (hco : e.Coherent rt N)
    (h : (tablePrefix t').isPrefixOf (tablePrefix t) = false)
    (h' : (tablePrefix t).isPrefixOf (tablePrefix t') = false)
    (hlookup : indexLookup rt selection = none)
    (hcolumns : ∀ key columns, e.view rt t (e.readVersion conn) key = some columns →
      keyColumn ∉ columns.keys) : KeepOff t' (e.changedKeys rt conn t selection) := by
  intro key hmem
  rw [changedKeys, scanTableWithFilter, hlookup] at hmem
  split at hmem
  · rename_i rows hrows
    obtain ⟨row, hrow, hselected⟩ := List.mem_filterMap.1 hmem
    rw [scanTable_eq hco.sound hrows, rowsOf] at hrow
    obtain ⟨⟨k, columns⟩, hscanned, rfl⟩ := List.mem_map.1 hrow
    have hview := mem_scanned.1 hscanned
    rw [lookup_keyColumn_scannedRow (hcolumns _ _ hview)] at hselected
    obtain rfl : k = key := by
      split at hselected
      · exact Option.some.inj hselected
      · cases hselected
    have hkey : (tablePrefix t).isPrefixOf k = true := by
      obtain ⟨data, -, hshown⟩ := exists_mem_of_firstHit hview
      by_contra hkey
      rw [Runtime.shownUnder, if_neg hkey] at hshown
      cases hshown
    rw [← Bool.not_eq_true, List.isPrefixOf_iff_prefix] at h h' ⊢
    rw [List.isPrefixOf_iff_prefix] at hkey
    exact fun hkey' ↦ (List.prefix_or_prefix_of_prefix hkey' hkey).elim h h'
  · cases hmem

/-- An `UPDATE` or a `DELETE` that finds its rows by a scan, in which no column hides the keys, or a
statement of another kind. -/
def Statement.Ordinary (rt : Runtime) (e : Engine) (conn : Nat) : Statement → Prop
  | .update (.table t) _ selection | .delete (.table t :: _) selection =>
    indexLookup rt selection = none ∧ ∀ key columns,
      e.view rt t (e.readVersion conn) key = some columns → keyColumn ∉ columns.keys
  | _ => True

/-- Under the keys of a plain table there are rows only. -/
theorem rowsOnly_of_plainTable {rt : Runtime} {N : Bytes → Prop} {e : Engine} {t : Bytes}
    (hco : e.Coherent rt N) (h : PlainTable t) : e.RowsOnly rt t := by
  intro x hx hkey
  obtain ⟨r, columns, hr, hvalue, -⟩ := hco.exists_row_of_known (h.plainKey hkey)
    (ne_schemasKey_of_isPrefixOf hkey) (hco.known_of_entries hx)
  obtain ⟨value, version, deleted, timestamp⟩ := r
  obtain rfl : value = .row columns := hvalue
  rw [hr, Data.isRow]

/-- Ordinary statements on another table write none of a plain table's keys, if neither name goes on
with a colon to make the other. -/
theorem keepOff_of_ordinary {rt : Runtime} {N : Bytes → Prop} {e : Engine} {conn : Nat}
    {t t' : Bytes} {stmt : Statement} (hco : e.Coherent rt N) (hstmt : stmt.OnTable t)
    (hordinary : stmt.Ordinary rt e conn) (hplain : PlainTable t')
    (h : (tablePrefix t').isPrefixOf (tablePrefix t) = false)
    (h' : (tablePrefix t).isPrefixOf (tablePrefix t') = false) :
    KeepOff t' (stmt.writes rt e conn) := by
  cases stmt with
  | createIndex name tableName columns => exact keepOff_createIndex hplain name columns
  | insert tableName source =>
    obtain rfl : tableName = t := hstmt
    exact keepOff_insert h source
  | update table assignments selection =>
    cases table with
    | table name =>
      obtain rfl : name = t := hstmt
      exact keepOff_changedKeys hco h h' hordinary.1 hordinary.2
    | other => exact hstmt.elim
  | delete fromTables selection =>
    rcases fromTables with - | ⟨_ | _, rest⟩
    · exact hstmt.elim
    · rename_i name
      obtain rfl : name = t := hstmt
      exact keepOff_changedKeys hco h h' hordinary.1 hordinary.2
    · exact hstmt.elim
  | _ => exact hstmt.elim

/-- **Plain tables are isolated** from ordinary statements. -/
theorem plainTable_isolated {rt : Runtime} {N : Bytes → Prop} {e : Engine} {conn : Nat}
    {t t' : Bytes} {stmt : Statement} (hco : e.Coherent rt N) (hstmt : stmt.OnTable t)
    (hordinary : stmt.Ordinary rt e conn) (hauto : e.activeTransactions.lookup conn = none)
    (hplain : PlainTable t') (h : (tablePrefix t').isPrefixOf (tablePrefix t) = false)
    (h' : (tablePrefix t).isPrefixOf (tablePrefix t') = false)
    (hroom : e.btree.memoryTier.HasRoom (stmt.writes rt e conn).length)
    (hwrap : e.currentVersion + (stmt.writes rt e conn).length < 2 ^ 64) (reader : Nat) :
    SameAnswer (e.selectAll rt reader t')
      ((executeStatement rt stmt conn e).2.selectAll rt reader t') := by
  obtain ⟨n, hbeside⟩ := beside_executeStatement hstmt hauto
    (keepOff_of_ordinary hco hstmt hordinary hplain h h') hroom hwrap
  exact hbeside.sameAnswer hco (rowsOnly_of_plainTable hco hplain) reader

/-! ### Every statement -/

/-- **Tables are isolated** from a statement outside transactions that writes none of their keys: in
every state that a run reaches, a `SELECT` on a table of rows returns the same before and after a
statement on another table, if none of the keys that the statement writes begins with the name of the
read table and a colon, and the memory tier has room for them. -/
theorem tables_isolated [Bincode (WalEntry Bytes Data)] {rt : Runtime} {actions : List Action}
    {s : System} (hrun : System.start.run rt actions = some s) (hbounded : s.engine.Bounded)
    {conn : Nat} (hauto : s.engine.activeTransactions.lookup conn = none) {t t' : Bytes}
    {stmt : Statement} (hstmt : stmt.OnTable t) (hrows : s.engine.RowsOnly rt t')
    (hkeys : KeepOff t' (stmt.writes rt s.engine conn))
    (hroom : s.engine.btree.memoryTier.HasRoom (stmt.writes rt s.engine conn).length)
    (hwrap : s.engine.currentVersion + (stmt.writes rt s.engine conn).length < 2 ^ 64)
    (reader : Nat) :
    SameAnswer (s.engine.selectAll rt reader t')
      ((executeStatement rt stmt conn s.engine).2.selectAll rt reader t') := by
  obtain ⟨n, h⟩ := beside_executeStatement hstmt hauto hkeys hroom hwrap
  exact h.sameAnswer (System.coherent_of_run hrun hbounded) hrows reader

/-! ### A table named like the indexes -/

/-- Two tables with a row each; all that is queued is flushed. -/
def twoTables (second : String) : List Action :=
  [.call 1 (createTableOf "u" ["id"]), .call 1 (createTableOf second ["id"]),
    .call 1 (insertOf "u" ["a"]), .flushRound, .flushRound, .flushRound, .flushRound,
    .call 1 (insertOf second ["b"]), .flushRound, .flushRound]

/-- `CREATE INDEX` on the first table. -/
def indexFirst : Statement :=
  .createIndex (some (bytes "i")) (bytes "u") [.identifier (bytes "id")]

/-- `UPDATE` of the first table. -/
def updateFirst : Statement :=
  .update (.table (bytes "u")) [⟨[bytes "id"], .value (.singleQuotedString (bytes "c"))⟩] none

/-- An `UPDATE` of one table beside another one. -/
theorem tables_isolated_update : let _ := plainBincode []
    ∃ s, System.start.run .plain (twoTables "v") = some s ∧ s.phase = .idle ∧
      (updateFirst.writes .plain s.engine 1).length = 1 ∧
      SameAnswer (s.engine.selectAll .plain 2 (bytes "v"))
        ((executeStatement .plain updateFirst 1 s.engine).2.selectAll .plain 2 (bytes "v")) := by
  let _ := plainBincode []
  obtain ⟨s, hs⟩ : ∃ s, System.start.run .plain (twoTables "v") = some s :=
    Option.isSome_iff_exists.1 (by decide +kernel)
  have hall : (System.start.run .plain (twoTables "v")).all (fun s ↦
      decide (s.engine.btree.pager.handedOut.length < 2 ^ 32 ∧ s.engine.history.bumps < 2 ^ 64 ∧
        s.phase = .idle ∧ (s.engine.activeTransactions.lookup 1).isNone = true ∧
        s.engine.RowsOnly .plain (bytes "v") ∧
        KeepOff (bytes "v") (updateFirst.writes .plain s.engine 1) ∧
        (updateFirst.writes .plain s.engine 1).length = 1 ∧ s.engine.currentVersion = 0 ∧
        s.engine.btree.memoryTier.HasRoom 1)) = true := by decide +kernel
  rw [hs, Option.all_some, decide_eq_true_iff] at hall
  obtain ⟨hpages, hbumps, hphase, hauto, hrows, hkeys, hlength, hversion, hroom⟩ := hall
  have hon : updateFirst.OnTable (bytes "u") := rfl
  have hwrap : s.engine.currentVersion + (updateFirst.writes .plain s.engine 1).length < 2 ^ 64 := by
    rw [hversion, hlength]
    decide
  have hfits : s.engine.btree.memoryTier.HasRoom (updateFirst.writes .plain s.engine 1).length := by
    rw [hlength]
    exact hroom
  exact ⟨s, hs, hphase, hlength, tables_isolated hs ⟨hpages, hbumps⟩
    (Option.isNone_iff_eq_none.1 hauto) hon hrows hkeys hfits hwrap 2⟩

/-- **An index breaks a table** named `idx`: its rows cannot be read any more. -/
theorem not_tables_isolated : ¬ ∀ (_ : Bincode (WalEntry Bytes Data)) (rt : Runtime)
    (actions : List Action) (s : System), System.start.run rt actions = some s →
      s.engine.Bounded → s.phase = .idle → ∀ conn,
        s.engine.activeTransactions.lookup conn = none → ∀ t t', t ≠ t' →
          (s.engine.schemas.lookup t).isSome = true → (s.engine.schemas.lookup t').isSome = true →
            ∀ stmt : Statement, stmt.OnTable t → ∀ reader,
              SameAnswer (s.engine.selectAll rt reader t')
                ((executeStatement rt stmt conn s.engine).2.selectAll rt reader t') := by
  intro h
  let _ := plainBincode []
  obtain ⟨s, hs⟩ : ∃ s, System.start.run .plain (twoTables "idx") = some s :=
    Option.isSome_iff_exists.1 (by decide +kernel)
  have hall : (System.start.run .plain (twoTables "idx")).all (fun s ↦
      decide (s.engine.btree.pager.handedOut.length < 2 ^ 32 ∧ s.engine.history.bumps < 2 ^ 64 ∧
        s.phase = .idle ∧ (s.engine.activeTransactions.lookup 1).isNone = true ∧
        (s.engine.schemas.lookup (bytes "u")).isSome = true ∧
        (s.engine.schemas.lookup (bytes "idx")).isSome = true ∧
        (s.engine.selectAll .plain 2 (bytes "idx")).isOk = true ∧
        ((executeStatement .plain indexFirst 1 s.engine).2.selectAll .plain 2 (bytes "idx")).isOk =
          false)) = true := by decide +kernel
  rw [hs, Option.all_some, decide_eq_true_iff] at hall
  obtain ⟨hpages, hbumps, hphase, hauto, hfirst, hsecond, hbefore, hafter⟩ := hall
  have hsame := h _ .plain (twoTables "idx") s hs ⟨hpages, hbumps⟩ hphase 1
    (Option.isNone_iff_eq_none.1 hauto) (bytes "u") (bytes "idx") (by decide) hfirst hsecond
    indexFirst rfl 2
  rcases hok : s.engine.selectAll .plain 2 (bytes "idx") with err | answer
  · rw [hok] at hbefore
    cases hbefore
  · rcases hfails : (executeStatement .plain indexFirst 1 s.engine).2.selectAll .plain 2 (bytes "idx")
      with err | answer'
    · rw [hok, hfails] at hsame
      exact hsame
    · rw [hfails] at hafter
      cases hafter

end KsSql
