import KsSql.Parser.ScanRefinement

/-!
# What a statement writes to the memory tier

A statement outside transactions writes records under the keys in `Statement.writes`: the generated row
keys for `INSERT`, the index keys for `CREATE INDEX`, and for `UPDATE` and `DELETE` whatever the
selected rows carry under `__key__`. What it writes is not older than the version counter
(`Statement.Puts`), and a `COMMIT` writes under the keys of its transaction what is newer than the
counter was.

`Overwrites Q e n u` says that up to `n` writes, of which each satisfies `Q`, lead from `e` to `u`. The
pages stay as they are, and while the memory tier has room, nothing is evicted.
-/

namespace KsSql

open Engine

/-- A `CREATE INDEX`, `INSERT`, `UPDATE` or `DELETE` on the table. -/
def Statement.OnTable (t : Bytes) : Statement → Prop
  | .createIndex _ name _ => name = t
  | .insert name _ => name = t
  | .update (.table name) _ _ => name = t
  | .delete (.table name :: _) _ => name = t
  | _ => False

namespace Engine

variable (rt : Runtime)

/-- `SELECT * FROM t` -/
def selectAll (e : Engine) (conn : Nat) (t : Bytes) : Except EngineError (List Bytes × List Row) :=
  e.selectRows rt (e.readVersion conn) ⟨[.other], [⟨.table t, []⟩], none⟩

/-- The keys under which an `UPDATE` or a `DELETE` changes records. -/
def changedKeys (e : Engine) (conn : Nat) (t : Bytes) (selection : Option Expr) : List Bytes :=
  match e.scanTableWithFilter rt t (e.readVersion conn) selection with
  | .ok rows => selectedKeys rt selection rows
  | .error _ => []

/-- The key of the index entry that `CREATE INDEX` makes for a row. -/
def indexedKey (t column : Bytes) (row : Row) : Option Bytes :=
  match row.lookup column, row.lookup keyColumn with
  | some val, some _ => some (indexKey t column val)
  | _, _ => none

/-- The keys of the index entries that `CREATE INDEX` makes. -/
def indexedKeys (e : Engine) (t column : Bytes) : List Bytes :=
  match e.scanTable rt t e.currentVersion with
  | .ok rows => rows.filterMap (indexedKey t column)
  | .error _ => []

end Engine

/-- The keys under which a statement outside transactions writes to the memory tier. -/
def Statement.writes (rt : Runtime) (e : Engine) (conn : Nat) : Statement → List Bytes
  | .createIndex _ t (column :: _) => e.indexedKeys rt t (rt.display column)
  | .insert t (some ⟨.values rows, _⟩) =>
    (List.range rows.length).map fun i ↦ rowKey t (rt.random (e.history.drawn.length + i))
  | .update (.table t) _ selection => e.changedKeys rt conn t selection
  | .delete (.table t :: _) selection => e.changedKeys rt conn t selection
  | _ => []

/-- What a statement outside transactions may write to the memory tier. -/
def Statement.Puts (e : Engine) : Statement → Data → Prop
  | .createIndex _ _ _, .raw _ => True
  | .insert _ _, .record r => e.currentVersion ≤ r.version
  | .update _ _ _, .record r | .delete _ _, .record r => e.currentVersion < r.version
  | _, _ => False

namespace Engine

variable {rt : Runtime} {e u : Engine} {conn n : Nat} {t : Bytes} {Q : Bytes → Data → Prop}

/-- From `e` to `u` there were at most `n` writes to the memory tier, of which each has the property. -/
structure Overwrites (Q : Bytes → Data → Prop) (e : Engine) (n : Nat) (u : Engine) : Prop where
  pager : u.btree.pager = e.btree.pager
  tier : ∀ key, u.btree.memoryTier.get key = e.btree.memoryTier.get key ∨
    ∃ data, u.btree.memoryTier.get key = some data ∧ Q key data
  size : u.btree.memoryTier.cache.size ≤ e.btree.memoryTier.cache.size + n
  limit : u.btree.memoryTier.maxRamMb = e.btree.memoryTier.maxRamMb
  tables : SameTables e.schemas u.schemas
  active : u.activeTransactions = e.activeTransactions
  version_ge : e.currentVersion ≤ u.currentVersion
  version_le : u.currentVersion ≤ e.currentVersion + n

theorem Overwrites.refl (Q : Bytes → Data → Prop) (e : Engine) : Overwrites Q e 0 e :=
  ⟨rfl, fun _ ↦ Or.inl rfl, le_rfl, rfl, fun _ ↦ rfl, rfl, le_rfl, le_rfl⟩

/-- A change of other parts of the state. -/
theorem Overwrites.congr {u' : Engine} (h : Overwrites Q e n u)
    (hpager : u'.btree.pager = u.btree.pager) (htier : u'.btree.memoryTier = u.btree.memoryTier)
    (hschemas : SameTables u.schemas u'.schemas)
    (hactive : u'.activeTransactions = u.activeTransactions)
    (hversion : u'.currentVersion = u.currentVersion) : Overwrites Q e n u' where
  pager := hpager.trans h.pager
  tier := by rw [htier]; exact h.tier
  size := by rw [htier]; exact h.size
  limit := by rw [htier]; exact h.limit
  tables name := (hschemas name).trans (h.tables name)
  active := hactive.trans h.active
  version_ge := by rw [hversion]; exact h.version_ge
  version_le := by rw [hversion]; exact h.version_le

/-- A write. -/
theorem Overwrites.install (h : Overwrites Q e n u) {w : Install} (hQ : Q w.key w.data)
    (hroom : e.btree.memoryTier.HasRoom (n + 1)) : Overwrites Q e (n + 1) (u.install rt w) := by
  have hunder : u.btree.memoryTier.overLimit = false :=
    MemoryTier.overLimit_of_hasRoom hroom h.limit h.size
  exact {
    pager := h.pager
    tier := fun key ↦ by
      show (u.btree.memoryTier.insert _ w.key w.data).get key = _ ∨ _
      rw [Engine.install]
      dsimp only
      rw [MemoryTier.get_insert hunder]
      by_cases hkey : key = w.key
      · rw [if_pos hkey]
        exact Or.inr ⟨w.data, rfl, hkey ▸ hQ⟩
      · rw [if_neg hkey]
        exact h.tier key
    size := by
      have hsize := MemoryTier.size_insert_le hunder (rt.nanos u.ticks) w.key w.data
      exact hsize.trans (Nat.succ_le_succ h.size)
    limit := by
      show (u.btree.memoryTier.insert _ w.key w.data).maxRamMb = _
      rw [MemoryTier.maxRamMb_insert hunder, h.limit]
    tables := h.tables
    active := h.active
    version_ge := h.version_ge
    version_le := h.version_le.trans (Nat.le_succ _) }

/-- An increment, and a write. -/
theorem Overwrites.change (h : Overwrites Q e n u) {w : Install} (hQ : Q w.key w.data)
    (hroom : e.btree.memoryTier.HasRoom (n + 1)) (hwrap : e.currentVersion + (n + 1) < 2 ^ 64) :
    Overwrites Q e (n + 1) (u.bump.install rt w) := by
  have hle := h.version_le
  have hversion : u.bump.currentVersion = u.currentVersion + 1 := Nat.mod_eq_of_lt (by omega)
  have hinstall : Overwrites Q e (n + 1) (u.install rt w) := h.install hQ hroom
  exact {
    pager := hinstall.pager
    tier := hinstall.tier
    size := hinstall.size
    limit := hinstall.limit
    tables := hinstall.tables
    active := hinstall.active
    version_ge := by
      show e.currentVersion ≤ u.bump.currentVersion
      rw [hversion]
      exact h.version_ge.trans (Nat.le_succ _)
    version_le := by
      show u.bump.currentVersion ≤ _
      omega }

/-! ### The handlers -/

/-- There were some writes, of which each has the property. -/
def Written (Q : Bytes → Data → Prop) (e u : Engine) : Prop := ∃ n, Overwrites Q e n u

theorem wp_enqueue_overwrites (h : Overwrites Q e n u) (key : Bytes) (data : Data) :
    Effect.wp (enqueue key data) (fun _ ↦ Overwrites Q e n) (fun _ ↦ Written Q e) u :=
  wp_enqueue (fun _ ↦ h.congr rfl rfl (fun _ ↦ rfl) rfl rfl)
    fun _ ↦ ⟨n, h.congr rfl rfl (fun _ ↦ rfl) rfl rfl⟩

theorem wp_changeKey_overwrites {version : Nat} {notFound : EngineError}
    {change : Record → Except EngineError Record} {key : Bytes} (h : Overwrites Q e n u)
    (hauto : e.activeTransactions.lookup conn = none)
    (hQ : ∀ r, e.currentVersion < r.version → Q key (.record r))
    (hroom : e.btree.memoryTier.HasRoom (n + 1)) (hwrap : e.currentVersion + (n + 1) < 2 ^ 64) :
    Effect.wp (changeKey rt conn version notFound change key) (fun _ ↦ Overwrites Q e (n + 1))
      (fun _ ↦ Written Q e) u := by
  refine Effect.wp_bind ?_
  unfold Effect.wp fetchKey
  rcases u.fetch rt key with err | data
  · exact ⟨n, h⟩
  · refine Effect.wp_bind (Effect.wp_ofExcept (fun data _ ↦ ?_) fun _ _ ↦ ⟨n, h⟩)
    refine Effect.wp_bind (Effect.wp_ofExcept (fun record _ ↦ ?_) fun _ _ ↦ ⟨n, h⟩)
    refine Effect.wp_bind (Effect.wp_ofExcept (fun record' _ ↦ ?_) fun _ _ ↦ ⟨n, h⟩)
    refine Effect.wp_bind (Effect.wp_get ?_)
    rw [h.active, hauto]
    have hle := h.version_le
    have hge := h.version_ge
    have hversion : u.bump.currentVersion = u.currentVersion + 1 := Nat.mod_eq_of_lt (by omega)
    refine Effect.wp_bind (Effect.wp_modify (Effect.wp_bind (Effect.wp_get (Effect.wp_bind
      (Effect.wp_modify (wp_enqueue_overwrites ?_ key _))))))
    exact h.change (hQ _ (by show e.currentVersion < u.bump.currentVersion; omega)) hroom hwrap

/-- `UPDATE` and `DELETE` -/
theorem wp_changeRows_overwrites {verb : String} {notFound : EngineError}
    {change : Record → Except EngineError Record} {selection : Option Expr}
    (hauto : e.activeTransactions.lookup conn = none)
    (hQ : ∀ key ∈ e.changedKeys rt conn t selection,
      ∀ r, e.currentVersion < r.version → Q key (.record r))
    (hroom : e.btree.memoryTier.HasRoom (e.changedKeys rt conn t selection).length)
    (hwrap : e.currentVersion + (e.changedKeys rt conn t selection).length < 2 ^ 64) :
    Effect.wp (changeRows rt verb notFound change t selection conn) (fun _ ↦ Written Q e)
      (fun _ ↦ Written Q e) e := by
  refine Effect.wp_bind (Effect.wp_get (Effect.wp_bind (Effect.wp_ofExcept (fun rows hrows ↦ ?_)
    fun _ _ ↦ ⟨0, .refl Q e⟩)))
  have hchanged : e.changedKeys rt conn t selection = selectedKeys rt selection rows := by
    rw [changedKeys, hrows]
  rw [hchanged] at hQ hroom hwrap
  refine Effect.wp_bind (Effect.wp_forEach (fun done ↦ Overwrites Q e done.length) (.refl Q e)
    (fun done key rest hsplit u h ↦ ?_) fun u h ↦
      Effect.wp_bind (Effect.wp_get (Effect.wp_pure ⟨_, h⟩)))
  have hlength : done.length + 1 ≤ (selectedKeys rt selection rows).length := by
    rw [hsplit, List.length_append, List.length_cons]
    omega
  rw [List.length_append]
  exact wp_changeKey_overwrites h hauto
    (hQ key (hsplit ▸ List.mem_append_right _ List.mem_cons_self)) (hroom.mono hlength) (by omega)

/-- `CREATE INDEX` -/
theorem wp_createIndex_overwrites {name : Option Bytes} {columns : List Expr}
    (hQ : ∀ key ∈ (Statement.createIndex name t columns).writes rt e conn,
      ∀ target, Q key (.raw target))
    (hroom : e.btree.memoryTier.HasRoom
      ((Statement.createIndex name t columns).writes rt e conn).length) :
    Effect.wp (createIndex rt name t columns conn) (fun _ ↦ Written Q e) (fun _ ↦ Written Q e) e := by
  refine Effect.wp_bind (Effect.wp_ofExcept (fun column hcolumn ↦ ?_) fun _ _ ↦ ⟨0, .refl Q e⟩)
  obtain ⟨first, rest, rfl, rfl⟩ : ∃ first rest, columns = first :: rest ∧ rt.display first = column := by
    rcases columns with - | ⟨first, rest⟩
    · cases hcolumn
    · exact ⟨first, rest, rfl, Except.ok.inj hcolumn⟩
  have hstart : ∀ indices, Overwrites Q e 0 { e with indices := indices } :=
    fun _ ↦ (Overwrites.refl Q e).congr rfl rfl (fun _ ↦ rfl) rfl rfl
  refine Effect.wp_bind (Effect.wp_modify (Effect.wp_bind (Effect.wp_get (Effect.wp_bind
    (Effect.wp_ofExcept (fun rows hrows ↦ ?_) fun _ _ ↦ ⟨0, hstart _⟩)))))
  have hwrites : (Statement.createIndex name t (first :: rest)).writes rt e conn =
      rows.filterMap (indexedKey t (rt.display first)) := by
    have hscan : e.scanTable rt t e.currentVersion = .ok rows := hrows
    rw [Statement.writes, indexedKeys, hscan]
  rw [hwrites] at hQ hroom
  refine Effect.wp_bind (Effect.wp_forEach (fun done ↦ Overwrites Q e
    (done.filterMap (indexedKey t (rt.display first))).length) (hstart _)
    (fun done row rest' hsplit u h ↦ ?_) fun u h ↦ Effect.wp_pure ⟨_, h⟩)
  rw [List.filterMap_append, List.length_append]
  split
  · rename_i val key hval hkey
    have hindexed : indexedKey t (rt.display first) row =
        some (indexKey t (rt.display first) val) := by
      rw [indexedKey, hval, hkey]
    have hmem : indexKey t (rt.display first) val ∈
        rows.filterMap (indexedKey t (rt.display first)) :=
      List.mem_filterMap.2 ⟨row, hsplit ▸ List.mem_append_right _ List.mem_cons_self, hindexed⟩
    have hlength : (done.filterMap (indexedKey t (rt.display first))).length + 1 ≤
        (rows.filterMap (indexedKey t (rt.display first))).length := by
      rw [hsplit, List.filterMap_append, List.length_append, List.filterMap_cons, hindexed,
        List.length_cons]
      omega
    rw [List.filterMap_cons, hindexed]
    exact Effect.wp_bind (Effect.wp_modify (wp_enqueue_overwrites
      (h.install (hQ _ hmem key) (hroom.mono hlength)) _ _))
  · rename_i hnone
    have hindexed : indexedKey t (rt.display first) row = none := by
      rw [indexedKey]
      split
      · rename_i val key hval hkey
        exact absurd hkey (hnone val key hval)
      · rfl
    rw [List.filterMap_cons, hindexed]
    exact Effect.wp_pure h

theorem wp_insertRow_overwrites {schema : TableSchema} {acc : Inserting} {row : List Expr}
    (h : Overwrites Q e n u) (hauto : e.activeTransactions.lookup conn = none)
    (hQ : ∀ r, e.currentVersion ≤ r.version → Q (u.nextKey rt t) (.record r))
    (hroom : e.btree.memoryTier.HasRoom (n + 1)) :
    Effect.wp (insertRow rt t schema conn acc row)
      (fun _ u' ↦ Overwrites Q e (n + 1) u' ∧
        u'.history.drawn.length = u.history.drawn.length + 1) (fun _ ↦ Written Q e) u := by
  refine Effect.wp_bind (Effect.wp_get (Effect.wp_bind (Effect.wp_modify (Effect.wp_bind
    (Effect.wp_modify ?_)))))
  rw [h.active, hauto]
  refine Effect.wp_bind (Effect.wp_modify (Effect.wp_pure ⟨?_, ?_⟩))
  · have hdrawn : Overwrites Q e n (u.draw conn (u.nextKey rt t)).tick :=
      h.congr rfl rfl (fun _ ↦ rfl) rfl rfl
    exact hdrawn.install (hQ _ h.version_ge) hroom
  · show (u.history.drawn ++ [_]).length = _
    rw [List.length_append, List.length_singleton]

/-- The next generated number of a table goes to the catalogue. -/
theorem wp_storeNextId_overwrites {schema : TableSchema} (h : Overwrites Q e n u)
    (hschema : e.schemas.lookup t = some schema) (nextId : Nat) :
    Effect.wp (storeNextId rt t schema nextId) (fun _ ↦ Written Q e) (fun _ ↦ Written Q e) u := by
  rw [storeNextId]
  split
  · have htables : SameTables e.schemas
        (u.schemas.insert t { schema with nextId := nextId }) := by
      intro name
      rw [HashMap.lookup_insert_eq_ite]
      split
      · rename_i heq
        rw [heq, hschema]
        rfl
      · exact h.tables name
    have hstored : Overwrites Q e n
        (tick { u with schemas := u.schemas.insert t { schema with nextId := nextId } }) :=
      ⟨h.pager, h.tier, h.size, h.limit, htables, h.active, h.version_ge, h.version_le⟩
    refine Effect.wp_bind (Effect.wp_modify (Effect.wp_bind (Effect.wp_bind (Effect.wp_get
      (Effect.wp_bind (Effect.wp_modify (Effect.wp_pure ?_)))))))
    exact Effect.wp_mono (wp_enqueue_overwrites hstored _ _) (fun _ _ h ↦ ⟨_, h⟩) fun _ _ h ↦ h
  · exact Effect.wp_pure ⟨_, h⟩

/-- `INSERT` -/
theorem wp_insert_overwrites {source : Option Query}
    (hauto : e.activeTransactions.lookup conn = none)
    (hQ : ∀ key ∈ (Statement.insert t source).writes rt e conn,
      ∀ r, e.currentVersion ≤ r.version → Q key (.record r))
    (hroom : e.btree.memoryTier.HasRoom ((Statement.insert t source).writes rt e conn).length) :
    Effect.wp (executeStatement rt (.insert t source) conn) (fun _ ↦ Written Q e)
      (fun _ ↦ Written Q e) e := by
  refine Effect.wp_bind (Effect.wp_ofExcept (fun query hquery ↦ ?_) fun _ _ ↦ ⟨0, .refl Q e⟩)
  obtain rfl : source = some query := by
    split at hquery
    · exact congrArg some (Except.ok.inj hquery)
    · cases hquery
  refine Effect.wp_bind (Effect.wp_get (Effect.wp_bind (Effect.wp_ofExcept (fun schema hschema ↦ ?_)
    fun _ _ ↦ ⟨0, .refl Q e⟩)))
  have hlookup : e.schemas.lookup t = some schema := by
    split at hschema
    · cases hschema; assumption
    · cases hschema
  split
  · rename_i rows hbody
    have hwrites : (Statement.insert t (some query)).writes rt e conn = (List.range rows.length).map
        fun i ↦ rowKey t (rt.random (e.history.drawn.length + i)) := by
      obtain ⟨body, limit⟩ := query
      obtain rfl : body = .values rows := hbody
      rfl
    rw [hwrites] at hQ hroom
    rw [List.length_map, List.length_range] at hroom
    refine Effect.wp_bind (Effect.wp_mono (Effect.wp_fold (fun done _ u ↦
      Overwrites Q e done.length u ∧
        u.history.drawn.length = e.history.drawn.length + done.length) ⟨.refl Q e, rfl⟩
      (fun done row rest hsplit acc u ⟨h, hdrawn⟩ ↦ ?_) fun acc u h ↦ h.1) (fun acc u h ↦ ?_)
      fun _ _ h ↦ h)
    · have hlength : done.length < rows.length := by
        rw [hsplit, List.length_append, List.length_cons]
        omega
      have hkey : ∀ r, e.currentVersion ≤ r.version → Q (u.nextKey rt t) (.record r) := by
        rw [nextKey, hdrawn]
        exact hQ _ (List.mem_map.2 ⟨done.length, List.mem_range.2 hlength, rfl⟩)
      rw [List.length_append, List.length_singleton]
      refine Effect.wp_mono (wp_insertRow_overwrites h hauto hkey (hroom.mono hlength))
        (fun _ u' ⟨h', hdrawn'⟩ ↦ ⟨h', by omega⟩) fun _ _ h ↦ h
    · refine Effect.wp_bind (Effect.wp_forEach (fun _ ↦ Overwrites Q e rows.length) h
        (fun _ entry _ _ u h ↦ wp_enqueue_overwrites h entry.1 entry.2) fun u h ↦ ?_)
      exact Effect.wp_bind (Effect.wp_mono (wp_storeNextId_overwrites h hlookup _)
        (fun _ _ h ↦ Effect.wp_pure h) fun _ _ h ↦ h)
  · exact Effect.wp_throw ⟨0, .refl Q e⟩

/-- **A statement outside transactions** writes what it puts under its keys, and nothing else. -/
theorem wp_executeStatement_overwrites {stmt : Statement} (hstmt : stmt.OnTable t)
    (hauto : e.activeTransactions.lookup conn = none)
    (hQ : ∀ key ∈ stmt.writes rt e conn, ∀ data, stmt.Puts e data → Q key data)
    (hroom : e.btree.memoryTier.HasRoom (stmt.writes rt e conn).length)
    (hwrap : e.currentVersion + (stmt.writes rt e conn).length < 2 ^ 64) :
    Effect.wp (executeStatement rt stmt conn) (fun _ ↦ Written Q e) (fun _ ↦ Written Q e) e := by
  cases stmt with
  | createIndex name tableName columns =>
    exact wp_createIndex_overwrites (fun key hkey target ↦ hQ key hkey _ trivial) hroom
  | insert tableName source =>
    exact wp_insert_overwrites hauto (fun key hkey r hr ↦ hQ key hkey _ hr) hroom
  | update table assignments selection =>
    cases table with
    | table name =>
      exact wp_changeRows_overwrites hauto (fun key hkey r hr ↦ hQ key hkey _ hr) hroom hwrap
    | other => exact hstmt.elim
  | delete fromTables selection =>
    rcases fromTables with - | ⟨_ | _, rest⟩
    · exact hstmt.elim
    · exact wp_changeRows_overwrites hauto (fun key hkey r hr ↦ hQ key hkey _ hr) hroom hwrap
    · exact hstmt.elim
  | _ => exact hstmt.elim

/-! ### Errors that are not retried -/

end Engine

/-- The error does not speak of a conflict. -/
def EngineError.Final (err : EngineError) : Prop := occursIn (bytes "conflict") err.message = false

instance : DecidablePred EngineError.Final := fun _ ↦ inferInstanceAs (Decidable (_ = _))

theorem final_storage (err : StorageError) : (EngineError.storage err).Final := by
  cases err <;> decide

theorem final_decode : EngineError.decode.Final := by decide

theorem final_panicked : EngineError.panicked.Final := by decide

namespace Engine

open Except

variable {rt : Runtime} {e : Engine} {conn version : Nat} {t : Bytes}

theorem failsOnly_decodeRecord (data : Data) : (rt.decodeRecord data).FailsOnly EngineError.Final := by
  unfold Runtime.decodeRecord
  split
  · exact failsOnly_ok _
  · split
    · exact failsOnly_ok _
    · exact failsOnly_error final_decode

theorem failsOnly_decodeRow (payload : Payload) : (rt.decodeRow payload).FailsOnly EngineError.Final := by
  unfold Runtime.decodeRow
  split
  · exact failsOnly_ok _
  · split
    · exact failsOnly_ok _
    · exact failsOnly_error final_decode

theorem failsOnly_fetch (key : Bytes) : (e.fetch rt key).FailsOnly EngineError.Final := by
  unfold Engine.fetch
  split
  · exact failsOnly_ok _
  · exact failsOnly_error (final_storage _)

theorem failsOnly_scanEntry (acc : Scan) (key : Bytes) (data : Data) :
    (scanEntry rt t version acc key data).FailsOnly EngineError.Final := by
  unfold scanEntry
  split
  · refine failsOnly_bind (failsOnly_decodeRecord data) fun record ↦ ?_
    split
    · exact failsOnly_bind (failsOnly_decodeRow _) fun _ ↦ failsOnly_ok _
    · exact failsOnly_ok _
  · exact failsOnly_ok _

theorem failsOnly_scanLeaf : ∀ (keys : List Bytes) (values : List Data) (acc : Scan),
    (scanLeaf rt t version keys values acc).FailsOnly EngineError.Final
  | [], _, _ => failsOnly_ok _
  | key :: keys, values, acc => by
    unfold scanLeaf
    split
    · exact failsOnly_scanLeaf keys _ acc
    · rcases values with - | ⟨data, values⟩
      · exact failsOnly_error final_panicked
      · exact failsOnly_bind (failsOnly_scanEntry acc key data) fun acc ↦
          failsOnly_scanLeaf keys values acc

variable {R : Bytes → Data → Prop}

theorem failsOnly_scanTable (he : BPlusTree.Sound R e.btree) :
    (e.scanTable rt t version).FailsOnly EngineError.Final := by
  have htree : ∀ acc, (e.scanTree rt t version acc).FailsOnly EngineError.Final := fun acc ↦ by
    rw [scanTree, BPlusTree.scanLeaves_eq_foldlM he]
    exact failsOnly_foldlM (fun acc p ↦ failsOnly_scanLeaf _ _ acc) _ acc
  have htier : (e.scanTier rt t version).FailsOnly EngineError.Final :=
    failsOnly_foldlM (fun acc (c : Bytes × Data) ↦ failsOnly_scanEntry acc c.1 c.2) _ _
  exact failsOnly_bind htier fun acc ↦ failsOnly_bind (htree acc) fun _ ↦ failsOnly_ok _

theorem failsOnly_scanTableWithFilter (he : BPlusTree.Sound R e.btree) (filter : Option Expr) :
    (e.scanTableWithFilter rt t version filter).FailsOnly EngineError.Final := by
  unfold scanTableWithFilter
  split
  · exact failsOnly_scanTable he
  · refine failsOnly_bind ?_ fun row? ↦ ?_
    · refine failsOnly_bind (failsOnly_fetch _) fun target? ↦ ?_
      split
      · exact failsOnly_ok _
      · refine failsOnly_bind (failsOnly_fetch _) fun data? ↦ ?_
        split
        · exact failsOnly_ok _
        · refine failsOnly_bind (failsOnly_decodeRecord _) fun record ↦ ?_
          split
          · exact failsOnly_bind (failsOnly_decodeRow _) fun _ ↦ failsOnly_ok _
          · exact failsOnly_ok _
    · split
      · exact failsOnly_ok _
      · exact failsOnly_scanTable he

open Effect

theorem failsOnly_enqueue (key : Bytes) (data : Data) :
    FailsOnly EngineError.Final (enqueue key data) := fun u ↦ by
  unfold enqueue
  split
  · exact Except.failsOnly_ok _
  · exact Except.failsOnly_error (final_storage _)

theorem failsOnly_changeKey {notFound : EngineError} {change : Record → Except EngineError Record}
    (hnotFound : notFound.Final) (hchange : ∀ r, (change r).FailsOnly EngineError.Final)
    (key : Bytes) : FailsOnly EngineError.Final (changeKey rt conn version notFound change key) := by
  refine failsOnly_bind (fun u ↦ failsOnly_fetch key) fun data? ↦ ?_
  refine failsOnly_bind (failsOnly_ofExcept ?_) fun data ↦ ?_
  · split
    · exact Except.failsOnly_ok _
    · exact Except.failsOnly_error hnotFound
  refine failsOnly_bind (failsOnly_ofExcept (failsOnly_decodeRecord data)) fun record ↦ ?_
  refine failsOnly_bind (failsOnly_ofExcept (hchange record)) fun record' ↦ ?_
  refine failsOnly_bind failsOnly_get fun u ↦ ?_
  split
  · exact failsOnly_modify _
  · refine failsOnly_bind (failsOnly_modify _) fun _ ↦ failsOnly_bind failsOnly_get fun u' ↦ ?_
    exact failsOnly_bind (failsOnly_modify _) fun _ ↦ failsOnly_enqueue _ _

theorem failsOnly_insertRow {schema : TableSchema} (acc : Inserting) (row : List Expr) :
    FailsOnly EngineError.Final (insertRow rt t schema conn acc row) := by
  refine failsOnly_bind failsOnly_get fun u ↦ failsOnly_bind (failsOnly_modify _) fun _ ↦
    failsOnly_bind (failsOnly_modify _) fun _ ↦ ?_
  split
  · exact failsOnly_bind (failsOnly_modify _) fun _ ↦ failsOnly_pure _
  · exact failsOnly_bind (failsOnly_modify _) fun _ ↦ failsOnly_pure _

theorem failsOnly_handleInsert (source : Query) :
    FailsOnly EngineError.Final (handleInsert rt t source conn) := by
  refine failsOnly_bind failsOnly_get fun u ↦ failsOnly_bind (failsOnly_ofExcept ?_) fun schema ↦ ?_
  · split
    · exact Except.failsOnly_ok _
    · exact Except.failsOnly_error (by decide)
  split
  · refine failsOnly_bind (failsOnly_fold failsOnly_insertRow _ _) fun acc ↦ ?_
    refine failsOnly_bind (failsOnly_forEach (fun entry ↦ failsOnly_enqueue _ _) _) fun _ ↦ ?_
    refine failsOnly_bind ?_ fun _ ↦ failsOnly_pure _
    unfold storeNextId
    split
    · refine failsOnly_bind (failsOnly_modify _) fun _ ↦ failsOnly_bind ?_ fun _ ↦
        failsOnly_enqueue _ _
      exact failsOnly_bind failsOnly_get fun _ ↦ failsOnly_bind (failsOnly_modify _) fun _ ↦
        failsOnly_pure _
    · exact failsOnly_pure _
  · exact failsOnly_throw (by decide)

theorem failsOnly_assign (assignments : List Assignment) (record : Record) :
    (assign rt assignments record).FailsOnly EngineError.Final := by
  refine Except.failsOnly_bind (failsOnly_decodeRow _) fun columns ↦ Except.failsOnly_bind
    (Except.failsOnly_foldlM (fun columns a ↦ ?_) _ _) fun _ ↦ Except.failsOnly_ok _
  unfold assignColumn
  split
  · exact Except.failsOnly_error final_panicked
  · exact Except.failsOnly_ok _

theorem final_of_changeRows (he : BPlusTree.Sound R e.btree) {verb : String} {notFound : EngineError}
    {change : Record → Except EngineError Record} {selection : Option Expr}
    (hnotFound : notFound.Final) (hchange : ∀ r, (change r).FailsOnly EngineError.Final) :
    (changeRows rt verb notFound change t selection conn e).1.FailsOnly EngineError.Final := by
  refine failsOnly_bind (failsOnly_ofExcept (failsOnly_scanTableWithFilter he selection))
    (fun rows ↦ ?_) e
  exact failsOnly_bind (failsOnly_forEach (fun key ↦ failsOnly_changeKey hnotFound hchange key) _)
    fun _ ↦ failsOnly_bind failsOnly_get fun _ ↦ failsOnly_pure _

/-- **An `INSERT`, `UPDATE` or `DELETE`** does not fail with an error that is retried. -/
theorem final_of_executeStatement (he : BPlusTree.Sound R e.btree) {stmt : Statement}
    (hstmt : stmt.OnTable t) (hindex : (Command.statement stmt).writeKind ≠ some .index) :
    (executeStatement rt stmt conn e).1.FailsOnly EngineError.Final := by
  cases stmt with
  | createIndex name tableName columns => exact absurd rfl hindex
  | insert tableName source =>
    refine failsOnly_bind (failsOnly_ofExcept ?_) (fun query ↦ failsOnly_handleInsert query) e
    split
    · exact Except.failsOnly_ok _
    · exact Except.failsOnly_error (by decide)
  | update table assignments selection =>
    cases table with
    | table name => exact final_of_changeRows he (by decide) (failsOnly_assign assignments)
    | other => exact hstmt.elim
  | delete fromTables selection =>
    rcases fromTables with - | ⟨_ | _, rest⟩
    · exact hstmt.elim
    · exact final_of_changeRows he (by decide) fun _ ↦ Except.failsOnly_ok _
    · exact hstmt.elim
  | _ => exact hstmt.elim

/-- What an `INSERT`, `UPDATE` or `DELETE` outside transactions writes. -/
theorem written_execute (he : BPlusTree.Sound R e.btree) {stmt : Statement} (hstmt : stmt.OnTable t)
    (hindex : (Command.statement stmt).writeKind ≠ some .index)
    (hauto : e.activeTransactions.lookup conn = none)
    (hQ : ∀ key ∈ stmt.writes rt e conn, ∀ data, stmt.Puts e data → Q key data)
    (hroom : e.btree.memoryTier.HasRoom (stmt.writes rt e conn).length)
    (hwrap : e.currentVersion + (stmt.writes rt e conn).length < 2 ^ 64) :
    Written Q e (execute rt (.statement stmt) conn e).2 := by
  have honce : execute rt (.statement stmt) conn e = executeStatement rt stmt conn e :=
    executeRetrying_eq (fun err u hrun ↦ final_of_executeStatement he hstmt hindex err (by rw [hrun])) 5
  rw [honce]
  exact state_of_wp (wp_executeStatement_overwrites hstmt hauto hQ hroom hwrap)

end Engine

end KsSql
