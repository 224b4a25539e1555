import KsSql.Parser.TableChanges

/-!
# Statements on tables

A command of a connection, in a transaction or outside, makes of the tables and of the transactions what
`TableSessions.next` says, and answers what `TableSessions.Answers` says (`served_execute`).

This rests on the following. There is no index, and the names of the tables are told apart by the keys of
their rows (`Tabular`); nothing has wrapped around, nothing is evicted from the memory tier, and the log
refuses nothing (`Calm`); and in the tables that are scanned the tree shows nothing that the memory tier
has replaced (`NothingStale`).
-/

namespace KsSql

namespace Engine

variable {rt : Runtime} {N : Bytes → Prop} {e u : Engine} {t key : Bytes} {columns : Row} {data : Data}
  {conn : Nat} {tx : Transaction}

/-! ### `INSERT` -/

/-- What is written under the key of a row of a table becomes the row. -/
theorem rows_install (ht : SimpleName t) {w : Install} {id : UInt64} (hkey : w.key = rowKey t id)
    (e : Engine) : (e.install rt w).database.rows = Function.update e.database.rows t
      (Function.update (e.database.rows t) w.key w.data.liveRow) := by
  have hlive : ∀ key, (e.install rt w).liveRow key =
      if key = w.key then w.data.liveRow else e.liveRow key := fun key ↦ by
    rw [liveRow, lastInstalled_install, liveRow]
    split <;> rfl
  funext t' key
  show (if (tablePrefix t').isPrefixOf key then (e.install rt w).liveRow key else none) = _
  rw [hlive]
  by_cases ht' : t' = t
  · subst ht'
    rw [Function.update_self, Function.update_apply]
    split
    · split
      · rfl
      · rename_i hinto hne
        exact (if_pos hinto).symm
    · rename_i hinto
      split
      · rename_i heq
        exact absurd ((isPrefixOf_rowKey_iff ht id).2 rfl) (hkey ▸ heq ▸ hinto)
      · exact (if_neg hinto).symm
  · rw [Function.update_of_ne ht']
    show _ = if (tablePrefix t').isPrefixOf key then e.liveRow key else none
    split
    · rename_i hinto
      refine if_neg fun heq ↦ ht' ?_
      rw [heq, hkey] at hinto
      exact (isPrefixOf_rowKey_iff ht id).1 hinto
    · rfl

/-- A record that is written at the current version is newer than the snapshots that are older. -/
theorem snapshot_install (ht : SimpleName t) {w : Install} {id : UInt64} (hkey : w.key = rowKey t id)
    {r : Record} (hr : w.data = .record r) (hversion : r.version = e.currentVersion) (tx : Transaction) :
    (e.install rt w).snapshot tx = (e.snapshot tx).meet t w.key := by
  refine Snapshot.ext rfl (funext fun t' ↦ funext fun key ↦ propext ?_) rfl
  show ((tablePrefix t').isPrefixOf key ∧ ∃ r', (e.install rt w).lastInstalled key = some (.record r') ∧ _) ↔
    Function.update (e.snapshot tx).overtaken t _ t' key
  rw [lastInstalled_install]
  by_cases heq : key = w.key
  · subst heq
    have hnewer : (∃ r', some w.data = some (.record r') ∧ tx.snapshotVersion < r'.version) ↔
        tx.snapshotVersion < e.currentVersion := by
      rw [hr, ← hversion]
      exact ⟨fun ⟨r', hr', hlt⟩ ↦ Data.record.inj (Option.some.inj hr') ▸ hlt, fun hlt ↦ ⟨r, rfl, hlt⟩⟩
    rw [if_pos rfl, hnewer, hkey, isPrefixOf_rowKey_iff ht id]
    by_cases ht' : t' = t
    · subst ht'
      rw [Function.update_self, Function.update_self]
      exact and_iff_right rfl
    · rw [Function.update_of_ne ht']
      refine iff_of_false (fun hboth ↦ ht' hboth.1) fun hover ↦ ht' ?_
      exact (isPrefixOf_rowKey_iff ht id).1 hover.1
  · rw [if_neg heq]
    by_cases ht' : t' = t
    · subst ht'
      rw [Function.update_self, Function.update_of_ne heq]
      rfl
    · rw [Function.update_of_ne ht']
      rfl

theorem Tabular.install (h : e.Tabular) {w : Install} (hkey : IsRowKey w.key) {r : Record}
    (hr : w.data = .record r) : (e.install rt w).Tabular where
  unindexed := h.unindexed
  written w' hw' := by
    rcases List.mem_append.1 hw' with hw' | hw'
    · exact h.written w' hw'
    · rw [List.mem_singleton.1 hw']
      exact ⟨hkey, r, hr⟩
  buffered := h.buffered
  enqueued key data hd := (h.enqueued key data hd).mono (List.subset_append_left _ _)

/-- From `e` to `u`, the rows were put into the table or noted, and the entries for the log are still to
be enqueued. -/
structure Filling (rt : Runtime) (conn : Nat) (t : Bytes) (schema : TableSchema) (e : Engine)
    (done : List (List Expr)) (acc : Inserting) (u : Engine) : Prop where
  schemas : u.schemas = e.schemas
  refusals : u.history.refusals = e.history.refusals
  tabular : u.Tabular
  entries : ∀ x ∈ acc.walEntries, u.Traced x.1 x.2
  nextId : acc.nextId = (schema.after done.length).nextId
  undeleted : e.Undeleted → u.Undeleted
  sessions : u.sessions = done.zipIdx.foldl (TableSessions.insertRow rt conn t schema) e.sessions

/-- A row is put into the table. -/
theorem sessions_insertRow (ht : SimpleName t) (schema : TableSchema) (x : List Expr × Nat)
    (htx : e.activeTransactions.lookup conn = none) {r : Record}
    (hrow : r.value = .row (insertedColumns schema (schema.nextId + x.2) x.1))
    (hdeleted : r.isDeleted = false) (hversion : r.version = e.currentVersion) :
    ((e.draw conn (e.nextKey rt t)).tick.install rt
        ⟨conn, .insert, e.nextKey rt t, .record r⟩).sessions =
      e.sessions.insertRow rt conn t schema x := by
  let drawn : Engine := (e.draw conn (e.nextKey rt t)).tick
  let w : Install := ⟨conn, .insert, e.nextKey rt t, .record r⟩
  have hkey : w.key = rowKey t (rt.random e.history.drawn.length) := rfl
  have hlive : w.data.liveRow = some (insertedColumns schema (schema.nextId + x.2) x.1) :=
    Data.liveRow_eq_some_iff.2 ⟨r, rfl, hdeleted, hrow⟩
  rw [TableSessions.insertRow, opened_sessions, htx]
  refine TableSessions.ext (Database.ext rfl ?_ ?_) (funext fun c ↦ ?_)
  · show (drawn.install rt w).database.rows = _
    rw [rows_install ht hkey, hlive]
    rfl
  · exact List.length_append.trans rfl
  · show (e.activeTransactions.lookup c).map (drawn.install rt w).snapshot =
      ((e.activeTransactions.lookup c).map e.snapshot).map (Snapshot.meet t w.key)
    rw [Option.map_map]
    exact congrArg (Option.map · _) (funext fun tx ↦ snapshot_install (e := drawn) ht hkey rfl hversion tx)

/-- A row is noted. -/
theorem sessions_bufferRow (ht : SimpleName t) (schema : TableSchema) (x : List Expr × Nat)
    (htx : e.activeTransactions.lookup conn = some tx) {r : Record}
    (hrow : r.value = .row (insertedColumns schema (schema.nextId + x.2) x.1))
    (hdeleted : r.isDeleted = false) :
    ((e.draw conn (e.nextKey rt t)).tick.buffer conn tx (e.nextKey rt t) (.record r)).sessions =
      e.sessions.insertRow rt conn t schema x := by
  let drawn : Engine := (e.draw conn (e.nextKey rt t)).tick
  have hlive : (Data.record r).liveRow = some (insertedColumns schema (schema.nextId + x.2) x.1) :=
    Data.liveRow_eq_some_iff.2 ⟨r, rfl, hdeleted, hrow⟩
  have htx' : drawn.activeTransactions.lookup conn = some tx := htx
  have hnoting := noting_buffer htx' (e.nextKey rt t) (.record r)
  rw [hlive] at hnoting
  rw [hnoting.sessions_eq htx', TableSessions.insertRow, opened_sessions, htx]
  refine TableSessions.ext (Database.ext rfl rfl (List.length_append.trans rfl)) ?_
  show Function.update e.sessions.opened conn _ = Function.update e.sessions.opened conn _
  refine congrArg (fun new ↦ Function.update e.sessions.opened conn
    (some ((e.snapshot tx).note new))) (funext fun t' ↦ funext fun key ↦ ?_)
  refine if_congr ?_ rfl rfl
  rw [List.mem_singleton]
  constructor
  · rintro ⟨hunder, rfl⟩
    exact ⟨(isPrefixOf_rowKey_iff ht _).1 hunder, rfl⟩
  · rintro ⟨rfl, rfl⟩
    exact ⟨(isPrefixOf_rowKey_iff ht _).2 rfl, rfl⟩

/-- The loop body. -/
theorem wp_insertRow_filling {schema : TableSchema} {acc : Inserting} {done : List (List Expr)}
    {row : List Expr} (ht : SimpleName t) (h : Filling rt conn t schema e done acc u) :
    Effect.wp (insertRow rt t schema conn acc row)
      (fun acc' u' ↦ Filling rt conn t schema e (done ++ [row]) acc' u') (fun _ _ ↦ False) u := by
  let drawn : Engine := (u.draw conn (u.nextKey rt t)).tick
  have hkey : IsRowKey (u.nextKey rt t) := ⟨t, _, ht, rfl⟩
  have hdrawn : drawn.Tabular := ⟨h.tabular.unindexed, h.tabular.written, h.tabular.buffered, h.tabular.enqueued⟩
  -- without a generated column the number does not matter
  have hcolumns : insertedColumns schema acc.nextId row =
      insertedColumns schema (schema.nextId + done.length) row := by
    rw [h.nextId, TableSchema.after]
    rcases hauto : schema.autoIncrementCol with - | c
    · simp only [insertedColumns, hauto]
    · rfl
  have hnextId : (if schema.autoIncrementCol.isSome then acc.nextId + 1 else acc.nextId) =
      (schema.after (done ++ [row]).length).nextId := by
    rw [h.nextId, TableSchema.after, TableSchema.after, List.length_append]
    dsimp only
    split <;> simp only [List.length_singleton, Nat.add_assoc, Nat.add_zero]
  have hsessions : (done ++ [row]).zipIdx.foldl (TableSessions.insertRow rt conn t schema) e.sessions =
      u.sessions.insertRow rt conn t schema (row, done.length) := by
    rw [List.zipIdx_append, List.foldl_append, ← h.sessions]
    simp only [List.zipIdx_singleton, List.foldl_cons, List.foldl_nil, Nat.zero_add]
  refine Effect.wp_bind (Effect.wp_get (Effect.wp_bind (Effect.wp_modify (Effect.wp_bind
    (Effect.wp_modify ?_)))))
  rcases htx : u.activeTransactions.lookup conn with - | tx
  · refine Effect.wp_bind (Effect.wp_modify (Effect.wp_pure ?_))
    have hindices : rt.iterate u.indices = [] := by
      rw [h.tabular.unindexed]
      exact (rt.iterate_perm _).eq_nil
    let w : Install := ⟨conn, .insert, u.nextKey rt t,
      .record ⟨.row (insertedColumns schema acc.nextId row), u.currentVersion, false, rt.timestamp u.ticks⟩⟩
    show Filling rt conn t schema e (done ++ [row]) _ (drawn.install rt w)
    refine ⟨h.schemas, h.refusals, hdrawn.install hkey rfl, fun x hx ↦ ?_, hnextId, fun he ↦ ?_, ?_⟩
    · rw [hindices] at hx
      rcases List.mem_append.1 hx with hx | hx
      · exact (h.entries x hx).mono (List.subset_append_left _ _)
      · rw [List.mem_singleton.1 hx]
        exact Or.inl ⟨w, List.mem_append_right _ (List.mem_singleton.2 rfl), rfl, rfl⟩
    · have hundeleted : drawn.Undeleted := h.undeleted he
      exact hundeleted.install rfl
    · rw [hsessions]
      exact sessions_insertRow ht schema (row, done.length) htx (congrArg Payload.row hcolumns) rfl rfl
  · refine Effect.wp_bind (Effect.wp_modify (Effect.wp_pure ?_))
    have htx' : drawn.activeTransactions.lookup conn = some tx := htx
    refine ⟨h.schemas, h.refusals, (noting_buffer htx' _ _).tabular hdrawn htx' fun k hk ↦ List.mem_singleton.1 hk ▸ hkey,
      h.entries, hnextId, h.undeleted, ?_⟩
    rw [hsessions]
    exact sessions_bufferRow ht schema (row, done.length) htx (congrArg Payload.row hcolumns) rfl

/-- An entry goes to the log. -/
theorem wp_enqueue_unseen (h : Unseen e u) (hrefusals : u.history.refusals = e.history.refusals)
    (htraced : e.Traced key data) : Effect.wp (enqueue key data)
      (fun _ u' ↦ Unseen e u' ∧ u'.history.refusals = e.history.refusals)
      (fun _ u' ↦ e.history.refusals < u'.history.refusals) u := by
  refine wp_enqueue (fun _ ↦ ⟨h.pushed htraced, hrefusals⟩) fun _ ↦ ?_
  show e.history.refusals < u.history.refusals + 1
  rw [hrefusals]
  exact Nat.lt_succ_self _

/-- The next generated number goes to the catalogue. -/
theorem wp_storeNextId_sessions {schema : TableSchema} (h : e.Tabular)
    (hschema : e.schemas.lookup t = some schema) (nextId : Nat) :
    Effect.wp (storeNextId rt t schema nextId)
      (fun _ u ↦ u.Tabular ∧ (e.Undeleted → u.Undeleted) ∧ u.sessions = { e.sessions with
        db := { e.database with
          tables := Function.update e.database.tables t (some { schema with nextId := nextId }) } })
      (fun _ u ↦ e.history.refusals < u.history.refusals) e := by
  rw [storeNextId]
  split
  · let stored : Engine := { e with schemas := e.schemas.insert t { schema with nextId := nextId } }
    have hstored : stored.Tabular := ⟨h.unindexed, h.written, h.buffered, h.enqueued⟩
    have htick : Unseen stored stored.tick := ⟨⟨rfl, rfl, rfl, fun _ _ ↦ Or.inl⟩, rfl, rfl, fun _ ↦ rfl⟩
    refine Effect.wp_bind (Effect.wp_modify (Effect.wp_bind (Effect.wp_bind (Effect.wp_get
      (Effect.wp_bind (Effect.wp_modify (Effect.wp_pure ?_)))))))
    refine Effect.wp_mono (wp_enqueue_unseen htick rfl (Or.inr rfl)) (fun _ u hu ↦ ?_) fun _ _ hlt ↦ hlt
    obtain ⟨hu, -⟩ := hu
    exact ⟨hu.tabular hstored, fun he ↦ hu.toSameCommitted.undeleted (e := stored) he,
      hu.sessions.trans (sessions_schemas e t _)⟩
  · rename_i heq
    rw [not_not] at heq
    subst heq
    refine Effect.wp_pure ⟨h, id, TableSessions.ext (Database.ext ?_ rfl rfl) rfl⟩
    have htable : e.database.tables t = some schema := hschema
    show e.database.tables = Function.update e.database.tables t (some schema)
    rw [← htable, Function.update_eq_self]

/-- **`INSERT`** puts its rows into the table or notes them, and fails if there is no table, or if the
log has no room. -/
theorem wp_handleInsert_sessions (h : e.Tabular) (ht : SimpleName t) (source : Query) :
    Effect.wp (handleInsert rt t source conn)
      (fun reply u ↦ u.Tabular ∧ (e.Undeleted → u.Undeleted) ∧
        u.sessions = e.sessions.next rt conn (.statement (.insert t (some source))) ∧
          (e.sessions.view conn).insertText t source.body = .ok reply.output)
      (fun err u ↦ e.history.refusals < u.history.refusals ∨ u = e ∧
        e.sessions.next rt conn (.statement (.insert t (some source))) = e.sessions ∧
          (e.sessions.view conn).insertText t source.body = .error err) e := by
  obtain ⟨body, limit⟩ := source
  have htables : e.sessions.db.tables t = e.schemas.lookup t := rfl
  have hview : (e.sessions.view conn).tables t = e.schemas.lookup t := congrFun (tables_view conn) t
  refine Effect.wp_bind (Effect.wp_get (Effect.wp_bind ?_))
  rcases hschema : e.schemas.lookup t with - | schema
  · refine Or.inr ⟨rfl, ?_, ?_⟩
    · cases body with
      | values rows => rw [TableSessions.next, TableSessions.insert, htables, hschema]
      | _ => rfl
    · simp only [Database.insertText, hview, hschema]
  refine Effect.wp_ofExcept (fun schema' hschema' ↦ ?_) fun _ herr ↦ by cases herr
  obtain rfl := Except.ok.inj hschema'
  cases body with
  | values rows =>
    refine Effect.wp_bind (Effect.wp_mono (Effect.wp_fold (Filling rt conn t schema e)
      ⟨rfl, rfl, h, fun _ hx ↦ absurd hx List.not_mem_nil, ?_, id, rfl⟩
      (fun done row rest _ acc u hfill ↦ wp_insertRow_filling ht hfill) fun _ _ h ↦ h)
      (fun acc u hfill ↦ ?_) fun _ _ hfalse ↦ hfalse.elim)
    · show schema.nextId = schema.nextId + ite _ 0 0
      rw [ite_self, Nat.add_zero]
    · let I := fun u' : Engine ↦ Unseen u u' ∧ u'.history.refusals = u.history.refusals
      refine Effect.wp_bind (Effect.wp_mono (Effect.wp_forEach (Q := fun _ ↦ I) (fun _ ↦ I) ⟨.refl u, rfl⟩
        (fun done x rest hsplit u' hu' ↦ wp_enqueue_unseen hu'.1 hu'.2
          (hfill.entries x (hsplit ▸ List.mem_append_right _ List.mem_cons_self)))
        fun _ h ↦ h) (fun _ u' hqueued ↦ ?_) fun _ u' hlt ↦ Or.inl (hfill.refusals ▸ hlt))
      obtain ⟨hu', hr⟩ := hqueued
      have hlookup : u'.schemas.lookup t = some schema := by
        rw [hu'.schemas, hfill.schemas, hschema]
      refine Effect.wp_bind (Effect.wp_mono (wp_storeNextId_sessions (hu'.tabular hfill.tabular) hlookup _)
        (fun _ u'' hstored ↦ Effect.wp_pure ⟨hstored.1, fun he ↦
          hstored.2.1 (hu'.toSameCommitted.undeleted (hfill.undeleted he)), ?_, ?_⟩) fun _ _ hlt ↦
            Or.inl (by rwa [hr, hfill.refusals] at hlt))
      · have hfilled : u'.sessions = rows.zipIdx.foldl (TableSessions.insertRow rt conn t schema) e.sessions :=
          hu'.sessions.trans hfill.sessions
        have hdb : u'.database = (rows.zipIdx.foldl (TableSessions.insertRow rt conn t schema) e.sessions).db :=
          congrArg TableSessions.db hfilled
        rw [hstored.2.2, hdb, hfilled, TableSessions.next, TableSessions.insert, htables, hschema, hfill.nextId]
        rfl
      · simp only [Database.insertText, hview, hschema]
  | _ =>
    refine Effect.wp_throw (Or.inr ⟨rfl, rfl, ?_⟩)
    simp only [Database.insertText, hview, hschema]

/-! ### Commands -/

/-- `CREATE TABLE` changes the catalogue, whether or not the tree takes it. -/
theorem wp_createTable_sessions (h : e.Tabular) (conn : Nat) (name : Bytes)
    (columns : List ColumnDef) :
    Effect.wp (createTable rt name columns)
      (fun _ u ↦ u.Tabular ∧ (e.Undeleted → u.Undeleted) ∧
        u.sessions = e.sessions.next rt conn (.statement (.createTable name columns)))
      (fun err u ↦ err.Final ∧ u.Tabular ∧ (e.Undeleted → u.Undeleted) ∧
        u.sessions = e.sessions.next rt conn (.statement (.createTable name columns))) e := by
  let stored : Engine := { e with schemas := e.schemas.insert name (newSchema rt name columns) }
  have hstored : stored.Tabular := ⟨h.unindexed, h.written, h.buffered, h.enqueued⟩
  have htick : Unseen stored stored.tick := ⟨⟨rfl, rfl, rfl, fun _ _ ↦ Or.inl⟩, rfl, rfl, fun _ ↦ rfl⟩
  have hdone : ∀ {u : Engine}, Unseen stored u → u.Tabular ∧ (e.Undeleted → u.Undeleted) ∧
      u.sessions = e.sessions.next rt conn (.statement (.createTable name columns)) := fun hu ↦
    ⟨hu.tabular hstored, fun he ↦ hu.toSameCommitted.undeleted (e := stored) he,
      hu.sessions.trans (sessions_schemas e name _)⟩
  refine Effect.wp_bind (Effect.wp_modify (Effect.wp_bind (Effect.wp_bind (Effect.wp_get
    (Effect.wp_bind (Effect.wp_modify (Effect.wp_pure (Effect.wp_bind (wp_insertTree (fun _ ↦
      Effect.wp_pure ?_) fun err ↦ ⟨final_storage err, ?_⟩)))))))))
  · exact hdone (htick.insertTree schemasKey _)
  · exact hdone (htick.insertTree schemasKey _)

/-- The assignments of an `UPDATE`, if each has a name. -/
theorem assign_eq_ok {assignments : List Assignment} (hids : ∀ a ∈ assignments, a.id ≠ []) {r : Record}
    (hvalue : r.value = .row columns) :
    assign rt assignments r = .ok { r with value := .row (Database.assigned rt assignments columns) } := by
  have hfold : ∀ (l : List Assignment) (columns : Row), (∀ a ∈ l, a.id ≠ []) →
      l.foldlM (assignColumn rt) columns = .ok (Database.assigned rt l columns) := by
    intro l
    induction l with
    | nil => exact fun _ _ ↦ rfl
    | cons a l ih =>
      intro columns hl
      obtain ⟨col, rest, hid⟩ := List.exists_cons_of_ne_nil (hl a List.mem_cons_self)
      have hfirst : assignColumn rt columns a = .ok (columns.insert col (rt.unquoted a.value)) := by
        rw [assignColumn, hid]
      rw [List.foldlM_cons, hfirst, Except.ok_bind, ih _ fun b hb ↦ hl b (List.mem_cons_of_mem a hb),
        Database.assigned, Database.assigned, List.foldl_cons, hid]
      rfl
  rw [assign, hvalue]
  show (assignments.foldlM (assignColumn rt) columns >>= _) = _
  rw [hfold assignments columns hids]
  rfl

theorem turns_assign {assignments : List Assignment} (hids : ∀ a ∈ assignments, a.id ≠ []) (columns : Row) :
    Turns (assign rt assignments) columns (some (Database.assigned rt assignments columns)) := by
  intro r hdeleted hvalue
  exact ⟨_, assign_eq_ok hids hvalue, fun version ↦ Data.liveRow_eq_some_iff.2 ⟨_, rfl, hdeleted, rfl⟩⟩

theorem turns_delete (columns : Row) : Turns (fun r ↦ .ok { r with isDeleted := true }) columns none := by
  intro r _ _
  refine ⟨_, rfl, fun version ↦ ?_⟩
  obtain ⟨value, version', isDeleted, timestamp⟩ := r
  cases value <;> rfl

/-- A statement that has not changed anything is answered in the same way again. -/
theorem executeRetrying_of_state {stmt : Statement} (h : (executeStatement rt stmt conn e).2 = e) :
    ∀ retries, executeRetrying rt stmt conn retries e = executeStatement rt stmt conn e
  | 0 => rfl
  | retries + 1 => by
    have ih := executeRetrying_of_state h retries
    unfold executeRetrying
    rcases hrun : executeStatement rt stmt conn e with ⟨err | reply, u⟩
    · rw [hrun] at h ih
      obtain rfl : u = e := h
      dsimp only
      rw [ih, ite_self]
    · rfl

end Engine

/-- The command needs no index, inserts into tables with simple names only, and each of its assignments
has a name. -/
def Command.Simple : Command → Prop
  | .statement (.createIndex ..) => False
  | .statement (.insert t _) => SimpleName t
  | .statement (.update _ assignments _) => ∀ a ∈ assignments, a.id ≠ []
  | _ => True

instance : DecidablePred Command.Simple := fun command ↦ match command with
  | .statement (.createIndex ..) => .isFalse id
  | .statement (.insert t _) => inferInstanceAs (Decidable (SimpleName t))
  | .statement (.update _ assignments _) => inferInstanceAs (Decidable (∀ a ∈ assignments, a.id ≠ []))
  | .statement (.createTable ..) | .statement (.explain _) | .statement (.query _)
  | .statement (.delete ..) | .statement (.call _) | .statement .other => .isTrue trivial
  | .flush | .begin | .commit | .rollback => .isTrue trivial

/-- The command is a `DELETE`. -/
def Command.Deletes : Command → Prop
  | .statement (.delete ..) => True
  | _ => False

instance : DecidablePred Command.Deletes := fun command ↦ match command with
  | .statement (.delete ..) => .isTrue trivial
  | .statement (.createIndex ..) | .statement (.insert ..) | .statement (.update ..)
  | .statement (.createTable ..) | .statement (.explain _) | .statement (.query _)
  | .statement (.call _) | .statement .other => .isFalse id
  | .flush | .begin | .commit | .rollback => .isFalse id

/-- Whether the names of columns in a command lie in a set can be decided, if it can be of a name. -/
instance {N : Bytes → Prop} [DecidablePred N] : DecidablePred (Command.ColumnsIn N) := fun command ↦
  match command with
  | .statement (.createTable _ columns) => inferInstanceAs (Decidable (∀ c ∈ columns, N c.name))
  | .statement (.update _ assignments _) =>
    inferInstanceAs (Decidable (∀ a ∈ assignments, ∀ col ∈ a.id.head?, N col))
  | .statement (.createIndex ..) | .statement (.insert ..) | .statement (.delete ..)
  | .statement (.explain _) | .statement (.query _) | .statement (.call _) | .statement .other =>
    .isTrue trivial
  | .flush | .begin | .commit | .rollback => .isTrue trivial

namespace Engine

variable {rt : Runtime} {N : Bytes → Prop} {e u : Engine} {conn : Nat} {command : Command}

/-- Nothing has wrapped around, nothing was evicted from the memory tier, and the log refused nothing. -/
structure Calm (e : Engine) : Prop where
  bounded : e.Bounded
  evictions : e.history.evictions = 0
  refusals : e.history.refusals = 0

theorem Calm.steadfast (h : e.Calm) : e.Steadfast := ⟨h.evictions, h.bounded.bumps⟩

theorem Grows.calm (h : Grows e u) (hu : u.Calm) : e.Calm where
  bounded := h.bounded hu.bounded
  evictions := Nat.le_zero.1 (h.evictions.trans hu.evictions.le)
  refusals := Nat.le_zero.1 (h.refusals.trans hu.refusals.le)

/-- A command has changed the tables and the transactions, and was answered as it is to be. Outside
transactions, only a `DELETE` deletes. -/
structure Served (rt : Runtime) (e : Engine) (conn : Nat) (command : Command)
    (result : Except EngineError Reply) (u : Engine) : Prop where
  tabular : u.Tabular
  sessions : u.sessions = e.sessions.next rt conn command
  answers : e.sessions.Answers rt conn command (result.map Reply.output)
  undeleted : e.activeTransactions.lookup conn = none → ¬ command.Deletes → e.Undeleted → u.Undeleted

theorem Tabular.answers (h : e.Tabular) (hco : e.Coherent rt N) (hev : e.history.evictions = 0)
    (hstale : ∀ t ∈ command.reads, e.NothingStale (e.readVersion conn) t) {given : Except EngineError Bytes}
    (hgiven : ∀ expected ∈ e.sessions.answer rt conn (e.order rt conn) command, given = expected) :
    e.sessions.Answers rt conn command given :=
  ⟨e.order rt conn, fun t ht ↦ h.enumerates hco hev (hstale t ht), hgiven⟩

/-- **A statement** changes the tables and is answered as it is to be. -/
theorem wp_executeStatement_served (h : e.Tabular) (hco : e.Coherent rt (· ≠ keyColumn))
    (hcalm : e.Calm) {stmt : Statement} (hsimple : (Command.statement stmt).Simple)
    (hstale : ∀ t ∈ (Command.statement stmt).reads, e.NothingStale (e.readVersion conn) t) :
    Effect.wp (executeStatement rt stmt conn)
      (fun reply u ↦ u.Calm → Served rt e conn (.statement stmt) (.ok reply) u)
      (fun err u ↦ u.Calm → Served rt e conn (.statement stmt) (.error err) u) e := by
  have hserved : ∀ {result u}, u.Tabular → u.sessions = e.sessions.next rt conn (.statement stmt) →
      (¬ (Command.statement stmt).Deletes → e.Undeleted → u.Undeleted) →
      (∀ expected ∈ (e.sessions.view conn).answer rt (e.order rt conn) (.statement stmt),
        result.map Reply.output = expected) → Served rt e conn (.statement stmt) result u :=
    fun htab hs hundeleted hgiven ↦
      ⟨htab, hs, h.answers hco hcalm.evictions hstale hgiven, fun _ ↦ hundeleted⟩
  have hrefused : ∀ {u : Engine}, u.Calm → ¬ e.history.refusals < u.history.refusals := fun hu hlt ↦ by
    rw [hu.refusals] at hlt
    exact absurd hlt (Nat.not_lt_zero _)
  cases stmt with
  | call modulePath =>
    exact Effect.wp_ofExcept (fun _ _ _ ↦ hserved h rfl (fun _ ↦ id) nofun)
      fun _ _ _ ↦ hserved h rfl (fun _ ↦ id) nofun
  | createIndex name t columns => exact hsimple.elim
  | createTable name columns =>
    exact Effect.wp_mono (wp_createTable_sessions h conn name columns)
      (fun _ _ ⟨htab, hundeleted, hs⟩ _ ↦ hserved htab hs (fun _ ↦ hundeleted) nofun)
      fun _ _ ⟨_, htab, hundeleted, hs⟩ _ ↦ hserved htab hs (fun _ ↦ hundeleted) nofun
  | explain statement => exact Effect.wp_pure fun _ ↦ hserved h rfl (fun _ ↦ id) nofun
  | insert t source =>
    rcases source with - | source
    · exact fun _ ↦ hserved h rfl (fun _ ↦ id) nofun
    · show Effect.wp (handleInsert rt t source conn) _ _ e
      refine Effect.wp_mono (wp_handleInsert_sessions h hsimple source)
        (fun reply u ⟨htab, hundeleted, hs, htext⟩ _ ↦ hserved htab hs (fun _ ↦ hundeleted) ?_)
        fun err u hu hcalm' ↦ ?_
      · rintro expected ⟨⟩
        exact htext.symm
      · rcases hu with hlt | ⟨rfl, hs, htext⟩
        · exact absurd hlt (hrefused hcalm')
        · refine hserved h hs.symm (fun _ ↦ id) ?_
          rintro expected ⟨⟩
          exact htext.symm
  | query q =>
    refine Effect.wp_bind (Effect.wp_get (Effect.wp_bind (Effect.wp_ofExcept
      (fun output houtput ↦ Effect.wp_pure fun _ ↦ hserved h rfl (fun _ ↦ id) ?_) fun err herr _ ↦
        hserved h rfl (fun _ ↦ id) ?_)))
    · rintro expected ⟨⟩
      exact houtput.symm.trans (h.handleQuery_eq hco q conn)
    · rintro expected ⟨⟩
      exact herr.symm.trans (h.handleQuery_eq hco q conn)
  | update table assignments selection =>
    cases table with
    | table t =>
      refine Effect.wp_mono (wp_changeRows_sessions
        (f := fun columns ↦ some (Database.assigned rt assignments columns)) h hco hcalm.evictions
        (hstale t (List.mem_singleton.2 rfl)) "Updated" selection (turns_assign hsimple))
        (fun reply u ⟨hdone, htext⟩ hcalm' ↦ ?_)
        fun err u hu hcalm' ↦ absurd (hu hcalm'.evictions) (hrefused hcalm')
      obtain ⟨htab, hs, hundeleted⟩ := hdone hcalm'.steadfast
      refine hserved htab hs (fun _ ↦ hundeleted fun _ ↦ rfl) ?_
      rintro expected ⟨⟩
      exact congrArg Except.ok htext
    | other => exact fun _ ↦ hserved h rfl (fun _ ↦ id) nofun
  | delete fromTables selection =>
    rcases fromTables with - | ⟨⟨t⟩ | -, rest⟩
    · exact fun _ ↦ hserved h rfl (fun _ ↦ id) nofun
    · refine Effect.wp_mono (wp_changeRows_sessions (f := fun _ ↦ none) h hco hcalm.evictions
        (hstale t (List.mem_singleton.2 rfl)) "Deleted" selection turns_delete)
        (fun reply u ⟨hdone, htext⟩ hcalm' ↦ ?_)
        fun err u hu hcalm' ↦ absurd (hu hcalm'.evictions) (hrefused hcalm')
      obtain ⟨htab, hs, -⟩ := hdone hcalm'.steadfast
      refine hserved htab hs (fun hnot ↦ absurd trivial hnot) ?_
      rintro expected ⟨⟩
      exact congrArg Except.ok htext
    · exact fun _ ↦ hserved h rfl (fun _ ↦ id) nofun
  | other => exact fun _ ↦ hserved h rfl (fun _ ↦ id) nofun

/-- No attempt at a statement leads to another one, or it has changed nothing. -/
theorem executeRetrying_once (h : e.Tabular) (hsound : BPlusTree.Sound (e.Stored N) e.btree)
    {stmt : Statement} (hsimple : (Command.statement stmt).Simple) (retries : Nat) :
    executeRetrying rt stmt conn retries e = executeStatement rt stmt conn e := by
  have hfinal : (executeStatement rt stmt conn e).1.FailsOnly EngineError.Final →
      executeRetrying rt stmt conn retries e = executeStatement rt stmt conn e := fun hf ↦
    executeRetrying_eq (fun err u hrun ↦ hf err (by rw [hrun])) retries
  cases stmt with
  | createIndex name t columns => exact hsimple.elim
  | createTable name columns =>
    refine hfinal fun err herr ↦ ?_
    have hwp : Effect.wp (createTable rt name columns) _ _ e :=
      wp_createTable_sessions h conn name columns
    rcases hrun : createTable rt name columns e with ⟨err' | reply, u⟩
    · obtain rfl : err' = err := Except.error.inj ((congrArg Prod.fst hrun).symm.trans herr)
      exact (Effect.of_wp_error hwp hrun).1
    · cases (congrArg Prod.fst hrun).symm.trans herr
  | insert t source => exact hfinal (final_of_executeStatement hsound (t := t) rfl nofun)
  | update table assignments selection =>
    cases table with
    | table t => exact hfinal (final_of_executeStatement hsound (t := t) rfl nofun)
    | other => exact executeRetrying_of_state rfl retries
  | delete fromTables selection =>
    rcases fromTables with - | ⟨⟨t⟩ | -, rest⟩
    · exact executeRetrying_of_state rfl retries
    · exact hfinal (final_of_executeStatement hsound (t := t) rfl nofun)
    · exact executeRetrying_of_state rfl retries
  | call modulePath =>
    refine executeRetrying_of_state ?_ retries
    rcases hcall : rt.callWasm modulePath with err | result <;>
      simp only [executeStatement, hcall, Effect.ofExcept]
  | query q =>
    refine executeRetrying_of_state ?_ retries
    rw [executeStatement, Effect.get_bind]
    rcases e.handleQuery rt q conn with err | output <;> rfl
  | _ => exact executeRetrying_of_state rfl retries

theorem Tabular.opened (h : e.Tabular) (conn : Nat) : (e.opened conn).Tabular := by
  refine ⟨h.unindexed, h.written, fun c tx htx key hkey ↦ ?_, h.enqueued⟩
  rw [Engine.opened, HashMap.lookup_insert_eq_ite] at htx
  split at htx
  · cases htx
    exact absurd hkey List.not_mem_nil
  · exact h.buffered c tx htx key hkey

/-- `BEGIN` opens a transaction that has seen everything so far. -/
theorem sessions_opened (hco : e.Coherent rt N) (conn : Nat) :
    (e.opened conn).sessions = e.sessions.setOpened conn (some .fresh) := by
  refine TableSessions.ext rfl (funext fun c ↦ ?_)
  show ((e.activeTransactions.insert conn _).lookup c).map e.snapshot =
    Function.update e.sessions.opened conn _ c
  rcases eq_or_ne c conn with rfl | hc
  · rw [AList.lookup_insert, Function.update_self]
    refine congrArg some (Snapshot.ext (funext fun t ↦ funext fun key ↦ ?_)
      (funext fun t ↦ funext fun key ↦ ?_) (eq_false (Nat.lt_irrefl _)))
    · exact if_neg fun hboth ↦ absurd hboth.2 List.not_mem_nil
    · refine eq_false fun hover ↦ ?_
      obtain ⟨-, r, hr, hlt⟩ := hover
      exact absurd (hco.version_le_of_lastInstalled hr) (Nat.not_le.2 hlt)
  · rw [AList.lookup_insert_ne hc, Function.update_of_ne hc]
    rfl

/-- **`COMMIT`** changes the tables and is answered as it is to be. -/
theorem served_commit (h : e.Tabular) (hco : e.Coherent rt (· ≠ keyColumn)) (hcalm₀ : e.Calm)
    (hcalm : (commit rt conn e).2.Calm) :
    Served rt e conn .commit (commit rt conn e).1 (commit rt conn e).2 := by
  have hwp : Effect.wp (commit rt conn) _ _ e := wp_commit_sessions h hco hcalm₀.evictions
  have hanswers : ∀ {given}, (∀ expected ∈ e.sessions.answer rt conn (e.order rt conn) .commit,
      given = expected) → e.sessions.Answers rt conn .commit given :=
    h.answers hco hcalm₀.evictions fun t ht ↦ absurd ht List.not_mem_nil
  have hundeleted : e.activeTransactions.lookup conn = none → ¬ Command.commit.Deletes → e.Undeleted →
      (commit rt conn e).2.Undeleted := by
    intro hnone _ he
    rw [commit, Effect.get_bind, hnone]
    exact he
  rcases hcommit : commit rt conn e with ⟨err | reply, u⟩
  · rw [hcommit] at hcalm hundeleted
    rcases Effect.of_wp_error hwp hcommit with hlt | ⟨htext, htab, hs⟩
    · rw [hcalm.refusals] at hlt
      exact absurd hlt (Nat.not_lt_zero _)
    · refine ⟨htab, hs, hanswers ?_, hundeleted⟩
      rintro expected ⟨⟩
      exact htext.symm
  · rw [hcommit] at hcalm hundeleted
    obtain ⟨htext, hdone⟩ := Effect.of_wp_ok hwp hcommit
    obtain ⟨htab, hs⟩ := hdone hcalm.steadfast
    refine ⟨htab, hs, hanswers ?_, hundeleted⟩
    rintro expected ⟨⟩
    exact htext.symm

/-- **A command** changes the tables and is answered as it is to be. -/
theorem served_execute (h : e.Tabular) (hinv : e.Inv rt (· ≠ keyColumn))
    (hcolumns : command.ColumnsIn (· ≠ keyColumn)) (hsimple : command.Simple)
    (hstale : ∀ t ∈ command.reads, e.NothingStale (e.readVersion conn) t)
    (hcalm : (execute rt command conn e).2.Calm) :
    Served rt e conn command (execute rt command conn e).1 (execute rt command conn e).2 := by
  have hgrows : Grows e (execute rt command conn e).2 := (progress_execute hinv hcolumns).grows
  have hcalm₀ := hgrows.calm hcalm
  have hco := hinv hcalm₀.bounded
  have hanswers : ∀ {given}, (∀ expected ∈ e.sessions.answer rt conn (e.order rt conn) command,
      given = expected) → e.sessions.Answers rt conn command given := h.answers hco hcalm₀.evictions hstale
  cases command with
  | flush => exact ⟨h, rfl, hanswers nofun, fun _ _ ↦ id⟩
  | begin =>
    refine ⟨h.opened conn, sessions_opened hco conn, hanswers ?_, fun _ _ ↦ id⟩
    rintro expected ⟨⟩
    rfl
  | commit =>
    have hrun : execute rt .commit conn e = commit rt conn e := rfl
    rw [hrun] at hcalm ⊢
    exact served_commit h hco hcalm₀ hcalm
  | rollback =>
    refine ⟨h.closed conn, sessions_closed conn e, hanswers ?_, fun _ _ ↦ id⟩
    rintro expected ⟨⟩
    rfl
  | statement stmt =>
    have honce : execute rt (.statement stmt) conn e = executeStatement rt stmt conn e :=
      executeRetrying_once h hco.sound hsimple 5
    rw [honce] at hcalm ⊢
    have hwp : Effect.wp (executeStatement rt stmt conn) _ _ e :=
      wp_executeStatement_served h hco hcalm₀ hsimple hstale
    rcases hrun : executeStatement rt stmt conn e with ⟨err | reply, u⟩
    · rw [hrun] at hcalm
      exact Effect.of_wp_error hwp hrun hcalm
    · rw [hrun] at hcalm
      exact Effect.of_wp_ok hwp hrun hcalm

end Engine

end KsSql
