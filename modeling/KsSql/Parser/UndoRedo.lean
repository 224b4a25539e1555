import KsSql.Parser.Isolation
import KsSql.Parser.TimeMachine
import KsSql.Parser.Uncommitted

/-!
# What undo restores

`undo` puts the counter back by one and touches nothing else. A statement that changes one row writes
one record over the one that was there (`wrote_of_ok`), so that after `undo` the new record is hidden
and whatever is stored below it comes to light: what the leaves hold under the key, and for every other
key what the memory tier has not evicted (`Engine.viewWithout`). `Undoable` says when that is what was
shown before; then `undo` restores every answer that no index gives, and `redo` takes it back
(`undo_restores`). An `UPDATE` or a `DELETE` of a row that has been drained is such a statement
(`undoable_of_chain`), and so is an `INSERT` over rows that are older than the counter
(`undoable_of_older`).

An `INSERT` does not advance the counter, so undoing one also hides the rows that were there at the same
version, and the first one cannot be undone at all (`not_undo_restores`).
-/

namespace KsSql

open Engine

/-- The table that a `SELECT` reads. -/
def Select.source? (select : Select) : Option Bytes :=
  match select.fromTables with
  | ⟨.table name, _⟩ :: _ => some name
  | _ => none

/-- The table that a `SELECT` joins to it. -/
def Select.joined? (select : Select) : Option Bytes :=
  match select.fromTables with
  | ⟨_, ⟨.table name, _⟩ :: _⟩ :: _ => some name
  | _ => none

namespace Engine

variable {rt : Runtime} {e u : Engine} {conn : Nat} {key : Bytes}

theorem undo_btree (e : Engine) : e.undo.btree = e.btree := by
  rw [undo]
  split <;> rfl

theorem undo_schemas (e : Engine) : e.undo.schemas = e.schemas := by
  rw [undo]
  split <;> rfl

theorem undo_activeTransactions (e : Engine) :
    e.undo.activeTransactions = e.activeTransactions := by
  rw [undo]
  split <;> rfl

theorem undo_currentVersion (e : Engine) : e.undo.currentVersion = e.currentVersion - 1 := by
  rw [undo]
  split
  · rfl
  · omega

/-- What is undone is there again after `redo`. -/
theorem redo_undo_answer (hpositive : 0 < e.currentVersion) (hbound : e.currentVersion < 2 ^ 64)
    (select : Select) :
    e.undo.redo.selectRows rt (e.undo.redo.readVersion conn) select =
      e.selectRows rt (e.readVersion conn) select := by
  have hundo : e.undo.redo = { e with history := e.undo.redo.history } := by
    have hversion : (e.currentVersion - 1 + 1) % 2 ^ 64 = e.currentVersion := by
      rw [Nat.sub_add_cancel hpositive, Nat.mod_eq_of_lt hbound]
    rw [redo, bump, undo, if_pos hpositive, hversion]
  rw [hundo]
  rfl

/-- Two scans have returned the same rows, up to their order. -/
def SameRows (x y : Except EngineError (List Row)) : Prop :=
  ∃ rows rows', x = .ok rows ∧ y = .ok rows' ∧ rows.Perm rows'

theorem joinRows_perm {operator : JoinOperator} {left left' right right' : List Row}
    (h : left.Perm left') (h' : right.Perm right') :
    (joinRows rt operator left right).Perm (joinRows rt operator left' right') :=
  (h.flatMap_right _).trans (List.Perm.flatMap_left _ fun _ _ ↦ h'.filterMap _)

/-- A `SELECT` that reads the same rows answers the same. -/
theorem selectRows_same {version version' : Nat} {select : Select}
    (htables : SameTables e.schemas u.schemas)
    (hsource : ∀ t ∈ select.source?, SameRows (e.scanTableWithFilter rt t version select.selection)
      (u.scanTableWithFilter rt t version' select.selection))
    (hjoined : ∀ t ∈ select.joined?, SameRows (e.scanTable rt t version) (u.scanTable rt t version')) :
    SameAnswer (e.selectRows rt version select) (u.selectRows rt version' select) := by
  have hfilter : ∀ (columns : List Bytes) (selection : Expr) {rows rows' : List Row},
      rows.Perm rows' → SameAnswer
        (if occursIn (bytes "VECTOR_SEARCH") (rt.display selection) then pure (columns, rows)
          else pure (columns, rows.filter fun row ↦ evaluateWhere rt row selection))
        (if occursIn (bytes "VECTOR_SEARCH") (rt.display selection) then pure (columns, rows')
          else pure (columns, rows'.filter fun row ↦ evaluateWhere rt row selection)) := by
    intro columns selection rows rows' hperm
    split
    · exact ⟨rfl, hperm⟩
    · exact ⟨rfl, hperm.filter _⟩
  rcases hfrom : select.fromTables with - | ⟨⟨relation, joins⟩, rest⟩
  · rw [selectRows, selectRows, hfrom]
    exact rfl
  rcases relation with name | _
  · obtain ⟨rows, rows', h, h', hperm⟩ := hsource name (by rw [Select.source?, hfrom]; rfl)
    simp only [selectRows, hfrom, Except.ok_bind]
    rcases htables.lookup name with ⟨hnone', hnone⟩ | ⟨schema, schema', hs', hs, hcolumns⟩
    · simp only [hnone', hnone]
      exact rfl
    · simp only [hs', hs, hcolumns, h, h', Except.ok_bind]
      rcases joins with - | ⟨⟨relation, operator⟩, more⟩
      · rcases select.selection with - | selection
        · exact ⟨rfl, hperm⟩
        · exact hfilter _ selection hperm
      rcases relation with rightName | _
      · obtain ⟨right, right', hr, hr', hright⟩ := hjoined rightName (by rw [Select.joined?, hfrom]; rfl)
        rcases htables.lookup rightName with ⟨hnone', hnone⟩ | ⟨schema, schema', hs', hs, hcolumns⟩
        · simp only [hnone', hnone]
          exact rfl
        · simp only [hs', hs, hcolumns, hr, hr', Except.ok_bind]
          have hjoin : (joinRows rt operator rows right).Perm (joinRows rt operator rows' right') :=
            joinRows_perm hperm hright
          rcases select.selection with - | selection
          · exact ⟨rfl, hjoin⟩
          · exact hfilter _ selection hjoin
      · exact rfl
  · rw [selectRows, selectRows, hfrom]
    exact rfl

/-! ### A statement that writes one record -/

/-- One record was written to the memory tier, and the counter is where the record is. -/
structure Wrote (e : Engine) (key : Bytes) (r : Record) (u : Engine) : Prop where
  pager : u.btree.pager = e.btree.pager
  tier : ∃ now, u.btree.memoryTier = e.btree.memoryTier.insert now key (.record r)
  tables : SameTables e.schemas u.schemas
  active : u.activeTransactions = e.activeTransactions
  version : u.currentVersion = r.version

theorem Wrote.congr {r : Record} {u' : Engine} (h : Wrote e key r u)
    (hpager : u'.btree.pager = u.btree.pager) (htier : u'.btree.memoryTier = u.btree.memoryTier)
    (htables : SameTables u.schemas u'.schemas)
    (hactive : u'.activeTransactions = u.activeTransactions)
    (hversion : u'.currentVersion = u.currentVersion) : Wrote e key r u' where
  pager := hpager.trans h.pager
  tier := htier ▸ h.tier
  tables t := (htables t).trans (h.tables t)
  active := hactive.trans h.active
  version := hversion.trans h.version

/-- The record that is written is a row, if it replaces one. -/
def RowIfRow (rt : Runtime) (e : Engine) (key : Bytes) (r : Record) : Prop :=
  (∀ data, e.fetch rt key = .ok (some data) → data.isRow = true) → (Data.record r).isRow = true

theorem wp_changeKey_wrote {version : Nat} {notFound : EngineError}
    {change : Record → Except EngineError Record} (hauto : e.activeTransactions.lookup conn = none)
    (hchange : ∀ r r', change r = .ok r' → (Data.record r).isRow = true →
      (Data.record r').isRow = true) :
    Effect.wp (changeKey rt conn version notFound change key)
      (fun _ u ↦ ∃ r, r.version = e.bump.currentVersion ∧ RowIfRow rt e key r ∧ Wrote e key r u)
      (fun _ _ ↦ True) e := by
  refine Effect.wp_bind ?_
  unfold Effect.wp fetchKey
  rcases hfetch : e.fetch rt key with err | data?
  · trivial
  · refine Effect.wp_bind (Effect.wp_ofExcept (fun data hdata ↦ ?_) fun _ _ ↦ trivial)
    obtain rfl : data? = some data := by
      split at hdata
      · cases hdata; rfl
      · cases hdata
    refine Effect.wp_bind (Effect.wp_ofExcept (fun record hrecord ↦ ?_) fun _ _ ↦ trivial)
    refine Effect.wp_bind (Effect.wp_ofExcept (fun record' hrecord' ↦ ?_) fun _ _ ↦ trivial)
    refine Effect.wp_bind (Effect.wp_get ?_)
    rw [hauto]
    have hrow : RowIfRow rt e key { record' with version := e.bump.currentVersion } := by
      intro hfetched
      obtain ⟨r, columns, rfl, -⟩ := exists_row_of_isRow (hfetched data hfetch)
      obtain rfl : r = record := Except.ok.inj hrecord
      obtain ⟨r', columns', heq, hvalue'⟩ :=
        exists_row_of_isRow (hchange _ _ hrecord' (hfetched _ hfetch))
      obtain rfl : record' = r' := Data.record.inj heq
      obtain ⟨value, version', deleted, timestamp⟩ := record'
      obtain rfl : value = .row columns' := hvalue'
      rfl
    have hwrote : Wrote e key { record' with version := e.bump.currentVersion }
        (e.bump.install rt ⟨conn, .change, key,
          .record { record' with version := e.bump.currentVersion }⟩) :=
      ⟨rfl, ⟨_, rfl⟩, fun _ ↦ rfl, rfl, rfl⟩
    exact Effect.wp_bind (Effect.wp_modify (Effect.wp_bind (Effect.wp_get (Effect.wp_bind
      (Effect.wp_modify (wp_enqueue
        (fun _ ↦ ⟨_, rfl, hrow, hwrote.congr rfl rfl (fun _ ↦ rfl) rfl rfl⟩) fun _ ↦ trivial))))))

/-- `UPDATE` and `DELETE`, of one row. -/
theorem wp_changeRows_wrote {verb : String} {notFound : EngineError}
    {change : Record → Except EngineError Record} {t : Bytes} {selection : Option Expr}
    (hauto : e.activeTransactions.lookup conn = none)
    (hchange : ∀ r r', change r = .ok r' → (Data.record r).isRow = true →
      (Data.record r').isRow = true) (hone : e.changedKeys rt conn t selection = [key]) :
    Effect.wp (changeRows rt verb notFound change t selection conn)
      (fun _ u ↦ ∃ r, r.version = e.bump.currentVersion ∧ RowIfRow rt e key r ∧ Wrote e key r u)
      (fun _ _ ↦ True) e := by
  refine Effect.wp_bind (Effect.wp_get (Effect.wp_bind (Effect.wp_ofExcept (fun rows hrows ↦ ?_)
    fun _ _ ↦ trivial)))
  rw [changedKeys, hrows] at hone
  have hkeys : selectedKeys rt selection rows = [key] := hone
  rw [hkeys]
  refine Effect.wp_bind (Effect.wp_bind (Effect.wp_mono (wp_changeKey_wrote hauto hchange)
    (fun _ u h ↦ ?_) fun _ _ _ ↦ trivial))
  exact Effect.wp_pure (Effect.wp_bind (Effect.wp_get (Effect.wp_pure h)))

/-- `INSERT`, of one row. -/
theorem wp_insert_wrote {t : Bytes} {query : Query} {row : List Expr}
    (hauto : e.activeTransactions.lookup conn = none) (hbody : query.body = .values [row]) :
    Effect.wp (handleInsert rt t query conn)
      (fun _ u ↦ ∃ r, r.version = e.currentVersion ∧ (Data.record r).isRow = true ∧
        Wrote e (e.nextKey rt t) r u) (fun _ _ ↦ True) e := by
  refine Effect.wp_bind (Effect.wp_get (Effect.wp_bind (Effect.wp_ofExcept (fun schema hschema ↦ ?_)
    fun _ _ ↦ trivial)))
  have hlookup : e.schemas.lookup t = some schema := by
    split at hschema
    · cases hschema; assumption
    · cases hschema
  rw [hbody]
  let data : Record := ⟨.row (insertedColumns schema schema.nextId row), e.currentVersion, false,
    rt.timestamp e.ticks⟩
  -- what comes after the installation changes the queue and the catalogue only
  have hrest : ∀ acc : Inserting, ∀ u, Wrote e (e.nextKey rt t) data u →
      u.schemas.lookup t = some schema → Effect.wp (do
        Effect.forEach acc.walEntries fun entry ↦ enqueue entry.1 entry.2
        storeNextId rt t schema acc.nextId
        pure { output := countText "Inserted" [row].length, flush := true : Reply })
      (fun _ u ↦ ∃ r, r.version = e.currentVersion ∧ (Data.record r).isRow = true ∧
        Wrote e (e.nextKey rt t) r u) (fun _ _ ↦ True) u := by
    intro acc u hu hschemas
    refine Effect.wp_bind (Effect.wp_forEach (fun _ u ↦ Wrote e (e.nextKey rt t) data u ∧
      u.schemas.lookup t = some schema) ⟨hu, hschemas⟩ (fun _ entry _ _ u h ↦ wp_enqueue
        (fun _ ↦ ⟨h.1.congr rfl rfl (fun _ ↦ rfl) rfl rfl, h.2⟩) fun _ ↦ trivial) fun u h ↦ ?_)
    refine Effect.wp_bind (Effect.wp_mono (Q := fun _ u ↦ Wrote e (e.nextKey rt t) data u) ?_
      (fun _ u h ↦ Effect.wp_pure ⟨data, rfl, rfl, h⟩) fun _ _ h ↦ h)
    rw [storeNextId]
    split
    · have htables : SameTables u.schemas
          (u.schemas.insert t { schema with nextId := acc.nextId }) := by
        intro name
        rw [HashMap.lookup_insert_eq_ite]
        split
        · rename_i heq
          rw [heq, h.2]
          rfl
        · rfl
      refine Effect.wp_bind (Effect.wp_modify (Effect.wp_bind (Effect.wp_bind (Effect.wp_get
        (Effect.wp_bind (Effect.wp_modify (Effect.wp_pure ?_)))))))
      exact wp_enqueue (fun _ ↦ h.1.congr rfl rfl htables rfl rfl) fun _ ↦ trivial
    · exact Effect.wp_pure h.1
  refine Effect.wp_bind (Effect.wp_bind (Effect.wp_mono (Q := fun acc u ↦
    Wrote e (e.nextKey rt t) data u ∧ u.schemas.lookup t = some schema) ?_
    (fun acc u h ↦ Effect.wp_pure (hrest acc u h.1 h.2)) fun _ _ h ↦ h))
  refine Effect.wp_bind (Effect.wp_get (Effect.wp_bind (Effect.wp_modify (Effect.wp_bind
    (Effect.wp_modify ?_)))))
  rw [hauto]
  exact Effect.wp_bind (Effect.wp_modify (Effect.wp_pure
    ⟨⟨rfl, ⟨_, rfl⟩, fun _ ↦ rfl, rfl, rfl⟩, hlookup⟩))

end Engine

/-- The version of what the statement writes outside transactions. -/
def Statement.newVersion (e : Engine) : Statement → Nat
  | .insert .. => e.currentVersion
  | _ => e.bump.currentVersion

theorem Statement.newVersion_lt {e : Engine} (h : e.currentVersion < 2 ^ 64) (stmt : Statement) :
    stmt.newVersion e < 2 ^ 64 := by
  cases stmt
  case insert => exact h
  all_goals exact Nat.mod_lt _ (by decide)

/-- An `INSERT`, `UPDATE` or `DELETE`. -/
def Statement.ChangesRows (stmt : Statement) : Prop :=
  (Command.statement stmt).writeKind = some .insert ∨
    (Command.statement stmt).writeKind = some .change

namespace Engine

variable {rt : Runtime} {e : Engine} {conn : Nat} {key : Bytes}

/-- **A statement that affects one row** writes one record. -/
theorem wrote_of_ok {stmt : Statement} (hstmt : stmt.ChangesRows)
    (hauto : e.activeTransactions.lookup conn = none) (hone : stmt.writes rt e conn = [key])
    {reply : Reply} (hok : (executeStatement rt stmt conn e).1 = .ok reply) :
    ∃ r, r.version = stmt.newVersion e ∧ RowIfRow rt e key r ∧
      Wrote e key r (executeStatement rt stmt conn e).2 := by
  have hwp : Effect.wp (executeStatement rt stmt conn)
      (fun _ u ↦ ∃ r, r.version = stmt.newVersion e ∧ RowIfRow rt e key r ∧ Wrote e key r u)
      (fun _ _ ↦ True) e := by
    cases stmt with
    | insert t source =>
      obtain ⟨query, rfl⟩ : ∃ query, source = some query := by
        rcases source with _ | query
        · cases hone
        · exact ⟨query, rfl⟩
      obtain ⟨row, hbody, hkey⟩ : ∃ row, query.body = .values [row] ∧ e.nextKey rt t = key := by
        obtain ⟨body, limit⟩ := query
        rcases body with select | rows | _
        · cases hone
        · rcases rows with _ | ⟨row, _ | ⟨row', rows⟩⟩
          · cases hone
          · exact ⟨row, rfl, List.head_eq_of_cons_eq hone⟩
          · have hlength := congrArg List.length hone
            rw [Statement.writes, List.length_map, List.length_range] at hlength
            cases hlength
        · cases hone
      subst hkey
      refine Effect.wp_mono (wp_insert_wrote hauto hbody) ?_ fun _ _ h ↦ h
      rintro _ _ ⟨r, hversion, hrow, hwrote⟩
      exact ⟨r, hversion, fun _ ↦ hrow, hwrote⟩
    | update table assignments selection =>
      cases table with
      | table name =>
        refine wp_changeRows_wrote hauto (fun r r' hr _ ↦ ?_) hone
        obtain ⟨columns, -, hr⟩ := Except.exists_of_bind_eq_ok hr
        obtain ⟨columns', -, hr⟩ := Except.exists_of_bind_eq_ok hr
        rw [← Except.ok.inj hr]
        rfl
      | other => cases hone
    | delete fromTables selection =>
      rcases fromTables with - | ⟨_ | _, rest⟩
      · cases hone
      · refine wp_changeRows_wrote hauto (fun r r' hr hrow ↦ ?_) hone
        rw [← Except.ok.inj hr]
        obtain ⟨value, version, deleted, timestamp⟩ := r
        obtain ⟨r', columns, heq, hvalue⟩ := exists_row_of_isRow hrow
        obtain rfl := Data.record.inj heq
        obtain rfl : value = .row columns := hvalue
        rfl
      · cases hone
    | createIndex name t columns => rcases hstmt with h | h <;> cases h
    | _ => cases hone
  exact Effect.of_wp_ok hwp (Prod.ext hok rfl)

/-! ### The shape of the tree -/

/-- The counter is a 64-bit number, and the tree is sound while its page ids are. -/
structure Shaped (e : Engine) : Prop where
  version : e.currentVersion < 2 ^ 64
  sound : e.btree.PagesBelow → BPlusTree.Sound (fun _ _ ↦ True) e.btree

theorem Shaped.congr (h : e.Shaped) {u : Engine} (hversion : u.currentVersion < 2 ^ 64)
    (hpager : u.btree.pager = e.btree.pager) : u.Shaped :=
  ⟨hversion, fun hb ↦ (h.sound (by rwa [BPlusTree.PagesBelow, hpager] at hb)).congr hpager⟩

theorem Shaped.insertTree (h : e.Shaped) (key : Bytes) (data : Data) :
    Shaped { e with btree := (e.btree.insert rt.search key data).2 } := by
  refine ⟨h.version, fun hb ↦ ?_⟩
  have hframe := BPlusTree.insert_frame rt.search e.btree key data
  exact (BPlusTree.insert_sound rt.search (h.sound (hframe.handedOut.trans_lt hb)) trivial hb).1

variable {N : Bytes → Prop} {command : Command} {u : Engine}

theorem Primitive.shaped (h : Primitive rt N command conn e u) (he : e.Shaped) : u.Shaped := by
  cases h with
  | storeSchemas tables timestamp _ => exact he.insertTree _ _
  | bump _ => exact he.congr (Nat.mod_lt _ (by decide)) rfl
  | change key r _ _ _ => exact he.congr (Nat.mod_lt _ (by decide)) rfl
  | _ => exact he.congr he.version rfl

theorem Progress.shaped (h : Progress rt N command conn e u) (he : e.Shaped) : u.Shaped := by
  induction h with
  | refl => exact he
  | tail _ hstep ih => exact hstep.shaped ih

end Engine

namespace TimeMachine

variable {rt : Runtime} [Bincode (WalEntry Bytes Data)] {m m' : TimeMachine}

theorem shaped_step {x : Move} (hinv : m.system.Inv rt fun _ ↦ True)
    (h : m.system.engine.Shaped) (hstep : m.step rt x = some m') : m'.system.engine.Shaped := by
  cases x with
  | act a =>
    obtain ⟨s, hs, rfl⟩ := Option.map_eq_some_iff.1 hstep
    cases System.Step.of_step hs with
    | call conn command _ =>
      rw [System.call_engine]
      exact (progress_execute hinv.engine command.columnsIn_true).shaped h
    | drainApply entry rest _ =>
      cases entry with
      | recordUpdate key data => exact h.insertTree key data
      | _ => exact h
    | _ => exact h.congr h.version rfl
  | undo =>
    obtain rfl := Option.some.inj hstep
    refine h.congr ?_ (by rw [undo_btree])
    rw [undo_currentVersion]
    exact (Nat.sub_le _ _).trans_lt h.version
  | redo =>
    obtain rfl := Option.some.inj hstep
    exact h.congr (Nat.mod_lt _ (by decide)) rfl

/-- In every state of a run with `undo` and `redo` the tree is sound. -/
theorem shaped_of_run : ∀ {moves : List Move} {m m' : TimeMachine},
    m.system.Inv rt (fun _ ↦ True) → m.system.engine.Shaped → m.run rt moves = some m' →
    m'.system.engine.Shaped
  | [], _, _, _, h, hrun => Option.some.inj hrun ▸ h
  | _ :: _, _, _, hinv, h, hrun => by
    obtain ⟨t, ht, hrun⟩ := Option.bind_eq_some_iff.1 hrun
    exact shaped_of_run (inv_step hinv ht) (shaped_step hinv h ht) hrun

omit [Bincode (WalEntry Bytes Data)] in
theorem shaped_start : start.system.engine.Shaped :=
  ⟨by decide, fun _ ↦ BPlusTree.sound_openEmpty _⟩

end TimeMachine

/-! ### When undo restores -/

/-- The version that a connection reads at when the statement was undone. -/
def Statement.rewound (e : Engine) (reader : Nat) (stmt : Statement) : Nat :=
  match e.activeTransactions.lookup reader with
  | some tx => tx.snapshotVersion
  | none => stmt.newVersion e - 1

namespace Engine

variable {rt : Runtime} {e u : Engine} {key : Bytes}

/-- What a scan shows under a key when the memory tier holds neither the record under `key` nor those
that the next insertion evicts. -/
def viewWithout (rt : Runtime) (e : Engine) (key t : Bytes) (version : Nat) (k : Bytes) : Option Row :=
  ((if k = key then none else e.btree.memoryTier.relieved.get k).bind
    (rt.shownUnder t version k)).or (firstHit (rt.shownUnder t version) e.btree.leafEntries k)

/-- Undoing the statement, which writes the key, restores what a connection reads of the table: it reads
rows, at a version that the new record is above, and without the record that is replaced and those that
are evicted there is shown at that version what is shown now. -/
structure Undoable (rt : Runtime) (e : Engine) (stmt : Statement) (key : Bytes) (reader : Nat)
    (t : Bytes) : Prop where
  rows : e.RowsOnly rt t
  replaced : (tablePrefix t).isPrefixOf key = true →
    ∀ data, e.fetch rt key = .ok (some data) → data.isRow = true
  hidden : (tablePrefix t).isPrefixOf key = true → stmt.rewound e reader < stmt.newVersion e
  shown : ∀ k, e.viewWithout rt key t (stmt.rewound e reader) k =
    e.view rt t (e.readVersion reader) k

/-- Undoing the statement restores what a `SELECT` reads, which no index answers. -/
structure Reversible (rt : Runtime) (e : Engine) (stmt : Statement) (key : Bytes) (reader : Nat)
    (select : Select) : Prop where
  positive : 0 < stmt.newVersion e
  source : ∀ t ∈ select.source?, e.Undoable rt stmt key reader t
  joined : ∀ t ∈ select.joined?, e.Undoable rt stmt key reader t
  unindexed : ∀ t ∈ select.source?, ∀ lookup ∈ indexLookup rt select.selection,
    indexKey t lookup.1 lookup.2 ≠ key ∧ e.fetch rt (indexKey t lookup.1 lookup.2) = .ok none

/-- Scans of rows return the same where they show the same. -/
theorem sameRows_of_view {R R' : Bytes → Data → Prop} {t : Bytes} {version version' : Nat}
    (he : BPlusTree.Sound R e.btree) (hu : BPlusTree.Sound R' u.btree) (hrows : e.RowsOnly rt t)
    (hrows' : u.RowsOnly rt t)
    (hview : ∀ k, e.view rt t version k = u.view rt t version' k) :
    SameRows (e.scanTable rt t version) (u.scanTable rt t version') :=
  ⟨_, _, scanTable_ok he fun x hx hkey ↦ readable_of_isRow (hrows x hx hkey),
    scanTable_ok hu fun x hx hkey ↦ readable_of_isRow (hrows' x hx hkey),
    (scanned_perm hview).map _⟩

/-- A `SELECT` whose lookup finds no index entry scans the table. -/
theorem scanTableWithFilter_of_unindexed {t : Bytes} {version : Nat} {filter : Option Expr}
    (h : ∀ lookup ∈ indexLookup rt filter, e.fetch rt (indexKey t lookup.1 lookup.2) = .ok none) :
    e.scanTableWithFilter rt t version filter = e.scanTable rt t version := by
  rw [scanTableWithFilter]
  rcases hlookup : indexLookup rt filter with - | ⟨column, value⟩
  · rfl
  · have hfetch : e.fetch rt (indexKey t column value) = .ok none := h (column, value) hlookup
    have hprobe : e.probeIndex rt t version column value = .ok none := by
      rw [probeIndex, hfetch]
      rfl
    show (e.probeIndex rt t version column value >>= fun row? ↦ _) = _
    rw [hprobe]
    rfl

variable {r : Record} {t : Bytes}

/-- What the memory tier holds behind the write. -/
theorem Wrote.get (h : Wrote e key r u) (k : Bytes) : u.btree.memoryTier.get k =
    if k = key then some (.record r) else e.btree.memoryTier.relieved.get k := by
  obtain ⟨now, htier⟩ := h.tier
  rw [htier, MemoryTier.get_insert_eq_ite]

/-- What is shown at a version that the new record is above. -/
theorem Wrote.view_eq (h : Wrote e key r u) {version : Nat}
    (hhidden : (tablePrefix t).isPrefixOf key = true → version < r.version) (k : Bytes) :
    u.view rt t version k = e.viewWithout rt key t version k := by
  rw [Engine.view_eq, h.get, viewWithout, BPlusTree.leafEntries_congr h.pager]
  congr 1
  split
  · rename_i hk
    rw [hk]
    show rt.shownUnder t version key (.record r) = none
    rw [Runtime.shownUnder]
    split
    · rename_i hkey
      have hnewer : ¬ r.version ≤ version := Nat.not_le_of_lt (hhidden hkey)
      exact if_neg fun hle ↦ hnewer hle.1
    · rfl
  · rfl

/-- A table of rows stays one. -/
theorem Wrote.rowsOnly (h : Wrote e key r u) (hrows : e.RowsOnly rt t)
    (hrow : (tablePrefix t).isPrefixOf key = true → (Data.record r).isRow = true) :
    u.RowsOnly rt t := by
  rintro ⟨k, data⟩ hx hkey
  rcases List.mem_append.1 hx with hx | hx
  · rw [mem_iterate_iff] at hx
    have hget : u.btree.memoryTier.get k = some data := hx
    rw [h.get] at hget
    split at hget
    · rename_i hk
      rw [← Option.some.inj hget]
      exact hrow (hk ▸ hkey)
    · exact hrows (k, data) (List.mem_append_left _
        (mem_iterate_iff.2 (MemoryTier.get_of_get_relieved hget))) hkey
  · rw [BPlusTree.leafEntries_congr h.pager] at hx
    exact hrows (k, data) (List.mem_append_right _ hx) hkey

/-- What was not found is not found afterwards. -/
theorem Wrote.fetch_none (h : Wrote e key r u) {k : Bytes} (hk : k ≠ key)
    (hfetch : e.fetch rt k = .ok none) : u.fetch rt k = .ok none := by
  have htier : e.btree.memoryTier.get k = none := by
    rcases hget : e.btree.memoryTier.get k with - | data
    · rfl
    · rw [Engine.fetch, BPlusTree.get, hget] at hfetch
      cases hfetch
  have hget : u.btree.memoryTier.get k = none := by
    rw [h.get, if_neg hk]
    rcases hrelieved : e.btree.memoryTier.relieved.get k with - | data
    · rfl
    · rw [MemoryTier.get_of_get_relieved hrelieved] at htier
      cases htier
  rw [Engine.fetch, BPlusTree.get, htier] at hfetch
  rw [Engine.fetch, BPlusTree.get, hget, BPlusTree.getPages_congr rt.search h.pager]
  exact hfetch

theorem Wrote.readVersion_undo (h : Wrote e key r u) {stmt : Statement}
    (hversion : r.version = stmt.newVersion e) (reader : Nat) :
    u.undo.readVersion reader = stmt.rewound e reader := by
  have hactive : u.undo.activeTransactions = e.activeTransactions :=
    (undo_activeTransactions u).trans h.active
  have hcounter : u.undo.currentVersion = stmt.newVersion e - 1 := by
    rw [undo_currentVersion, h.version, hversion]
  rcases hlookup : e.activeTransactions.lookup reader with - | tx
  · simp only [readVersion, Statement.rewound, hactive, hlookup, hcounter]
  · simp only [readVersion, Statement.rewound, hactive, hlookup]

/-- What a scan returns after `undo`. -/
theorem Wrote.sameRows_undo (h : Wrote e key r u) {R : Bytes → Data → Prop}
    (he : BPlusTree.Sound R e.btree) {stmt : Statement} (hversion : r.version = stmt.newVersion e)
    (hrow : RowIfRow rt e key r) {reader : Nat} (ht : e.Undoable rt stmt key reader t) :
    SameRows (e.scanTable rt t (e.readVersion reader))
      (u.undo.scanTable rt t (u.undo.readVersion reader)) := by
  have hbtree := undo_btree u
  have hu : BPlusTree.Sound R u.undo.btree := he.congr (hbtree ▸ h.pager)
  have hrows : u.undo.RowsOnly rt t := by
    have hrows := h.rowsOnly ht.rows fun hkey ↦ hrow (ht.replaced hkey)
    rwa [RowsOnly, entries, ← hbtree] at hrows
  refine sameRows_of_view he hu ht.rows hrows fun k ↦ ?_
  rw [h.readVersion_undo hversion, ← ht.shown, ← h.view_eq (hversion ▸ ht.hidden)]
  rw [view, view, entries, entries, hbtree]

theorem viewWithout_eq (hroom : e.btree.memoryTier.HasRoom 1) {version : Nat} {k : Bytes}
    (hk : k ≠ key) : e.viewWithout rt key t version k = e.view rt t version k := by
  have hrelieved : e.btree.memoryTier.relieved = e.btree.memoryTier := by
    rw [MemoryTier.relieved, MemoryTier.overLimit_of_hasRoom hroom rfl le_rfl]
    rfl
  rw [viewWithout, Engine.view_eq, hrelieved, if_neg hk]

/-- An `UPDATE` or a `DELETE` can be undone if the leaves hold what is shown of the changed row. -/
theorem undoable_of_chain {stmt : Statement} {reader : Nat}
    (hchange : stmt.newVersion e = e.bump.currentVersion) (hbound : e.currentVersion + 1 < 2 ^ 64)
    (hreader : e.activeTransactions.lookup reader = none)
    (hroom : e.btree.memoryTier.HasRoom 1) (hrows : e.RowsOnly rt t)
    (hreplaced : ∀ data, e.fetch rt key = .ok (some data) → data.isRow = true)
    (hchain : firstHit (rt.shownUnder t e.currentVersion) e.btree.leafEntries key =
      e.view rt t e.currentVersion key) : e.Undoable rt stmt key reader t := by
  have hnew : stmt.newVersion e = e.currentVersion + 1 := hchange.trans (Nat.mod_eq_of_lt hbound)
  have hrewound : stmt.rewound e reader = e.currentVersion := by
    rw [Statement.rewound, hreader, hnew]
    rfl
  have hread : e.readVersion reader = e.currentVersion := by
    rw [readVersion, hreader]
  refine ⟨hrows, fun _ ↦ hreplaced, fun _ ↦ ?_, fun k ↦ ?_⟩
  · rw [hrewound, hnew]
    exact Nat.lt_succ_self _
  · rw [hrewound, hread]
    by_cases hk : k = key
    · rw [hk, viewWithout, if_pos rfl, ← hchain]
      rfl
    · exact viewWithout_eq hroom hk

/-- An `INSERT` can be undone if no row that is shown is as new as the counter. -/
theorem undoable_of_older {t' : Bytes} {source : Option Query} {reader : Nat}
    (hpositive : 0 < e.currentVersion) (hreader : e.activeTransactions.lookup reader = none)
    (hroom : e.btree.memoryTier.HasRoom 1) (hrows : e.RowsOnly rt t)
    (hreplaced : ∀ data, e.fetch rt key = .ok (some data) → data.isRow = true)
    (hfresh : e.view rt t e.currentVersion key = none)
    (holder : ∀ k, e.view rt t (e.currentVersion - 1) k = e.view rt t e.currentVersion k) :
    e.Undoable rt (.insert t' source) key reader t := by
  have hrewound : (Statement.insert t' source).rewound e reader = e.currentVersion - 1 := by
    rw [Statement.rewound, hreader]
    rfl
  have hread : e.readVersion reader = e.currentVersion := by
    rw [readVersion, hreader]
  refine ⟨hrows, fun _ ↦ hreplaced, fun _ ↦ ?_, fun k ↦ ?_⟩
  · rw [hrewound]
    exact Nat.sub_lt hpositive Nat.one_pos
  · rw [hrewound, hread, ← holder]
    by_cases hk : k = key
    · have hnone := (holder key).trans hfresh
      rw [Engine.view_eq, Option.or_eq_none_iff] at hnone
      rw [hk, viewWithout, if_pos rfl, Engine.view_eq, hnone.1, hnone.2]
      rfl
    · exact viewWithout_eq hroom hk

end Engine

namespace TimeMachine

/-- **Undo restores** what a statement on one row has changed, if the version that the reader goes back
to is below that of the new record, and what is read there without the record that was replaced is what
was read before; a `redo` then takes it back. -/
theorem undo_restores {rt : Runtime} [Bincode (WalEntry Bytes Data)] {moves : List Move}
    {m : TimeMachine} (hrun : start.run rt moves = some m)
    (hpages : m.system.engine.btree.PagesBelow) {stmt : Statement} (hstmt : stmt.ChangesRows)
    {conn : Nat} (hauto : m.system.engine.activeTransactions.lookup conn = none) {key : Bytes}
    (hone : stmt.writes rt m.system.engine conn = [key]) {e u : Engine} (he : e = m.system.engine)
    (hu : u = (executeStatement rt stmt conn e).2) {reply : Reply}
    (hok : (executeStatement rt stmt conn e).1 = .ok reply) {reader : Nat} {select : Select}
    (hreversible : e.Reversible rt stmt key reader select) :
    SameAnswer (e.selectRows rt (e.readVersion reader) select)
        (u.undo.selectRows rt (u.undo.readVersion reader) select) ∧
      SameAnswer (u.selectRows rt (u.readVersion reader) select)
        (u.undo.redo.selectRows rt (u.undo.redo.readVersion reader) select) := by
  subst he
  have hshaped := shaped_of_run System.inv_start shaped_start hrun
  obtain ⟨r, hversion, hrow, hwrote⟩ := wrote_of_ok hstmt hauto hone hok
  rw [← hu] at hwrote
  have hsound := hshaped.sound hpages
  constructor
  · refine selectRows_same (fun t ↦ undo_schemas u ▸ hwrote.tables t) (fun t ht ↦ ?_) fun t ht ↦
      hwrote.sameRows_undo hsound hversion hrow (hreversible.joined t ht)
    have hunindexed := hreversible.unindexed t ht
    rw [scanTableWithFilter_of_unindexed fun lookup hlookup ↦ (hunindexed lookup hlookup).2,
      scanTableWithFilter_of_unindexed (e := u.undo) fun lookup hlookup ↦ ?_]
    · exact hwrote.sameRows_undo hsound hversion hrow (hreversible.source t ht)
    · rw [Engine.fetch, undo_btree]
      exact hwrote.fetch_none (hunindexed lookup hlookup).1 (hunindexed lookup hlookup).2
  · rw [redo_undo_answer]
    · exact SameAnswer.refl _
    · rw [hwrote.version, hversion]
      exact hreversible.positive
    · rw [hwrote.version, hversion]
      exact stmt.newVersion_lt hshaped.version

/-! ### Undone, and not -/

/-- `UPDATE` of the one row. -/
def updateOnly : Statement :=
  .update (.table (bytes "u")) [⟨[bytes "id"], .value (.singleQuotedString (bytes "3"))⟩] none

/-- `INSERT` of a row. -/
def insertFirst : Statement :=
  .insert (bytes "u") (some ⟨.values [[.value (.singleQuotedString (bytes "a"))]], none⟩)

/-- `SELECT * FROM u` -/
def selectOnly : Select := ⟨[.other], [⟨.table (bytes "u"), []⟩], none⟩

/-- The `UPDATE` of a row that has been drained is undone. -/
theorem undo_restores_drained : let _ := plainBincode []
    ∃ m e u, start.run .plain (insertDrained.map .act) = some m ∧ m.system.engine = e ∧
      (executeStatement .plain updateOnly 1 e).2 = u ∧
      SameAnswer (e.selectRows .plain (e.readVersion 2) selectOnly)
          (u.undo.selectRows .plain (u.undo.readVersion 2) selectOnly) ∧
        SameAnswer (u.selectRows .plain (u.readVersion 2) selectOnly)
          (u.undo.redo.selectRows .plain (u.undo.redo.readVersion 2) selectOnly) := by
  let _ := plainBincode []
  obtain ⟨m, hm⟩ : ∃ m, start.run .plain (insertDrained.map .act) = some m :=
    Option.isSome_iff_exists.1 (by decide +kernel)
  have hall : (start.run .plain (insertDrained.map .act)).all (fun m ↦
      decide (m.system.engine.btree.pager.handedOut.length < 2 ^ 32 ∧
        (m.system.engine.activeTransactions.lookup 1).isNone = true ∧
        (m.system.engine.activeTransactions.lookup 2).isNone = true ∧
        m.system.engine.RowsOnly .plain (bytes "u") ∧
        m.system.engine.currentVersion = 0 ∧ m.system.engine.btree.memoryTier.HasRoom 1 ∧
        (executeStatement .plain updateOnly 1 m.system.engine).1.isOk = true ∧
        (updateOnly.writes .plain m.system.engine 1).length = 1 ∧
        ∀ key ∈ updateOnly.writes .plain m.system.engine 1,
          ((m.system.engine.fetch .plain key).toOption.all fun data? ↦ data?.all Data.isRow) = true ∧
          firstHit (Runtime.plain.shownUnder (bytes "u") 0) m.system.engine.btree.leafEntries key =
            m.system.engine.view .plain (bytes "u") 0 key)) = true := by decide +kernel
  rw [hm, Option.all_some, decide_eq_true_iff] at hall
  obtain ⟨hpages, hauto, hreader, hrows, hversion, hroom, hok, hlength, hkeys⟩ := hall
  obtain ⟨key, hone⟩ := List.length_eq_one_iff.1 hlength
  obtain ⟨hreplaced, hchain⟩ := hkeys key (hone ▸ List.mem_singleton_self key)
  obtain ⟨reply, hreply⟩ : ∃ reply, (executeStatement .plain updateOnly 1 m.system.engine).1 =
      .ok reply := by
    rcases h : (executeStatement .plain updateOnly 1 m.system.engine).1 with err | reply
    · rw [h] at hok
      cases hok
    · exact ⟨reply, rfl⟩
  have hundoable : m.system.engine.Undoable .plain updateOnly key 2 (bytes "u") := by
    refine undoable_of_chain rfl ?_ (Option.isNone_iff_eq_none.1 hreader) hroom hrows
      (fun data hdata ↦ ?_) ?_
    · rw [hversion]
      decide
    · rw [hdata] at hreplaced
      exact hreplaced
    · rw [hversion]
      exact hchain
  have hchanges : updateOnly.ChangesRows := .inr rfl
  refine ⟨m, _, _, hm, rfl, rfl, undo_restores hm hpages hchanges (Option.isNone_iff_eq_none.1 hauto)
    hone rfl rfl hreply ⟨Nat.zero_lt_of_ne_zero ?_, fun t ht ↦ ?_, fun t ht ↦ ?_,
      fun t _ lookup h ↦ ?_⟩⟩
  · exact fun h ↦ absurd (hversion ▸ h : (0 + 1) % 2 ^ 64 = 0) (by decide)
  · obtain rfl := Option.some.inj ht
    exact hundoable
  · cases ht
  · cases h

/-- **The first row of all is not undone**: the counter is at zero, and `undo` does nothing. -/
theorem not_undo_restores : ¬ ∀ (_ : Bincode (WalEntry Bytes Data)) (rt : Runtime)
    (moves : List Move) (m : TimeMachine), start.run rt moves = some m →
      m.system.engine.btree.PagesBelow → m.system.phase = .idle → ∀ conn,
        m.system.engine.activeTransactions.lookup conn = none → ∀ stmt : Statement,
          stmt.ChangesRows → (stmt.writes rt m.system.engine conn).length = 1 → ∀ e u,
            m.system.engine = e → (executeStatement rt stmt conn e).2 = u →
              (executeStatement rt stmt conn e).1.isOk = true → ∀ reader select,
                SameAnswer (e.selectRows rt (e.readVersion reader) select)
                    (u.undo.selectRows rt (u.undo.readVersion reader) select) ∧
                  SameAnswer (u.selectRows rt (u.readVersion reader) select)
                    (u.undo.redo.selectRows rt (u.undo.redo.readVersion reader) select) := by
  intro h
  let _ := plainBincode []
  obtain ⟨m, hm⟩ : ∃ m, start.run .plain [.act (.call 1 (createTableOf "u" ["id"]))] = some m :=
    Option.isSome_iff_exists.1 (by decide +kernel)
  have hall : (start.run .plain [.act (.call 1 (createTableOf "u" ["id"]))]).all (fun m ↦
      decide (m.system.engine.btree.pager.handedOut.length < 2 ^ 32 ∧ m.system.phase = .idle ∧
        (m.system.engine.activeTransactions.lookup 1).isNone = true ∧
        (insertFirst.writes .plain m.system.engine 1).length = 1 ∧
        (executeStatement .plain insertFirst 1 m.system.engine).1.isOk = true ∧
        ((m.system.engine.selectRows .plain (m.system.engine.readVersion 2) selectOnly).toOption.map
          fun answer ↦ answer.2.length) = some 0 ∧
        ((executeStatement .plain insertFirst 1 m.system.engine).2.undo.selectRows .plain
          ((executeStatement .plain insertFirst 1 m.system.engine).2.undo.readVersion 2)
            selectOnly).toOption.map (fun answer ↦ answer.2.length) = some 1)) = true := by
    decide +kernel
  rw [hm, Option.all_some, decide_eq_true_iff] at hall
  obtain ⟨hpages, hphase, hauto, hlength, hok, hbefore, hafter⟩ := hall
  have hsame := (h _ .plain _ m hm hpages hphase 1 (Option.isNone_iff_eq_none.1 hauto) insertFirst
    (.inl rfl) hlength _ _ rfl rfl hok 2 selectOnly).1
  have hcount := hbefore.symm.trans (hsame.length_eq.trans hafter)
  cases hcount

end TimeMachine

end KsSql
