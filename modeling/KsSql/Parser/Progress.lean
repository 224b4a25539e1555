import KsSql.Parser.Reading
import KsSql.Storage.MapRefinement
import Mathlib.Logic.Relation

/-!
# What a statement can do

`Primitive` lists the changes that statements make to the engine's state, one constructor for each,
with what is known when the change is made; `Progress` is any number of them one after another. That
the statements do nothing else is proved in `Handlers`, once, and every invariant of the engine is
then checked against these constructors.

`Coherent` is the invariant that the guards themselves need. It says where the stored bytes come from:
every binding of the tree was enqueued (`Stored`), everything enqueued was installed in the memory
tier before, or is an index entry, or is the catalogue (`Known`), and what the memory tier holds is
what was installed last. Column names are confined to a set `N`, so that a run whose statements avoid
some name has no row with it.

All of it holds as long as the 32-bit page ids and the 64-bit version counter have not wrapped around
(`Bounded`).
-/

namespace KsSql

/-- A key under which an index entry is stored. -/
def IsIndexKey (key : Bytes) : Prop := ∃ t c v, key = indexKey t c v

/-- A record's value is a row with columns in `N`, except under special keys. -/
def PayloadOk (N : Bytes → Prop) (key : Bytes) (value : Payload) : Prop :=
  IsIndexKey key ∨ key = schemasKey ∨ ∃ columns, value = .row columns ∧ ∀ c ∈ columns.keys, N c

/-- What may be stored under a key while the version counter is at `version`: a record that is not
newer and holds a row, or anything under special keys. -/
def Legit (N : Bytes → Prop) (version : Nat) (key : Bytes) (data : Data) : Prop :=
  (∀ r, data = .record r → r.version ≤ version) ∧
    (IsIndexKey key ∨ key = schemasKey ∨ ∃ r, data = .record r ∧ PayloadOk N key r.value)

/-- The kind of write that a command makes to the memory tier outside transactions. -/
def Command.writeKind : Command → Option WriteKind
  | .commit => some .commit
  | .statement (.insert ..) => some .insert
  | .statement (.update ..) => some .change
  | .statement (.delete ..) => some .change
  | .statement (.createIndex ..) => some .index
  | _ => none

/-- Two catalogues differ in the next generated numbers only. -/
def SameTables (schemas schemas' : HashMap Bytes TableSchema) : Prop :=
  ∀ t, (schemas'.lookup t).map (fun s ↦ { s with nextId := 0 }) =
    (schemas.lookup t).map fun s ↦ { s with nextId := 0 }

/-- Such catalogues have the same tables, with the same columns. -/
theorem SameTables.lookup {schemas schemas' : HashMap Bytes TableSchema}
    (h : SameTables schemas schemas') (t : Bytes) :
    (schemas'.lookup t = none ∧ schemas.lookup t = none) ∨ ∃ schema schema',
      schemas'.lookup t = some schema' ∧ schemas.lookup t = some schema ∧
        schema'.columns = schema.columns := by
  have ht := h t
  rcases hs : schemas.lookup t with - | schema <;>
    rcases hs' : schemas'.lookup t with - | schema' <;> rw [hs, hs'] at ht
  · exact Or.inl ⟨rfl, rfl⟩
  · cases ht
  · cases ht
  · exact Or.inr ⟨schema, schema', rfl, rfl, (TableSchema.mk.inj (Option.some.inj ht)).2.1⟩

theorem Legit.mono {N : Bytes → Prop} {v v' : Nat} {key : Bytes} {data : Data}
    (h : Legit N v key data) (hv : v ≤ v') : Legit N v' key data :=
  ⟨fun r hr ↦ (h.1 r hr).trans hv, h.2⟩

theorem legit_record {N : Bytes → Prop} {v : Nat} {key : Bytes} {r : Record} (hv : r.version ≤ v)
    (hr : PayloadOk N key r.value) : Legit N v key (.record r) :=
  ⟨fun _ h ↦ Data.record.inj h ▸ hv, Or.inr (Or.inr ⟨r, rfl, hr⟩)⟩

namespace Engine

/-- The page ids and the version counter have not wrapped around. -/
structure Bounded (e : Engine) : Prop where
  pages : e.btree.PagesBelow
  bumps : e.history.bumps < 2 ^ 64

/-- The data under a key come from a write to the memory tier, or are an index entry or the
catalogue. -/
def Known (N : Bytes → Prop) (e : Engine) (key : Bytes) (data : Data) : Prop :=
  (∃ w ∈ e.history.installs, w.key = key ∧ w.data = data) ∨
    (Legit N e.currentVersion key data ∧ (key = schemasKey ∨ ∃ target, data = .raw target ∧ target ≠ schemasKey))

/-- The data under a key come from a write to the memory tier, or they are no record of a row. -/
def Origin (e : Engine) (key : Bytes) (data : Data) : Prop :=
  (∃ w ∈ e.history.installs, w.key = key ∧ w.data = data) ∨ key = schemasKey ∨
    ∃ target, data = .raw target

/-- What the tree stores was enqueued, or is the catalogue. -/
def Stored (N : Bytes → Prop) (e : Engine) (key : Bytes) (data : Data) : Prop :=
  .recordUpdate key data ∈ e.btree.wal.enqueued ∨
    (key = schemasKey ∧ Legit N e.currentVersion key data)

/-- The data that was installed last under a key. -/
def lastInstalled (e : Engine) (key : Bytes) : Option Data :=
  lastInserted (e.history.installs.map fun w ↦ (w.key, w.data)) key

/-- A key under which a record is stored. -/
def HasRecord (rt : Runtime) (N : Bytes → Prop) (e : Engine) (key : Bytes) : Prop :=
  ∃ data record, e.Known N key data ∧ rt.decodeRecord data = .ok record

/-- A row that a scan of a table may show. -/
def SeenRow (rt : Runtime) (N : Bytes → Prop) (e : Engine) (tableName : Bytes) (version : Nat)
    (row : Row) : Prop :=
  (∃ key data columns, e.Known N key data ∧
    rt.shownUnder tableName version key data = some columns ∧
      row = scannedRow rt tableName key columns) ∨
  ∃ column value target data columns, e.Known N (indexKey tableName column value) target ∧
    e.Known N (rt.finalKey target) data ∧ rt.shown version data = some columns ∧
      row = scannedRow rt tableName (rt.dataBytes target) columns

/-- A key under which a scan may show a row. -/
def SeenKey (rt : Runtime) (N : Bytes → Prop) (e : Engine) (version : Nat) (key : Bytes) : Prop :=
  ∃ tableName row, e.SeenRow rt N tableName version row ∧ row.lookup keyColumn = some key

/-- Everything stored has its origin. -/
structure Coherent (rt : Runtime) (N : Bytes → Prop) (e : Engine) : Prop where
  version_eq : e.currentVersion = e.history.bumps
  sound : BPlusTree.Sound (e.Stored N) e.btree
  known : ∀ key data, .recordUpdate key data ∈ e.btree.wal.enqueued → e.Known N key data
  queued : ∀ x ∈ e.btree.wal.queue, x ∈ e.btree.wal.enqueued
  legit : ∀ w ∈ e.history.installs, Legit N e.currentVersion w.key w.data
  tier : ∀ key data, e.btree.memoryTier.get key = some data → e.lastInstalled key = some data
  full : e.history.evictions = 0 → ∀ key, e.btree.memoryTier.get key = e.lastInstalled key
  columns : ∀ t schema, e.schemas.lookup t = some schema →
    (∀ c ∈ schema.columns, N c) ∧ ∀ c, schema.autoIncrementCol = some c → N c
  snapshot : ∀ conn tx, e.activeTransactions.lookup conn = some tx →
    tx.snapshotVersion ≤ e.currentVersion
  buffered : ∀ conn tx, e.activeTransactions.lookup conn = some tx →
    ∀ key data, tx.updates.lookup key = some data →
      (∃ r, data = .record r ∧ PayloadOk N key r.value) ∧
        (e.HasRecord rt N key ∨ (conn, key) ∈ e.history.drawn)

/-- `Coherent`, while nothing has wrapped around. -/
def Inv (rt : Runtime) (N : Bytes → Prop) (e : Engine) : Prop := e.Bounded → e.Coherent rt N

/-- Append a record update to the queue. -/
def pushed (key : Bytes) (data : Data) (e : Engine) : Engine :=
  { e with btree := { e.btree with wal := { e.btree.wal with
    queue := e.btree.wal.queue ++ [.recordUpdate key data]
    enqueued := e.btree.wal.enqueued ++ [.recordUpdate key data] } } }

/-- Note that the queue refused an entry. -/
def refused (e : Engine) : Engine :=
  { e with history := { e.history with refusals := e.history.refusals + 1 } }

/-- Open a transaction. -/
def opened (conn : Nat) (e : Engine) : Engine :=
  { e with activeTransactions :=
    e.activeTransactions.insert conn ⟨e.currentVersion, ∅, e.history.installs.length⟩ }

/-- Close a transaction. -/
def closed (conn : Nat) (e : Engine) : Engine :=
  { e with activeTransactions := e.activeTransactions.erase conn }

/-- One change of the engine's state by a command of a connection. -/
inductive Primitive (rt : Runtime) (N : Bytes → Prop) (command : Command) (conn : Nat)
    (e : Engine) : Engine → Prop
  /-- A clock reading. -/
  | tick : Primitive rt N command conn e e.tick
  /-- A row inserted outside transactions. -/
  | insertRow (t : Bytes) (source : Option Query) (columns : Row) (timestamp : Int) :
      command = .statement (.insert t source) →
      e.activeTransactions.lookup conn = none →
      (e.Bounded → ∀ c ∈ columns.keys, N c) →
      Primitive rt N command conn e ((e.draw conn (e.nextKey rt t)).install rt
        ⟨conn, .insert, e.nextKey rt t, .record ⟨.row columns, e.currentVersion, false, timestamp⟩⟩)
  /-- A row inserted in a transaction. -/
  | bufferRow (t : Bytes) (source : Option Query) (columns : Row) (timestamp : Int)
      (tx : Transaction) :
      command = .statement (.insert t source) →
      e.activeTransactions.lookup conn = some tx →
      (e.Bounded → ∀ c ∈ columns.keys, N c) →
      Primitive rt N command conn e ((e.draw conn (e.nextKey rt t)).buffer conn tx
        (e.nextKey rt t) (.record ⟨.row columns, e.currentVersion, false, timestamp⟩))
  /-- A row updated or deleted outside transactions. -/
  | change (key : Bytes) (r : Record) :
      command.writeKind = some .change →
      e.activeTransactions.lookup conn = none →
      (e.Bounded → e.HasRecord rt N key ∧ PayloadOk N key r.value) →
      Primitive rt N command conn e (e.bump.install rt
        ⟨conn, .change, key, .record { r with version := e.bump.currentVersion }⟩)
  /-- A row updated or deleted in a transaction. -/
  | bufferChange (key : Bytes) (r : Record) (tx : Transaction) :
      e.activeTransactions.lookup conn = some tx →
      (e.Bounded → e.HasRecord rt N key ∧ PayloadOk N key r.value ∧
        e.SeenKey rt N tx.snapshotVersion key) →
      Primitive rt N command conn e (e.buffer conn tx key (.record r))
  /-- The increment of the version by a commit. -/
  | bump : command = .commit → Primitive rt N command conn e e.bump
  /-- A write of a transaction that commits. -/
  | commitKey (key : Bytes) (r : Record) :
      command = .commit →
      e.activeTransactions.lookup conn = none →
      (e.Bounded → (e.HasRecord rt N key ∨ (conn, key) ∈ e.history.drawn) ∧
        PayloadOk N key r.value ∧
        ∀ conn tx, e.activeTransactions.lookup conn = some tx →
          tx.snapshotVersion < e.currentVersion) →
      Primitive rt N command conn e (e.install rt
        ⟨conn, .commit, key, .record { r with version := e.currentVersion }⟩)
  /-- An index entry of a new index. -/
  | index (key target : Bytes) :
      command.writeKind = some .index →
      IsIndexKey key →
      (e.Bounded → ∃ version, e.SeenKey rt N version target) →
      Primitive rt N command conn e (e.install rt ⟨conn, .index, key, .raw target⟩)
  /-- An entry accepted by the queue. -/
  | push (key : Bytes) (data : Data) :
      key = schemasKey ∨ e.activeTransactions.lookup conn = none ∨
        command.writeKind = some .index →
      (e.Bounded → e.Known N key data) → e.Origin key data →
      Primitive rt N command conn e (e.pushed key data)
  /-- An entry refused by the queue. -/
  | refuse : Primitive rt N command conn e e.refused
  /-- A change of the tables' schemas. -/
  | schemas (schemas : HashMap Bytes TableSchema) :
      (SameTables e.schemas schemas ∨
        ∃ name columns, command = .statement (.createTable name columns)) →
      (e.Bounded → ∀ t schema, schemas.lookup t = some schema →
        (∀ c ∈ schema.columns, N c) ∧ ∀ c, schema.autoIncrementCol = some c → N c) →
      Primitive rt N command conn e { e with schemas := schemas }
  /-- A change of the indexes. -/
  | indices (indices : HashMap Bytes IndexSchema) :
      (∃ name t columns, command = .statement (.createIndex name t columns)) →
      Primitive rt N command conn e { e with indices := indices }
  /-- The catalogue written to the tree. -/
  | storeSchemas (tables : HashMap Bytes TableSchema) (timestamp : Int) :
      (∃ name columns, command = .statement (.createTable name columns)) →
      Primitive rt N command conn e { e with btree := (e.btree.insert rt.search schemasKey
        (.record ⟨.schemas tables, e.currentVersion, false, timestamp⟩)).2 }
  /-- A transaction opened. -/
  | opened : command = .begin → Primitive rt N command conn e (e.opened conn)
  /-- A transaction closed. -/
  | closed : command = .commit ∨ command = .rollback →
      Primitive rt N command conn e (e.closed conn)

/-- Any number of changes. -/
abbrev Progress (rt : Runtime) (N : Bytes → Prop) (command : Command) (conn : Nat) :
    Engine → Engine → Prop :=
  Relation.ReflTransGen (Primitive rt N command conn)

variable {rt : Runtime} {N : Bytes → Prop} {command : Command} {conn : Nat} {e e' : Engine}

/-! ### What grows -/

/-- What was installed, enqueued and drawn stays so, and the counters only go up. -/
structure Grows (e e' : Engine) : Prop where
  installs : e.history.installs <+: e'.history.installs
  enqueued : e.btree.wal.enqueued <+: e'.btree.wal.enqueued
  drawn : e.history.drawn <+: e'.history.drawn
  handedOut : e.btree.pager.handedOut.length ≤ e'.btree.pager.handedOut.length
  bumps : e.history.bumps ≤ e'.history.bumps
  refusals : e.history.refusals ≤ e'.history.refusals
  evictions : e.history.evictions ≤ e'.history.evictions

theorem Grows.refl (e : Engine) : Grows e e :=
  ⟨List.prefix_rfl, List.prefix_rfl, List.prefix_rfl, le_rfl, le_rfl, le_rfl, le_rfl⟩

theorem Grows.trans {e₁ e₂ e₃ : Engine} (h₁ : Grows e₁ e₂) (h₂ : Grows e₂ e₃) : Grows e₁ e₃ :=
  ⟨h₁.installs.trans h₂.installs, h₁.enqueued.trans h₂.enqueued, h₁.drawn.trans h₂.drawn,
    h₁.handedOut.trans h₂.handedOut, h₁.bumps.trans h₂.bumps, h₁.refusals.trans h₂.refusals,
    h₁.evictions.trans h₂.evictions⟩

theorem Grows.bounded (h : Grows e e') (he : e'.Bounded) : e.Bounded :=
  ⟨h.handedOut.trans_lt he.pages, h.bumps.trans_lt he.bumps⟩

theorem Primitive.grows (h : Primitive rt N command conn e e') : Grows e e' := by
  cases h with
  | storeSchemas tables timestamp _ =>
    have hframe := BPlusTree.insert_frame rt.search e.btree schemasKey
      (.record ⟨.schemas tables, e.currentVersion, false, timestamp⟩)
    obtain ⟨images, -, hwal⟩ := hframe.wal
    exact ⟨List.prefix_rfl, by rw [hwal]; exact List.prefix_append _ _, List.prefix_rfl,
      hframe.handedOut, le_rfl, le_rfl, le_rfl⟩
  | _ =>
    constructor <;>
      first
      | exact List.prefix_rfl
      | exact List.prefix_append _ _
      | exact le_rfl
      | exact Nat.le_add_right _ _

theorem Progress.grows (h : Progress rt N command conn e e') : Grows e e' := by
  induction h with
  | refl => exact Grows.refl e
  | tail _ hstep ih => exact ih.trans hstep.grows

end Engine

end KsSql
