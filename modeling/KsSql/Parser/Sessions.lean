import KsSql.Parser.Tables

/-!
# Sessions

Transactions on tables, in the terms of `Tables`. A connection with an open transaction has a snapshot of
the tables (`Snapshot`). It sees the rows that are committed, except those that others have changed since
the transaction began, and never its own writes. The rows that it changes are noted, and committed all at
once, unless one of them was changed by others (`Snapshot.Conflicts`).

A row that is inserted outside transactions counts as changed only if something else was changed since
the transaction began (`Snapshot.meet`): the version counter has moved then, and not by the insertion.

There are no versions here, no records and no buffers. Where no transaction is begun, the sessions are
the database (`TableSessions.next_idle`).
-/

namespace KsSql

open Engine

/-- A row for each key that a table gets, or no row for a key that is deleted. -/
abbrev RowChanges : Type := Bytes → Bytes → Option (Option Row)

namespace Database

variable (rt : Runtime)

/-- What becomes of the rows of the table that satisfy the condition. -/
def changes (t : Bytes) (selection : Option Expr) (f : Row → Option Row) (db : Database) : RowChanges :=
  fun t' key ↦
    if t' = t then ((db.rows t key).filter fun columns ↦ selects rt t selection (key, columns)).map f
    else none

/-- The tables with the changes. -/
def place (new : RowChanges) (db : Database) : Database :=
  { db with rows t key := (new t key).getD (db.rows t key) }

theorem place_changes (t : Bytes) (selection : Option Expr) (f : Row → Option Row) (db : Database) :
    db.place (db.changes rt t selection f) = db.change rt t selection f := by
  refine Database.ext rfl (funext fun t' ↦ funext fun key ↦ ?_) rfl
  rw [place, change]
  dsimp only
  rw [changes]
  split
  · rename_i heq
    subst heq
    rw [Function.update_self]
    rcases db.rows t' key with - | columns
    · rfl
    · rw [Option.filter_some, Option.bind_some]
      split <;> rfl
  · rename_i hne
    rw [Function.update_of_ne hne]
    rfl

end Database

/-- A transaction: what it writes, and what has become of the tables since it began. -/
@[ext]
structure Snapshot where
  writes : RowChanges
  /-- The rows that others have changed. -/
  overtaken : Bytes → Bytes → Prop
  /-- Others have changed something. -/
  moved : Prop

namespace Snapshot

/-- A transaction that begins. -/
def fresh : Snapshot where
  writes _ _ := none
  overtaken _ _ := False
  moved := False

/-- The transaction writes more. -/
def note (new : RowChanges) (tx : Snapshot) : Snapshot :=
  { tx with writes t key := (new t key).or (tx.writes t key) }

/-- Others have changed something. -/
def overtake (new : RowChanges) (moved : Prop) (tx : Snapshot) : Snapshot where
  writes := tx.writes
  overtaken t key := tx.overtaken t key ∨ (new t key).isSome
  moved := tx.moved ∨ moved

/-- Others have inserted a row. -/
def meet (t key : Bytes) (tx : Snapshot) : Snapshot :=
  { tx with overtaken := Function.update tx.overtaken t (Function.update (tx.overtaken t) key tx.moved) }

open Classical in
/-- The tables as the transaction sees them. -/
noncomputable def view (db : Database) (tx : Snapshot) : Database :=
  { db with rows t key := if tx.overtaken t key then none else db.rows t key }

/-- A row that the transaction writes was changed by others. -/
def Conflicts (tx : Snapshot) : Prop := ∃ t key, (tx.writes t key).isSome ∧ tx.overtaken t key

end Snapshot

/-- The tables, and the transactions that the connections have open. -/
@[ext]
structure TableSessions where
  db : Database
  opened : Nat → Option Snapshot

namespace TableSessions

variable (rt : Runtime)

/-- The tables as the connection sees them. -/
noncomputable def view (conn : Nat) (s : TableSessions) : Database :=
  match s.opened conn with
  | none => s.db
  | some tx => tx.view s.db

/-! ### What commands change -/

/-- The transaction of the connection is another one, or none. -/
def setOpened (conn : Nat) (tx : Option Snapshot) (s : TableSessions) : TableSessions :=
  { s with opened := Function.update s.opened conn tx }

/-- The changes are committed. -/
def place (new : RowChanges) (moved : Prop) (s : TableSessions) : TableSessions where
  db := s.db.place new
  opened conn := (s.opened conn).map (Snapshot.overtake new moved)

/-- The rows of the table that the connection sees and that satisfy the condition become something else,
or disappear: at once, or when its transaction commits. -/
noncomputable def change (conn : Nat) (t : Bytes) (selection : Option Expr) (f : Row → Option Row)
    (s : TableSessions) : TableSessions :=
  let new := (s.view conn).changes rt t selection f
  match s.opened conn with
  | none => s.place new (∃ t key, (new t key).isSome)
  | some tx => s.setOpened conn (some (tx.note new))

/-- A row under a key. -/
def oneRow (t key : Bytes) (columns : Row) : RowChanges := fun t' key' ↦
  if t' = t ∧ key' = key then some (some columns) else none

/-- A row is put into the table, under a generated key: at once, or when the transaction commits. -/
def insertRow (conn : Nat) (t : Bytes) (schema : TableSchema) (s : TableSessions) (x : List Expr × Nat) :
    TableSessions :=
  let key := rowKey t (rt.random s.db.inserted)
  match s.opened conn with
  | none =>
    { db := s.db.insertRow rt t schema x
      opened c := (s.opened c).map (Snapshot.meet t key) }
  | some tx =>
    { db := { s.db with inserted := s.db.inserted + 1 }
      opened := Function.update s.opened conn (some
        (tx.note (oneRow t key (insertedColumns schema (schema.nextId + x.2) x.1)))) }

/-- The rows are put into the table, if there is one. The numbers generated for them are used up at
once. -/
def insert (conn : Nat) (t : Bytes) (rows : List (List Expr)) (s : TableSessions) : TableSessions :=
  match s.db.tables t with
  | none => s
  | some schema =>
    let s := rows.zipIdx.foldl (insertRow rt conn t schema) s
    { s with db := { s.db with
        tables := Function.update s.db.tables t (some (schema.after rows.length)) } }

open Classical in
/-- The transaction is closed, and what it writes is committed unless there is a conflict. -/
noncomputable def commit (conn : Nat) (s : TableSessions) : TableSessions :=
  match s.opened conn with
  | none => s
  | some tx =>
    let closed := s.setOpened conn none
    if tx.Conflicts then closed else closed.place tx.writes True

/-- What a command makes of the tables and of the transactions. -/
noncomputable def next (s : TableSessions) (conn : Nat) : Command → TableSessions
  | .begin => s.setOpened conn (some .fresh)
  | .commit => s.commit conn
  | .rollback => s.setOpened conn none
  | .statement (.insert t (some ⟨.values rows, _⟩)) => s.insert rt conn t rows
  | .statement (.update (.table t) assignments selection) =>
    s.change rt conn t selection fun columns ↦ some (Database.assigned rt assignments columns)
  | .statement (.delete (.table t :: _) selection) => s.change rt conn t selection fun _ ↦ none
  | command => { s with db := s.db.next rt command }

/-! ### What commands answer -/

open Classical in
/-- The answer to a `COMMIT`. -/
noncomputable def commitText (conn : Nat) (s : TableSessions) : Except EngineError Bytes :=
  match s.opened conn with
  | none => .error .noActiveTransaction
  | some tx => if tx.Conflicts then .error .conflict else .ok (bytes "Transaction committed")

/-- The answer to a command, if it is about rows or transactions. -/
noncomputable def answer (s : TableSessions) (conn : Nat) (order : Bytes → List (Bytes × Row)) :
    Command → Option (Except EngineError Bytes)
  | .begin => some (.ok (bytes "Transaction started"))
  | .commit => some (s.commitText conn)
  | .rollback => some (.ok (bytes "Transaction rolled back"))
  | command => (s.view conn).answer rt order command

/-- An answer to a command of a connection, given the rows of the tables that it scans in some order. -/
def Answers (s : TableSessions) (conn : Nat) (command : Command) (given : Except EngineError Bytes) : Prop :=
  ∃ order, (∀ t ∈ command.reads, Enumerates ((s.view conn).rows t) (order t)) ∧
    ∀ expected ∈ s.answer rt conn order command, given = expected

/-- Each command of a list is answered as it is to be, one after another. -/
def Serves : TableSessions → List (Nat × Command × Except EngineError Bytes) → Prop
  | _, [] => True
  | s, (conn, command, given) :: rest =>
    s.Answers rt conn command given ∧ Serves (s.next rt conn command) rest

/-! ### Without transactions -/

section Idle

variable {rt} {db : Database} {command : Command} {conn : Nat}

/-- No transaction is open. -/
def idle (db : Database) : TableSessions := ⟨db, fun _ ↦ none⟩

theorem foldl_insertRow_idle (t : Bytes) (schema : TableSchema) :
    ∀ (rows : List (List Expr × Nat)) (db : Database),
      rows.foldl (insertRow rt conn t schema) (idle db) =
        idle (rows.foldl (Database.insertRow rt t schema) db)
  | [], _ => rfl
  | x :: rows, db => foldl_insertRow_idle t schema rows (db.insertRow rt t schema x)

theorem insert_idle (t : Bytes) (rows : List (List Expr)) :
    (idle db).insert rt conn t rows = idle (db.insert rt t rows) := by
  have htables : (idle db).db.tables t = db.tables t := rfl
  rw [insert, Database.insert, htables]
  rcases db.tables t with - | schema
  · rfl
  · dsimp only
    rw [foldl_insertRow_idle]
    rfl

theorem change_idle (t : Bytes) (selection : Option Expr) (f : Row → Option Row) :
    (idle db).change rt conn t selection f = idle (db.change rt t selection f) :=
  congrArg idle (db.place_changes rt t selection f)

/-- **Without transactions** commands change the database. -/
theorem next_idle (h : command ≠ .begin) :
    (idle db).next rt conn command = idle (db.next rt command) := by
  have hclose : (idle db).setOpened conn none = idle db :=
    TableSessions.ext rfl (Function.update_eq_self conn fun _ ↦ none)
  unfold next
  split
  · exact absurd rfl h
  · rfl
  · exact hclose
  · exact insert_idle _ _
  · exact change_idle _ _ _
  · exact change_idle _ _ _
  · rfl

theorem foldl_next_idle : ∀ {calls : List (Nat × Command)} {db : Database},
    (∀ c ∈ calls, c.2 ≠ .begin) → calls.foldl (fun s c ↦ s.next rt c.1 c.2) (idle db) =
      idle ((calls.map Prod.snd).foldl (Database.next rt) db)
  | [], _, _ => rfl
  | c :: calls, db, h => by
    rw [List.foldl_cons, next_idle (h c List.mem_cons_self)]
    exact foldl_next_idle fun c' hc' ↦ h c' (List.mem_cons_of_mem c hc')

theorem Answers.of_idle {given : Except EngineError Bytes} (h : (idle db).Answers rt conn command given) :
    db.Answers rt command given := by
  obtain ⟨order, horder, hgiven⟩ := h
  refine ⟨order, horder, fun expected hexpected ↦ ?_⟩
  cases command with
  | statement stmt => exact hgiven expected hexpected
  | flush => exact hgiven expected hexpected
  | _ => cases hexpected

theorem Serves.of_idle : ∀ {l : List (Nat × Command × Except EngineError Bytes)} {db : Database},
    (∀ x ∈ l, x.2.1 ≠ .begin) → (idle db).Serves rt l → db.Serves rt (l.map Prod.snd)
  | [], _, _, _ => trivial
  | (conn, command, given) :: l, db, hl, ⟨hanswers, hrest⟩ => by
    rw [next_idle (hl _ List.mem_cons_self)] at hrest
    exact ⟨hanswers.of_idle, hrest.of_idle fun x hx ↦ hl x (List.mem_cons_of_mem _ hx)⟩

end Idle

end TableSessions

end KsSql
