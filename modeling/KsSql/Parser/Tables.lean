import KsSql.Parser.Reading
import Mathlib.Logic.Function.Basic

/-!
# Tables

What the program is for, in its own terms: a database of tables, each with a schema and with rows under
keys (`Database`). Commands outside transactions change it (`Database.next`) and ask for its contents
(`Database.Answers`). There are no pages here, no log, no versions and no threads.

The rows of a table have no order, so an answer is computed from a list of them in some order
(`Enumerates`), which does not matter for the number of the rows that a statement changes
(`changedText_eq`).
-/

namespace KsSql

open Engine

/-- The schema of a table with so many rows more. -/
def TableSchema.after (schema : TableSchema) (count : Nat) : TableSchema :=
  { schema with nextId := schema.nextId + if schema.autoIncrementCol.isSome then count else 0 }

/-- The tables that a `SELECT` scans. -/
def Select.reads (select : Select) : List Bytes :=
  match select.fromTables with
  | ⟨.table t, ⟨.table right, _⟩ :: _⟩ :: _ => [t, right]
  | ⟨.table t, _⟩ :: _ => [t]
  | _ => []

/-- The tables that a command scans. -/
def Command.reads : Command → List Bytes
  | .statement (.update (.table t) _ _) => [t]
  | .statement (.delete (.table t :: _) _) => [t]
  | .statement (.query ⟨.select select, _⟩) => select.reads
  | _ => []

/-- The tables, as far as they can be seen: their schemas, and the rows of each under their keys. -/
@[ext]
structure Database where
  tables : Bytes → Option TableSchema
  rows : Bytes → Bytes → Option Row
  /-- The number of rows inserted so far, which the keys are generated from. -/
  inserted : Nat

namespace Database

variable (rt : Runtime)

/-- No tables. -/
def empty : Database where
  tables _ := none
  rows _ _ := none
  inserted := 0

/-! ### What commands change -/

/-- A row satisfies the condition, if there is one. -/
def selects (t : Bytes) (selection : Option Expr) (x : Bytes × Row) : Bool :=
  selection.all (evaluateWhere rt (scannedRow rt t x.1 x.2))

/-- A row after the assignments. -/
def assigned (assignments : List Assignment) (columns : Row) : Row :=
  assignments.foldl (fun columns a ↦ columns.insert (a.id.headD []) (rt.unquoted a.value)) columns

/-- The rows of the table that satisfy the condition become something else, or disappear. -/
def change (t : Bytes) (selection : Option Expr) (f : Row → Option Row) (db : Database) : Database :=
  { db with rows := Function.update db.rows t fun key ↦ (db.rows t key).bind fun columns ↦
      if selects rt t selection (key, columns) then f columns else some columns }

/-- A row is put into the table, under a generated key. It is the one in the given place of its
statement. -/
def insertRow (t : Bytes) (schema : TableSchema) (db : Database) (x : List Expr × Nat) : Database :=
  { db with
    rows := Function.update db.rows t (Function.update (db.rows t)
      (rowKey t (rt.random db.inserted)) (some (insertedColumns schema (schema.nextId + x.2) x.1)))
    inserted := db.inserted + 1 }

/-- The rows are put into the table, if there is one. -/
def insert (t : Bytes) (rows : List (List Expr)) (db : Database) : Database :=
  match db.tables t with
  | none => db
  | some schema =>
    let db := rows.zipIdx.foldl (insertRow rt t schema) db
    { db with tables := Function.update db.tables t (some (schema.after rows.length)) }

/-- What a command makes of the tables. -/
def next (db : Database) : Command → Database
  | .statement (.createTable name columns) =>
    { db with tables := Function.update db.tables name (some (newSchema rt name columns)) }
  | .statement (.insert t (some ⟨.values rows, _⟩)) => db.insert rt t rows
  | .statement (.update (.table t) assignments selection) =>
    db.change rt t selection fun columns ↦ some (assigned rt assignments columns)
  | .statement (.delete (.table t :: _) selection) => db.change rt t selection fun _ ↦ none
  | _ => db

/-! ### What commands answer -/

section

variable (db : Database) (order : Bytes → List (Bytes × Row))

/-- The schema of a table that a query speaks of. -/
def schemaOf (t : Bytes) : Except EngineError TableSchema :=
  match db.tables t with
  | some schema => .ok schema
  | none => .error (.namedTableNotFound t)

/-- The rows of a `SELECT`, before its limit, under the names of the columns to display. -/
def selectRows (select : Select) : Except EngineError (List Bytes × List Row) := do
  let source ← match select.fromTables with
    | [] => .error .panicked
    | source :: _ => .ok source
  let t ← match source.relation with
    | .table name => .ok name
    | .other => .error .unsupportedTable
  let schema ← db.schemaOf t
  let (displayCols, rows) ← match source.joins with
    | [] => .ok (schema.columns.map (qualified t), rowsOf rt t (order t))
    | join :: _ => do
      let right ← match join.relation with
        | .table name => .ok name
        | .other => .error .unsupportedJoinTable
      let rightSchema ← db.schemaOf right
      .ok (schema.columns.map (qualified t) ++ rightSchema.columns.map (qualified right),
        joinRows rt join.joinOperator (rowsOf rt t (order t)) (rowsOf rt right (order right)))
  match select.selection with
  | none => .ok (displayCols, rows)
  | some selection =>
    if occursIn (bytes "VECTOR_SEARCH") (rt.display selection) then .ok (displayCols, rows)
    else .ok (displayCols, rows.filter fun row ↦ evaluateWhere rt row selection)

/-- The text of a query's result. -/
def queryText (q : Query) : Except EngineError Bytes :=
  match q.body with
  | .select select => do
    let (displayCols, rows) ← db.selectRows rt order select
    .ok (render rt select.projection displayCols (limitRows q.limit rows))
  | _ => .error .unsupportedQueryType

/-- The answer to a statement that changes the rows which satisfy a condition: their number. -/
def changedText (verb : String) (t : Bytes) (selection : Option Expr) : Bytes :=
  countText verb ((order t).filter (selects rt t selection)).length

/-- The order does not matter. -/
theorem changedText_eq {db : Database} {order' : Bytes → List (Bytes × Row)} {t : Bytes}
    (h : Enumerates (db.rows t) (order t)) (h' : Enumerates (db.rows t) (order' t)) (verb : String)
    (selection : Option Expr) :
    changedText rt order verb t selection = changedText rt order' verb t selection := by
  rw [changedText, changedText, ((h.perm h').filter _).length_eq]

/-- The answer to an `INSERT`. -/
def insertText (t : Bytes) (body : SetExpr) : Except EngineError Bytes :=
  match db.tables t, body with
  | none, _ => .error .tableNotFound
  | some _, .values rows => .ok (countText "Inserted" rows.length)
  | some _, _ => .error .unsupportedSource

/-- The answer to a command, if it is about rows. -/
def answer : Command → Option (Except EngineError Bytes)
  | .statement (.insert t (some source)) => some (db.insertText t source.body)
  | .statement (.update (.table t) _ selection) =>
    some (.ok (changedText rt order "Updated" t selection))
  | .statement (.delete (.table t :: _) selection) =>
    some (.ok (changedText rt order "Deleted" t selection))
  | .statement (.query q) => some (db.queryText rt order q)
  | _ => none

end

/-- An answer to a command, given the rows of the tables that it scans in some order. -/
def Answers (db : Database) (command : Command) (given : Except EngineError Bytes) : Prop :=
  ∃ order, (∀ t ∈ command.reads, Enumerates (db.rows t) (order t)) ∧
    ∀ expected ∈ db.answer rt order command, given = expected

/-- Each command of a list is answered as it is to be, one after another. -/
def Serves : Database → List (Command × Except EngineError Bytes) → Prop
  | _, [] => True
  | db, (command, given) :: rest => db.Answers rt command given ∧ Serves (db.next rt command) rest

end Database

end KsSql
