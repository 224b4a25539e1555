import KsSql.Parser.Record
import KsSql.Storage.LeafWalk
import KsSql.Util.Effect

/-!
# The engine

`Engine` of `parser/engine.rs`: the storage, the catalogue of tables and indexes, the version counter
and the open transactions, and the execution of one statement. The statement handlers are `Effect`
routines on the engine's state, which keep what they have done when they fail half-way.

`Runtime` holds what comes from outside the repository: the search in a sorted vector, the order in
which a hash map is iterated over, clocks and random numbers, the displayed text of an expression,
`to_uppercase`, the arithmetic of aggregates, the execution of a WASM module, and what the decoders
make of a byte string that was written as something else.

A handler that writes ends with `flush_pipeline`. Other threads run beside that loop, so a handler
here returns a `Reply` that says whether the call is still to be made; `System` makes it, one round
at a time.

`History` records what was done: the records installed in the memory tier, the row keys drawn, the
increments of the version counter, the entries that the queue refused and the insertions that found
the memory tier over its limit. Nothing reads it.
-/

namespace KsSql

/-- What can go wrong in a statement. `panicked` is not an error value of the source but an index out
of range. -/
inductive EngineError
  | storage (e : StorageError)
  /-- A decoder's error. -/
  | decode
  | panicked
  | conflict
  | noActiveTransaction
  | sourceMissing
  | tableNotFound
  | namedTableNotFound (name : Bytes)
  | unsupportedUpdateTarget
  | unsupportedDeleteTarget
  | unsupportedSource
  | unsupportedTable
  | unsupportedJoinTable
  | unsupportedQueryType
  | unsupportedStatement
  | recordNotFoundDuringUpdate
  | recordNotFoundDuringDelete
  /-- An error of the WASM runtime. -/
  | wasm (message : Bytes)
  deriving DecidableEq, Repr

/-- The text of an error. The decoders' messages speak of byte counts and encodings only. -/
def EngineError.message : EngineError → Bytes
  | .storage .nodeTooLarge => bytes "Node too large for page size"
  | .storage .walSaturated => bytes "WAL Queue Saturated after 1000 retries"
  | .storage _ => []
  | .decode => []
  | .panicked => []
  | .conflict => bytes "Transaction conflict detected (OCC)"
  | .noActiveTransaction => bytes "No active transaction"
  | .sourceMissing => bytes "Source missing"
  | .tableNotFound => bytes "Table not found"
  | .namedTableNotFound name => bytes "Table " ++ name ++ bytes " not found"
  | .unsupportedUpdateTarget => bytes "Unsupported update target"
  | .unsupportedDeleteTarget => bytes "Unsupported delete target"
  | .unsupportedSource => bytes "Unsupported source"
  | .unsupportedTable => bytes "Unsupported table"
  | .unsupportedJoinTable => bytes "Unsupported join table"
  | .unsupportedQueryType => bytes "Unsupported query type"
  | .unsupportedStatement => bytes "Unsupported statement"
  | .recordNotFoundDuringUpdate => bytes "Record not found during update"
  | .recordNotFoundDuringDelete => bytes "Record not found during delete"
  | .wasm message => message

/-- What the engine uses of the world outside the repository. -/
structure Runtime where
  /-- `binary_search` on a sorted vector of byte strings. -/
  search : BinarySearch Bytes
  /-- The order in which a hash map is iterated over. -/
  iterate : {V : Type} → HashMap Bytes V → List (Bytes × V)
  /-- An iteration visits the bindings of the map, each once. -/
  iterate_perm : ∀ {V : Type} (m : HashMap Bytes V), (iterate m).Perm m.toList
  /-- The answer to the `n`th reading of the clock, in seconds. -/
  timestamp : Nat → Int
  /-- The answer to the `n`th reading of the clock, in nanoseconds. -/
  nanos : Nat → Int
  /-- The `n`th random number. -/
  random : Nat → UInt64
  /-- The displayed text of an expression. -/
  display : Expr → Bytes
  /-- `to_uppercase` -/
  uppercase : Bytes → Bytes
  /-- The result text of an aggregate function, from the texts of the column in the rows that have
  it, and the number of rows. -/
  aggregate : Bytes → List Bytes → Nat → Bytes
  /-- Load and run a WASM module. -/
  callWasm : Bytes → Except Bytes Bytes
  /-- What a row key decodes to, taken as a record. -/
  rawRecord : Bytes → Option Record
  /-- What an encoded catalogue decodes to, taken as a row. -/
  schemasRow : HashMap Bytes TableSchema → Option Row
  /-- The encoding of a record. -/
  recordBytes : Record → Bytes
  /-- The encoding of a record's value. -/
  payloadBytes : Payload → Bytes

/-- `Transaction`, without the identifier that nothing reads. `begunAt` is the number of records
installed before it began, and is part of the history. -/
structure Transaction where
  snapshotVersion : Nat
  updates : HashMap Bytes Data
  begunAt : Nat

/-- The kinds of write to the memory tier. -/
inductive WriteKind
  /-- An `INSERT` outside transactions. -/
  | insert
  /-- An `UPDATE` or a `DELETE` outside transactions. -/
  | change
  /-- A `COMMIT`. -/
  | commit
  /-- An index entry. -/
  | index
  deriving DecidableEq, Repr

/-- A write to the memory tier. -/
structure Install where
  conn : Nat
  kind : WriteKind
  key : Bytes
  data : Data
  deriving DecidableEq

/-- What was done so far. -/
structure History where
  /-- The writes to the memory tier, oldest first. -/
  installs : List Install := []
  /-- The row keys generated, with the connections they were generated for, oldest first. -/
  drawn : List (Nat × Bytes) := []
  /-- The number of increments of the version counter. -/
  bumps : Nat := 0
  /-- The number of entries that the queue refused. -/
  refusals : Nat := 0
  /-- The number of insertions that found the memory tier over its limit, and of removals from it. -/
  evictions : Nat := 0

/-- `Engine` with its `EngineState`. -/
structure Engine where
  btree : BPlusTree Bytes Data
  schemas : HashMap Bytes TableSchema := ∅
  indices : HashMap Bytes IndexSchema := ∅
  currentVersion : Nat := 0
  activeTransactions : HashMap Nat Transaction := ∅
  /-- The number of clock readings so far. -/
  ticks : Nat := 0
  history : History := {}

/-- A routine of the engine. -/
abbrev Routine (α : Type) := Effect Engine EngineError α

/-! ### Reading -/

namespace Runtime

variable (rt : Runtime)

/-- Decode a stored byte string as a record. -/
def decodeRecord : Data → Except EngineError Record
  | .record r => .ok r
  | .raw key => match rt.rawRecord key with
    | some r => .ok r
    | none => .error .decode

/-- Decode the value of a record as a row. -/
def decodeRow : Payload → Except EngineError Row
  | .row columns => .ok columns
  | .schemas tables => match rt.schemasRow tables with
    | some columns => .ok columns
    | none => .error .decode

/-- The bytes of a stored byte string. -/
def dataBytes : Data → Bytes
  | .record r => rt.recordBytes r
  | .raw key => key

/-- The key that an index entry leads to: an entry that decodes as a record is replaced by the
record's value. -/
def finalKey (targetKey : Data) : Bytes :=
  match rt.decodeRecord targetKey with
  | .ok record => rt.payloadBytes record.value
  | .error _ => rt.dataBytes targetKey

/-- The text of an expression without its quotes: `to_string().replace("'", "")`. -/
def unquoted (e : Expr) : Bytes := (rt.display e).filter (· ≠ 39)

end Runtime

/-- `text.contains(part)` -/
def occursIn (part text : Bytes) : Bool := text.tails.any part.isPrefixOf

/-- `parts.join(".")` -/
def dotted (parts : List Bytes) : Bytes := (bytes ".").intercalate parts

/-- The column name `column` of table `tableName`, qualified. -/
def qualified (tableName column : Bytes) : Bytes := tableName ++ bytes "." ++ column

/-- The value under a name that ends with `.` and the given one, if the row has such a name. -/
def suffixValue (rt : Runtime) (row : Row) (name : Bytes) : Option Bytes :=
  ((rt.iterate row).find? fun c ↦ (bytes "." ++ name).isSuffixOf c.1).map Prod.snd

/-- `get_data` of `evaluate_where`. -/
def getData (rt : Runtime) (row : Row) : Expr → Bytes
  | .identifier id => match row.lookup id with
    | some v => v
    | none => (suffixValue rt row id).getD []
  | .compoundIdentifier qualifier name => match row.lookup (dotted (qualifier ++ [name])) with
    | some v => v
    | none => (row.lookup name).getD []
  | .value v => rt.unquoted (.value v)
  | _ => []

/-- `Engine::evaluate_where` -/
def evaluateWhere (rt : Runtime) (row : Row) : Expr → Bool
  | .binaryOp left op right =>
    let leftVal := getData rt row left
    let rightVal := getData rt row right
    match op with
    | .eq => if leftVal.isEmpty && rightVal.isEmpty then false else leftVal == rightVal
    | .notEq => leftVal != rightVal
    | .gt => rightVal < leftVal
    | .lt => leftVal < rightVal
    | .other => false
  | .nested inner => evaluateWhere rt row inner
  | _ => true

/-- A row as a scan returns it: its key under `__key__`, and each column under its name and under its
qualified name. -/
def scannedRow (rt : Runtime) (tableName key : Bytes) (columns : Row) : Row :=
  (rt.iterate columns).foldl
    (fun row c ↦ (row.insert c.1 c.2).insert (qualified tableName c.1) c.2)
    ((∅ : Row).insert keyColumn key)

/-- A scan in progress: the rows found, and the keys they were found under. -/
structure Scan where
  rows : List Row := []
  processedKeys : List Bytes := []

/-- Look at one stored entry in a scan. -/
def scanEntry (rt : Runtime) (tableName : Bytes) (version : Nat) (acc : Scan) (key : Bytes)
    (data : Data) : Except EngineError Scan :=
  if (tablePrefix tableName).isPrefixOf key then do
    let record ← rt.decodeRecord data
    if record.version ≤ version ∧ record.isDeleted = false then do
      let columns ← rt.decodeRow record.value
      pure { rows := acc.rows ++ [scannedRow rt tableName key columns]
             processedKeys := acc.processedKeys ++ [key] }
    else pure acc
  else pure acc

/-- Look at a leaf's entries in a scan, from the left. Keys already processed are passed over, and a
key without a value panics. -/
def scanLeaf (rt : Runtime) (tableName : Bytes) (version : Nat) :
    List Bytes → List Data → Scan → Except EngineError Scan
  | [], _, acc => .ok acc
  | key :: keys, values, acc =>
    if key ∈ acc.processedKeys ∨ (tablePrefix tableName).isPrefixOf key = false then
      scanLeaf rt tableName version keys values.tail acc
    else
      match values with
      | [] => .error .panicked
      | data :: values => do
        let acc ← scanEntry rt tableName version acc key data
        scanLeaf rt tableName version keys values acc

/-- The column and the value that a filter of the form `column = value` asks an index for. -/
def indexLookup (rt : Runtime) : Option Expr → Option (Bytes × Bytes)
  | some (.binaryOp left .eq right) => do
    let getId := fun e : Expr ↦ match e with
      | .identifier i => some i
      | .compoundIdentifier _ name => some name
      | _ => none
    let getVal := fun e : Expr ↦ match e with
      | .value v => some (rt.unquoted (.value v))
      | _ => none
    let col ← getId left <|> getId right
    let val ← getVal left <|> getVal right
    pure (col, val)
  | _ => none

namespace Engine

/-- A lookup in the memory tier, then in the tree. -/
def fetch (rt : Runtime) (e : Engine) (key : Bytes) : Except EngineError (Option Data) :=
  match e.btree.get rt.search key with
  | .ok data => .ok data
  | .error err => .error (.storage err)

/-- The index part of `scan_table_with_filter`: the row that an index entry leads to. -/
def probeIndex (rt : Runtime) (e : Engine) (tableName : Bytes) (version : Nat) (column value : Bytes) :
    Except EngineError (Option Row) := do
  match ← e.fetch rt (indexKey tableName column value) with
  | none => pure none
  | some targetKey =>
    match ← e.fetch rt (rt.finalKey targetKey) with
    | none => pure none
    | some recordData =>
      let record ← rt.decodeRecord recordData
      if record.version ≤ version ∧ record.isDeleted = false then do
        let columns ← rt.decodeRow record.value
        pure (some (scannedRow rt tableName (rt.dataBytes targetKey) columns))
      else pure none

/-- The scan of the memory tier. -/
def scanTier (rt : Runtime) (e : Engine) (tableName : Bytes) (version : Nat) :
    Except EngineError Scan :=
  (rt.iterate e.btree.memoryTier.cache).foldlM
    (fun acc c ↦ scanEntry rt tableName version acc c.1 c.2) {}

/-- The scan of the leaf chain, for keys that the memory tier gave no row for. -/
def scanTree (rt : Runtime) (e : Engine) (tableName : Bytes) (version : Nat) (acc : Scan) :
    Except EngineError Scan :=
  match e.btree.scanLeaves
    (fun acc _ node ↦ scanLeaf rt tableName version node.keys node.values acc) acc with
  | .error err => .error (.storage err)
  | .ok result => result

/-- `Engine::scan_table` -/
def scanTable (rt : Runtime) (e : Engine) (tableName : Bytes) (version : Nat) :
    Except EngineError (List Row) := do
  let acc ← e.scanTier rt tableName version
  let acc ← e.scanTree rt tableName version acc
  pure acc.rows

/-- `Engine::scan_table_with_filter` -/
def scanTableWithFilter (rt : Runtime) (e : Engine) (tableName : Bytes) (version : Nat)
    (filter : Option Expr) : Except EngineError (List Row) :=
  match indexLookup rt filter with
  | none => e.scanTable rt tableName version
  | some (column, value) => do
    match ← e.probeIndex rt tableName version column value with
    | some row => pure [row]
    | none => e.scanTable rt tableName version

/-- The version a statement of a connection reads at. -/
def readVersion (e : Engine) (conn : Nat) : Nat :=
  match e.activeTransactions.lookup conn with
  | some tx => tx.snapshotVersion
  | none => e.currentVersion

/-! ### Queries -/

/-- The joined rows: the right row's columns over the left row's. -/
def joinRows (rt : Runtime) (operator : JoinOperator) (left right : List Row) : List Row :=
  left.flatMap fun l ↦ right.filterMap fun r ↦
    let combined := (rt.iterate r).foldl (fun row c ↦ row.insert c.1 c.2)
      ((rt.iterate l).foldl (fun row c ↦ row.insert c.1 c.2) (∅ : Row))
    let matchJoin := match operator with
      | .innerOn condition => evaluateWhere rt combined condition
      | .other => true
    if matchJoin then some combined else none

/-- `str::parse::<usize>` -/
def parseUsize (text : Bytes) : Option Nat :=
  let digits := match text with
    | 43 :: digits => digits
    | _ => text
  let n := digits.foldl (fun (n : Nat) (d : UInt8) ↦ 10 * n + (d.toNat - 48)) 0
  if digits ≠ [] ∧ (digits.all fun d : UInt8 ↦ 48 ≤ d && d ≤ 57) ∧ n < 2 ^ 64 then some n
  else none

/-- The rows that a `LIMIT` leaves. -/
def limitRows (limit : Option Expr) (rows : List Row) : List Row :=
  match limit with
  | some (.value (.number n _)) => match parseUsize n with
    | some limit => rows.take limit
    | none => rows
  | _ => rows

/-- The rows of a `SELECT`, before its limit, under the names of the columns to display. -/
def selectRows (rt : Runtime) (e : Engine) (version : Nat) (select : Select) :
    Except EngineError (List Bytes × List Row) := do
  let source ← match select.fromTables with
    | [] => .error .panicked
    | source :: _ => .ok source
  let tableName ← match source.relation with
    | .table name => .ok name
    | .other => .error .unsupportedTable
  let schema ← match e.schemas.lookup tableName with
    | some schema => .ok schema
    | none => .error (.namedTableNotFound tableName)
  let leftRows ← e.scanTableWithFilter rt tableName version select.selection
  let displayCols := schema.columns.map (qualified tableName)
  let (displayCols, leftRows) ← match source.joins with
    | [] => .ok (displayCols, leftRows)
    | join :: _ => do
      let rightTable ← match join.relation with
        | .table name => .ok name
        | .other => .error .unsupportedJoinTable
      let rightSchema ← match e.schemas.lookup rightTable with
        | some schema => .ok schema
        | none => .error (.namedTableNotFound rightTable)
      let rightRows ← e.scanTable rt rightTable version
      .ok (displayCols ++ rightSchema.columns.map (qualified rightTable),
        joinRows rt join.joinOperator leftRows rightRows)
  match select.selection with
  | none => pure (displayCols, leftRows)
  | some selection =>
    if occursIn (bytes "VECTOR_SEARCH") (rt.display selection) then pure (displayCols, leftRows)
    else pure (displayCols, leftRows.filter fun row ↦ evaluateWhere rt row selection)

/-- The aggregate functions. -/
def aggregateNames : List Bytes := ["COUNT", "SUM", "AVG", "MIN", "MAX"].map bytes

/-- Whether a projection asks for aggregates. -/
def isAggregate (rt : Runtime) (projection : List SelectItem) : Bool :=
  projection.any fun
    | .function name _ => rt.uppercase name ∈ aggregateNames
    | .other => false

/-- The heading and the result of an item of an aggregating projection. -/
def aggregateItem (rt : Runtime) (rows : List Row) : SelectItem → Bytes × Bytes
  | .function name argument =>
    let name := rt.uppercase name
    let colName := argument.getD (bytes "*")
    let vals := rows.filterMap fun row ↦ row.lookup colName <|> suffixValue rt row colName
    (name, rt.aggregate name vals rows.length)
  | .other => (bytes "?", bytes "NULL")

/-- `cells.join(" | ") + "\n"` -/
def line (cells : List Bytes) : Bytes := (bytes " | ").intercalate cells ++ bytes "\n"

/-- A heading, and the line under it. -/
def heading (cells : List Bytes) : Bytes :=
  line cells ++ List.replicate (line cells).length 45 ++ bytes "\n"

/-- A displayed cell: the column under its qualified name, or else under its own. -/
def cell (row : Row) (column : Bytes) : Bytes :=
  match row.lookup column with
  | some val => val
  | none => match column.splitOn 46 with
    | [_, name] => (row.lookup name).getD (bytes "NULL")
    | _ => bytes "NULL"

/-- The text of a query's result. -/
def render (rt : Runtime) (projection : List SelectItem) (displayCols : List Bytes)
    (rows : List Row) : Bytes :=
  if isAggregate rt projection then
    let items := projection.map (aggregateItem rt rows)
    heading (items.map Prod.fst) ++ line (items.map Prod.snd)
  else heading displayCols ++ (rows.map fun row ↦ line (displayCols.map (cell row))).flatten

/-- `Engine::handle_query` -/
def handleQuery (rt : Runtime) (e : Engine) (query : Query) (conn : Nat) :
    Except EngineError Bytes :=
  match query.body with
  | .select select => do
    let (displayCols, rows) ← e.selectRows rt (e.readVersion conn) select
    pure (render rt select.projection displayCols (limitRows query.limit rows))
  | _ => .error .unsupportedQueryType

/-! ### The parts of a write -/

/-- A clock reading. -/
def tick (e : Engine) : Engine := { e with ticks := e.ticks + 1 }

/-- The row key that the next random number gives. -/
def nextKey (rt : Runtime) (e : Engine) (tableName : Bytes) : Bytes :=
  rowKey tableName (rt.random e.history.drawn.length)

/-- Draw a random number for a row key. -/
def draw (conn : Nat) (key : Bytes) (e : Engine) : Engine :=
  { e with history := { e.history with drawn := e.history.drawn ++ [(conn, key)] } }

/-- `current_version.fetch_add(1)`, a 64-bit addition. -/
def bump (e : Engine) : Engine :=
  { e with
    currentVersion := (e.currentVersion + 1) % 2 ^ 64
    history := { e.history with bumps := e.history.bumps + 1 } }

/-- `memory_tier.insert` -/
def install (rt : Runtime) (w : Install) (e : Engine) : Engine :=
  { e with
    btree := { e.btree with
      memoryTier := e.btree.memoryTier.insert (rt.nanos e.ticks) w.key w.data }
    ticks := e.ticks + 1
    history := { e.history with
      installs := e.history.installs ++ [w]
      evictions := e.history.evictions + if e.btree.memoryTier.overLimit then 1 else 0 } }

/-- Put a write into a transaction's buffer. -/
def buffer (conn : Nat) (tx : Transaction) (key : Bytes) (data : Data) (e : Engine) : Engine :=
  { e with activeTransactions :=
    e.activeTransactions.insert conn { tx with updates := tx.updates.insert key data } }

/-- A lookup, as a part of a routine. -/
def fetchKey (rt : Runtime) (key : Bytes) : Routine (Option Data) := fun e ↦ (e.fetch rt key, e)

/-- `wal.enqueue` of a record update. -/
def enqueue (key : Bytes) (data : Data) : Routine Unit := fun e ↦
  match e.btree.wal.enqueue (.recordUpdate key data) with
  | .ok wal => (.ok (), { e with btree := { e.btree with wal := wal } })
  | .error err =>
    (.error (.storage err),
      { e with history := { e.history with refusals := e.history.refusals + 1 } })

/-- `btree.insert` -/
def insertTree (rt : Runtime) (key : Bytes) (data : Data) : Routine Unit := fun e ↦
  match e.btree.insert rt.search key data with
  | (.ok (), btree) => (.ok (), { e with btree := btree })
  | (.error err, btree) => (.error (.storage err), { e with btree := btree })

/-- What a statement answers, and what is still to be done before it does. -/
structure Reply where
  output : Bytes
  /-- Whether `flush_pipeline` is still to be called. -/
  flush : Bool
  /-- Whether the queue is then to be emptied. -/
  discard : Bool := false
  deriving DecidableEq

/-- The displayed number of rows a statement wrote. -/
def countText (verb : String) (count : Nat) : Bytes :=
  bytes verb ++ bytes " " ++ bytes (toString count) ++ bytes " rows"

/-! ### `UPDATE` and `DELETE` -/

/-- The keys of the rows that a condition selects. -/
def selectedKeys (rt : Runtime) (selection : Option Expr) (rows : List Row) : List Bytes :=
  rows.filterMap fun row ↦
    if selection.all (evaluateWhere rt row) then row.lookup keyColumn else none

/-- The loop body of `handle_update` and `handle_delete`: change one record, in the transaction's
buffer or at once. -/
def changeKey (rt : Runtime) (conn version : Nat) (notFound : EngineError)
    (change : Record → Except EngineError Record) (key : Bytes) : Routine Unit := do
  let data ← fetchKey rt key
  let data ← Effect.ofExcept (match data with
    | some data => .ok data
    | none => .error notFound)
  let record ← Effect.ofExcept (rt.decodeRecord data)
  let record ← Effect.ofExcept (change record)
  let e ← Effect.get
  match e.activeTransactions.lookup conn with
  | some tx =>
    Effect.modify (buffer conn tx key
      (.record { record with version := (version + 1) % 2 ^ 64 }))
  | none =>
    Effect.modify bump
    let e ← Effect.get
    let data := Data.record { record with version := e.currentVersion }
    Effect.modify (install rt ⟨conn, .change, key, data⟩)
    enqueue key data

/-- `Engine::handle_update` and `Engine::handle_delete`, but for what they do to a record. -/
def changeRows (rt : Runtime) (verb : String) (notFound : EngineError)
    (change : Record → Except EngineError Record) (tableName : Bytes) (selection : Option Expr)
    (conn : Nat) : Routine Reply := do
  let e ← Effect.get
  let version := e.readVersion conn
  let rows ← Effect.ofExcept (e.scanTableWithFilter rt tableName version selection)
  let keys := selectedKeys rt selection rows
  Effect.forEach keys (changeKey rt conn version notFound change)
  let e ← Effect.get
  pure { output := countText verb keys.length
         flush := (e.activeTransactions.lookup conn).isNone }

/-- An assignment sets the column named by the first part of its name to the text of the
expression. -/
def assignColumn (rt : Runtime) (columns : Row) (a : Assignment) : Except EngineError Row :=
  match a.id with
  | [] => .error .panicked
  | col :: _ => .ok (columns.insert col (rt.unquoted a.value))

/-- What an `UPDATE` does to a record. -/
def assign (rt : Runtime) (assignments : List Assignment) (record : Record) :
    Except EngineError Record := do
  let columns ← rt.decodeRow record.value
  let columns ← assignments.foldlM (assignColumn rt) columns
  pure { record with value := .row columns }

/-- `Engine::handle_update` -/
def handleUpdate (rt : Runtime) (tableName : Bytes) (assignments : List Assignment)
    (selection : Option Expr) (conn : Nat) : Routine Reply :=
  changeRows rt "Updated" .recordNotFoundDuringUpdate (assign rt assignments) tableName selection conn

/-- `Engine::handle_delete` -/
def handleDelete (rt : Runtime) (tableName : Bytes) (selection : Option Expr) (conn : Nat) :
    Routine Reply :=
  changeRows rt "Deleted" .recordNotFoundDuringDelete (fun record ↦ .ok { record with isDeleted := true })
    tableName selection conn

/-! ### `INSERT` -/

/-- The text that `INSERT` stores for an expression. -/
def insertedText : Expr → Bytes
  | .value (.number n _) => n
  | .value (.singleQuotedString s) => s
  | _ => bytes "NULL"

/-- The columns of an inserted row. -/
def insertedColumns (schema : TableSchema) (nextId : Nat) (row : List Expr) : Row :=
  let columns := match schema.autoIncrementCol with
    | some col => (∅ : Row).insert col (bytes (toString nextId))
    | none => ∅
  let offset := if schema.autoIncrementCol.isSome then 1 else 0
  (row.zip (schema.columns.drop offset)).foldl
    (fun columns c ↦ columns.insert c.2 (insertedText c.1)) columns

/-- An `INSERT` in progress: the next generated number, and the log entries to be enqueued. -/
structure Inserting where
  nextId : Nat
  walEntries : List (Bytes × Data) := []

/-- The loop body of `handle_insert`: one row, to the transaction's buffer or to the memory tier. -/
def insertRow (rt : Runtime) (tableName : Bytes) (schema : TableSchema) (conn : Nat)
    (acc : Inserting) (row : List Expr) : Routine Inserting := do
  let columns := insertedColumns schema acc.nextId row
  let nextId := if schema.autoIncrementCol.isSome then acc.nextId + 1 else acc.nextId
  let e ← Effect.get
  let key := e.nextKey rt tableName
  Effect.modify (draw conn key)
  let data := Data.record ⟨.row columns, e.currentVersion, false, rt.timestamp e.ticks⟩
  Effect.modify tick
  match e.activeTransactions.lookup conn with
  | some tx =>
    Effect.modify (buffer conn tx key data)
    pure { acc with nextId := nextId }
  | none =>
    Effect.modify (install rt ⟨conn, .insert, key, data⟩)
    let indexEntries := (rt.iterate e.indices).filterMap fun idx ↦
      if idx.2.tableName = tableName then
        (columns.lookup idx.2.column).map fun colVal ↦
          (indexKey tableName idx.2.column colVal, Data.raw key)
      else none
    pure { nextId := nextId, walEntries := acc.walEntries ++ (key, data) :: indexEntries }

/-- The record that holds the catalogue. -/
def schemasRecord (rt : Runtime) : Routine Data := do
  let e ← Effect.get
  Effect.modify tick
  pure (.record ⟨.schemas e.schemas, e.currentVersion, false, rt.timestamp e.ticks⟩)

/-- The end of `handle_insert`: the next generated number goes to the catalogue. -/
def storeNextId (rt : Runtime) (tableName : Bytes) (schema : TableSchema) (nextId : Nat) :
    Routine Unit :=
  if nextId ≠ schema.nextId then do
    Effect.modify fun e ↦
      { e with schemas := e.schemas.insert tableName { schema with nextId := nextId } }
    let record ← schemasRecord rt
    enqueue schemasKey record
  else pure ()

/-- `Engine::handle_insert` -/
def handleInsert (rt : Runtime) (tableName : Bytes) (source : Query) (conn : Nat) :
    Routine Reply := do
  let e ← Effect.get
  let schema ← Effect.ofExcept (match e.schemas.lookup tableName with
    | some schema => .ok schema
    | none => .error .tableNotFound)
  match source.body with
  | .values rows =>
    let acc ← Effect.fold (insertRow rt tableName schema conn) rows { nextId := schema.nextId }
    Effect.forEach acc.walEntries fun entry ↦ enqueue entry.1 entry.2
    storeNextId rt tableName schema acc.nextId
    pure { output := countText "Inserted" rows.length, flush := true }
  | _ => Effect.throw .unsupportedSource

/-! ### Tables and indexes -/

/-- The schema of a new table. The first column with a suitable option is the generated one. -/
def newSchema (rt : Runtime) (name : Bytes) (columns : List ColumnDef) : TableSchema where
  name := name
  columns := columns.map ColumnDef.name
  autoIncrementCol := (columns.find? fun c ↦ c.options.any fun o ↦
    occursIn (bytes "AUTO_INCREMENT") (rt.uppercase o) ||
      occursIn (bytes "SERIAL") (rt.uppercase o)).map ColumnDef.name
  nextId := 1

/-- `CREATE TABLE`. The catalogue is written to the tree directly. -/
def createTable (rt : Runtime) (name : Bytes) (columns : List ColumnDef) : Routine Reply := do
  Effect.modify fun e ↦ { e with schemas := e.schemas.insert name (newSchema rt name columns) }
  let record ← schemasRecord rt
  insertTree rt schemasKey record
  pure { output := bytes "Table created", flush := false }

/-- `CREATE INDEX`: an entry for each row of the table that has the column. -/
def createIndex (rt : Runtime) (name : Option Bytes) (tableName : Bytes) (columns : List Expr)
    (conn : Nat) : Routine Reply := do
  let indexName := name.getD (bytes "unnamed_idx")
  let column ← Effect.ofExcept (match columns with
    | [] => .error EngineError.panicked
    | column :: _ => .ok (rt.display column))
  Effect.modify fun e ↦
    { e with indices := e.indices.insert indexName ⟨indexName, tableName, column⟩ }
  let e ← Effect.get
  let rows ← Effect.ofExcept (e.scanTable rt tableName e.currentVersion)
  Effect.forEach rows fun row ↦
    match row.lookup column, row.lookup keyColumn with
    | some val, some key => do
      let idxKey := indexKey tableName column val
      Effect.modify (install rt ⟨conn, .index, idxKey, .raw key⟩)
      enqueue idxKey (.raw key)
    | _, _ => pure ()
  pure { output := bytes "Index created", flush := false }

/-! ### Transactions -/

/-- `BEGIN`. A transaction that the connection has open is replaced. -/
def beginTransaction (conn : Nat) : Routine Reply := do
  Effect.modify fun e ↦
    { e with activeTransactions :=
      e.activeTransactions.insert conn ⟨e.currentVersion, ∅, e.history.installs.length⟩ }
  pure { output := bytes "Transaction started", flush := false }

/-- The check of `COMMIT` on one key: its stored record is not newer than the snapshot. -/
def validateKey (rt : Runtime) (tx : Transaction) (key : Bytes) : Routine Unit := do
  let data ← fetchKey rt key
  match data with
  | none => pure ()
  | some data =>
    let record ← Effect.ofExcept (rt.decodeRecord data)
    if record.version > tx.snapshotVersion then Effect.throw .conflict else pure ()

/-- The installation of one buffered write by `COMMIT`. -/
def installKey (rt : Runtime) (conn version : Nat) (update : Bytes × Data) : Routine Unit := do
  let record ← Effect.ofExcept (rt.decodeRecord update.2)
  let data := Data.record { record with version := version }
  Effect.modify (install rt ⟨conn, .commit, update.1, data⟩)
  enqueue update.1 data

/-- `COMMIT`. The transaction is closed before its checks. -/
def commit (rt : Runtime) (conn : Nat) : Routine Reply := do
  let e ← Effect.get
  match e.activeTransactions.lookup conn with
  | none => Effect.throw .noActiveTransaction
  | some tx =>
    Effect.modify fun e ↦ { e with activeTransactions := e.activeTransactions.erase conn }
    Effect.forEach ((rt.iterate tx.updates).map Prod.fst) (validateKey rt tx)
    Effect.modify bump
    let e ← Effect.get
    Effect.forEach (rt.iterate tx.updates) (installKey rt conn e.currentVersion)
    pure { output := bytes "Transaction committed", flush := true }

/-- `ROLLBACK` -/
def rollback (conn : Nat) : Routine Reply := do
  Effect.modify fun e ↦ { e with activeTransactions := e.activeTransactions.erase conn }
  pure { output := bytes "Transaction rolled back", flush := false }

/-! ### Statements -/

/-- `Engine::execute_statement` -/
def executeStatement (rt : Runtime) (stmt : Statement) (conn : Nat) : Routine Reply :=
  match stmt with
  | .call modulePath => Effect.ofExcept (match rt.callWasm modulePath with
    | .ok result => .ok { output := bytes "WASM Result: " ++ result, flush := false }
    | .error message => .error (.wasm message))
  | .createIndex name tableName columns => createIndex rt name tableName columns conn
  | .createTable name columns => createTable rt name columns
  | .explain statement =>
    pure { output := bytes "Execution Plan (Titan-Prime):\n- io_uring I/O\n- O_DIRECT DMA\n- Lock-Free ArrayQueue\n- Ping-Pong Double Buffering\n- Statement: " ++ statement
           flush := false }
  | .insert tableName source => do
    let source ← Effect.ofExcept (match source with
      | some source => .ok source
      | none => .error .sourceMissing)
    handleInsert rt tableName source conn
  | .query query => do
    let e ← Effect.get
    let output ← Effect.ofExcept (e.handleQuery rt query conn)
    pure { output := output, flush := false }
  | .update table assignments selection => match table with
    | .table name => handleUpdate rt name assignments selection conn
    | .other => Effect.throw .unsupportedUpdateTarget
  | .delete fromTables selection => match fromTables with
    | [] => Effect.throw .panicked
    | .table name :: _ => handleDelete rt name selection conn
    | .other :: _ => Effect.throw .unsupportedDeleteTarget
  | .other => Effect.throw .unsupportedStatement

/-- The retry loop of `Engine::execute`: an error whose text speaks of a conflict is retried. -/
def executeRetrying (rt : Runtime) (stmt : Statement) (conn : Nat) : Nat → Routine Reply
  | 0 => executeStatement rt stmt conn
  | retries + 1 => fun e ↦
    match executeStatement rt stmt conn e with
    | (.ok reply, e) => (.ok reply, e)
    | (.error err, e) =>
      if occursIn (bytes "conflict") err.message then executeRetrying rt stmt conn retries e
      else (.error err, e)

/-- `Engine::execute` on one command, up to the final `flush_pipeline`. -/
def execute (rt : Runtime) (command : Command) (conn : Nat) : Routine Reply :=
  match command with
  | .flush => pure { output := bytes "Flushed", flush := true, discard := true }
  | .begin => beginTransaction conn
  | .commit => commit rt conn
  | .rollback => rollback conn
  | .statement stmt => executeRetrying rt stmt conn 5

/-- `Engine::new` on empty files. -/
def empty : Engine := { btree := BPlusTree.openEmpty (MemoryTier.new 1024) }

end Engine

end KsSql
