import KsSql.Parser.System

/-!
# A runtime to compute with

`Runtime.plain` and the encoding `plainBincode` make the model executable, so that runs on fixed
requests can be evaluated: clocks that count, random numbers that count, hash maps iterated over in
the order of their lists, and the displayed text of the expressions that such requests contain.
`plainBincode` writes record updates as `bincode` does, and page images and markers by their tags and
numbers only.
-/

namespace KsSql

/-- The displayed text of an expression. -/
def Expr.plainText : Expr → Bytes
  | .identifier name => name
  | .compoundIdentifier qualifier name => dotted (qualifier ++ [name])
  | .value (.number text long) => text ++ if long then bytes "L" else []
  | .value (.singleQuotedString text) => bytes "'" ++ text ++ bytes "'"
  | .value (.other text) => text
  | .binaryOp left op right => left.plainText ++ bytes (match op with
      | .eq => " = "
      | .notEq => " <> "
      | .gt => " > "
      | .lt => " < "
      | .other => " ? ") ++ right.plainText
  | .nested inner => bytes "(" ++ inner.plainText ++ bytes ")"
  | .other text => text

/-- A byte string behind its length. -/
def plainBytes (b : Bytes) : Bytes := u64le b.length ++ b

/-- The encoding of a record's value. -/
def Payload.plain : Payload → Bytes
  | .row columns => u64le columns.size ++
      (columns.toList.map fun c ↦ plainBytes c.1 ++ plainBytes c.2).flatten
  | .schemas tables => u64le tables.size ++ (tables.toList.map fun t ↦
      plainBytes t.1 ++ plainBytes t.2.name ++ u64le t.2.columns.length ++
        (t.2.columns.map plainBytes).flatten ++ (match t.2.autoIncrementCol with
          | none => [0]
          | some column => 1 :: plainBytes column) ++ u64le t.2.nextId).flatten

/-- The encoding of a record. -/
def Record.plain (r : Record) : Bytes :=
  plainBytes r.value.plain ++ u64le r.version ++ [if r.isDeleted then 1 else 0] ++
    u64le (r.timestamp % 2 ^ 64).toNat

/-- The bytes of a stored byte string. -/
def Data.plain : Data → Bytes
  | .record r => r.plain
  | .raw key => key

/-- The encoding of a log entry. -/
def WalEntry.plain : WalEntry Bytes Data → Bytes
  | .pageUpdate pageId _ => u32le 0 ++ u32le pageId
  | .recordUpdate key data => u32le 1 ++ plainBytes key ++ plainBytes data.plain
  | .transactionStart txId => u32le 2 ++ u64le txId
  | .transactionCommit txId version timestamp =>
    u32le 3 ++ u64le txId ++ u64le version ++ u64le (timestamp % 2 ^ 64).toNat
  | .transactionRollback txId => u32le 4 ++ u64le txId

/-- A runtime to compute with. -/
def Runtime.plain : Runtime where
  search := .std
  iterate := HashMap.toList
  iterate_perm _ := List.Perm.refl _
  timestamp n := n
  nanos n := n
  random n := UInt64.ofNat n
  display := Expr.plainText
  uppercase text := text.map fun c ↦ if 97 ≤ c && c ≤ 122 then c - 32 else c
  aggregate _ _ rows := bytes (toString rows)
  callWasm _ := .error []
  rawRecord _ := none
  schemasRow _ := none
  recordBytes := Record.plain
  payloadBytes := Payload.plain

/-- An encoding to compute with. Its decoder knows the entries it is given. -/
@[reducible] def plainBincode (entries : List (WalEntry Bytes Data)) : Bincode (WalEntry Bytes Data) where
  serialize := WalEntry.plain
  deserialize encoded := entries.find? fun entry ↦ entry.plain == encoded

/-- The encoding of what a run logs. -/
@[reducible] def encodingOf (actions : List Action) : Bincode (WalEntry Bytes Data) :=
  let _ := plainBincode []
  plainBincode (((System.start.run .plain actions).map fun s ↦ s.engine.btree.wal.logged).getD [])

/-! ### Requests to run -/

/-- `CREATE TABLE`, with columns without options. -/
def createTableOf (name : String) (columns : List String) : Command :=
  .statement (.createTable (bytes name) (columns.map fun c ↦ ⟨bytes c, []⟩))

/-- `INSERT`, of one row of texts. -/
def insertOf (name : String) (values : List String) : Command :=
  .statement (.insert (bytes name) (some
    ⟨.values [values.map fun v ↦ .value (.singleQuotedString (bytes v))], none⟩))

/-- `INSERT`, of two rows of one text each. -/
def insertTwo (name first second : String) : Command :=
  .statement (.insert (bytes name) (some ⟨.values [[.value (.singleQuotedString (bytes first))],
    [.value (.singleQuotedString (bytes second))]], none⟩))

/-- The condition that a column equals a text. -/
def whereIs (column value : String) : Expr :=
  .binaryOp (.identifier (bytes column)) .eq (.value (.singleQuotedString (bytes value)))

/-- `UPDATE`, setting one column to a text. -/
def updateOf (name column value : String) (selection : Option Expr) : Command :=
  .statement (.update (.table (bytes name))
    [⟨[bytes column], .value (.singleQuotedString (bytes value))⟩] selection)

/-- `DELETE` -/
def deleteOf (name : String) (selection : Option Expr) : Command :=
  .statement (.delete [.table (bytes name)] selection)

/-- `SELECT *` from one table. -/
def selectOf (name : String) (selection : Option Expr) : Query :=
  ⟨.select ⟨[.other], [⟨.table (bytes name), []⟩], selection⟩, none⟩

end KsSql
