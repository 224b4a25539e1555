import KsSql.Util.Bytes

/-!
# Statements

The part of the SQL syntax tree that `parser/engine.rs` looks at. The parser that builds the tree and
the `Display` implementations of its nodes are a library outside this repository. Names are given by
their displayed text, which is all the engine uses of them; the text of an expression is
`Runtime.display` of the engine.

What the engine only distinguishes from everything else is one constructor `other` here: an operator
that no comparison handles, an expression that no `match` mentions, a kind of table that is refused.
-/

namespace KsSql

/-- A literal. -/
inductive Literal
  /-- `Value::Number`; the flag is the suffix of a long number. -/
  | number (text : Bytes) (long : Bool)
  /-- `Value::SingleQuotedString` -/
  | singleQuotedString (text : Bytes)
  /-- Any other literal. -/
  | other (text : Bytes)
  deriving DecidableEq, Repr

/-- The operators that the evaluation of a condition distinguishes. -/
inductive BinaryOperator
  | eq
  | notEq
  | gt
  | lt
  /-- Any other operator. -/
  | other
  deriving DecidableEq, Repr

/-- An expression. -/
inductive Expr
  | identifier (name : Bytes)
  /-- A qualified name: the parts before the last one, and the last one. -/
  | compoundIdentifier (qualifier : List Bytes) (name : Bytes)
  | binaryOp (left : Expr) (op : BinaryOperator) (right : Expr)
  | value (v : Literal)
  | nested (inner : Expr)
  /-- Any other expression. -/
  | other (text : Bytes)
  deriving DecidableEq, Repr

/-- What a `FROM`, an `UPDATE` or a `DELETE` names. -/
inductive TableFactor
  | table (name : Bytes)
  /-- A subquery, a table function, and so on. -/
  | other
  deriving DecidableEq, Repr

/-- The join operators: an inner join with a condition, or any other. -/
inductive JoinOperator
  | innerOn (condition : Expr)
  | other
  deriving DecidableEq, Repr

/-- A join. -/
structure Join where
  relation : TableFactor
  joinOperator : JoinOperator
  deriving DecidableEq, Repr

/-- A table with the tables joined to it. -/
structure TableWithJoins where
  relation : TableFactor
  joins : List Join
  deriving DecidableEq, Repr

/-- An item of a projection: a function call, with its first argument if that is a plain
identifier, or any other item. -/
inductive SelectItem
  | function (name : Bytes) (argument : Option Bytes)
  | other
  deriving DecidableEq, Repr

/-- A `SELECT`. -/
structure Select where
  projection : List SelectItem
  fromTables : List TableWithJoins
  selection : Option Expr
  deriving DecidableEq, Repr

/-- The body of a query. -/
inductive SetExpr
  | select (s : Select)
  /-- The rows of a `VALUES`. -/
  | values (rows : List (List Expr))
  | other
  deriving DecidableEq, Repr

/-- A query. -/
structure Query where
  body : SetExpr
  limit : Option Expr
  deriving DecidableEq, Repr

/-- A column of a `CREATE TABLE`, with the displayed text of each of its options. -/
structure ColumnDef where
  name : Bytes
  options : List Bytes
  deriving DecidableEq, Repr

/-- An assignment of an `UPDATE`, to a column given by the parts of its name. -/
structure Assignment where
  id : List Bytes
  value : Expr
  deriving DecidableEq, Repr

/-- A statement. -/
inductive Statement
  | createIndex (name : Option Bytes) (tableName : Bytes) (columns : List Expr)
  | createTable (name : Bytes) (columns : List ColumnDef)
  /-- `EXPLAIN`, with the printed form of the statement explained. -/
  | explain (statement : Bytes)
  | insert (tableName : Bytes) (source : Option Query)
  | query (q : Query)
  | update (table : TableFactor) (assignments : List Assignment) (selection : Option Expr)
  | delete (fromTables : List TableFactor) (selection : Option Expr)
  /-- `CALL`, with its second word. -/
  | call (modulePath : Bytes)
  /-- Any other statement. -/
  | other
  deriving DecidableEq, Repr

/-- What a request asks for. -/
inductive Command
  /-- `FLUSH` -/
  | flush
  /-- `BEGIN` or `BEGIN TRANSACTION` -/
  | begin
  /-- `COMMIT` -/
  | commit
  /-- `ROLLBACK` -/
  | rollback
  /-- A statement that the SQL parser reads. -/
  | statement (s : Statement)
  deriving DecidableEq, Repr

end KsSql
