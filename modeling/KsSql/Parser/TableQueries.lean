import KsSql.Parser.Conditions
import KsSql.Parser.Selects
import KsSql.Util.Filters

/-!
# Queries of one table, as relational queries

`TableQuery` is a query of one table: some of its columns, all of them or the number of rows, with an
optional comparison and an optional limit. `TableQuery.answer` is what it asks for in relational terms:
of the rows that satisfy the comparison the first ones, projected, or their number.

The engine's answer differs. It shows every column of the table whatever the query lists, it counts behind
the limit, it compares texts, and it considers one row only if an index has an entry for the value
compared with. `TableQuery.Fits` says when this comes to the same (`select_iff`).
-/

namespace KsSql

open Engine

/-! ### The table that a query prints -/

/-- What a query prints, as a table: a heading for each column, and rows that may have nothing in a
column. -/
structure Answer where
  headings : List Bytes
  rows : List (List (Option Bytes))
  deriving DecidableEq

/-- The printed form: an empty cell is `NULL`. -/
def Answer.text (a : Answer) : Bytes :=
  heading a.headings ++
    (a.rows.map fun cells ↦ line (cells.map fun cell ↦ cell.getD (bytes "NULL"))).flatten

/-- A cell to be displayed: the column under its qualified name, or else under its own. -/
def shownCell (row : Row) (column : Bytes) : Option Bytes :=
  match row.lookup column with
  | some val => some val
  | none => match column.splitOn 46 with
    | [_, name] => row.lookup name
    | _ => none

theorem cell_eq (row : Row) (column : Bytes) :
    cell row column = (shownCell row column).getD (bytes "NULL") := by
  rw [cell, shownCell]
  rcases row.lookup column with - | val
  · rcases column.splitOn 46 with - | ⟨a, - | ⟨b, - | ⟨c, l⟩⟩⟩ <;> rfl
  · rfl

/-- The table that a projection makes of rows. -/
def answerOf (rt : Runtime) (projection : List SelectItem) (displayCols : List Bytes)
    (rows : List Row) : Answer :=
  if isAggregate rt projection then
    let items := projection.map (aggregateItem rt rows)
    ⟨items.map Prod.fst, [items.map fun item ↦ some item.2]⟩
  else ⟨displayCols, rows.map fun row ↦ displayCols.map (shownCell row)⟩

theorem render_eq_text (rt : Runtime) (projection : List SelectItem) (displayCols : List Bytes)
    (rows : List Row) :
    render rt projection displayCols rows = (answerOf rt projection displayCols rows).text := by
  rw [render, answerOf]
  split
  · simp only [Answer.text, List.map_cons, List.map_nil, List.flatten_singleton, List.map_map]
    rfl
  · simp only [Answer.text, List.map_map]
    congr 2
    refine List.map_congr_left fun row _ ↦ congrArg line ?_
    simp only [List.map_map]
    exact List.map_congr_left fun column _ ↦ cell_eq row column

/-- The table that a query of a connection prints. -/
def Engine.answer (rt : Runtime) (e : Engine) (query : Query) (conn : Nat) :
    Except EngineError Answer :=
  match query.body with
  | .select select => (e.selectRows rt (e.readVersion conn) select).map fun x ↦
      answerOf rt select.projection x.1 (limitRows query.limit x.2)
  | _ => .error .unsupportedQueryType

theorem Engine.handleQuery_eq_answer (rt : Runtime) (e : Engine) (query : Query) (conn : Nat) :
    e.handleQuery rt query conn = (e.answer rt query conn).map Answer.text := by
  rw [handleQuery, answer]
  rcases query.body with select | rows | -
  · dsimp only
    rcases e.selectRows rt (e.readVersion conn) select with err | ⟨displayCols, rows⟩
    · rfl
    · exact congrArg Except.ok (render_eq_text rt _ _ _)
  · rfl
  · rfl

/-! ### Queries -/

/-- What a query asks for: columns, all columns, or the number of rows, by a name of `COUNT`. -/
inductive Projection
  | columns (names : List Bytes)
  | all
  | count (name : Bytes)

/-- A limit, of at least one row. -/
structure Limit where
  digits : Bytes
  isDigit : ∀ d ∈ digits, 48 ≤ d ∧ d ≤ 57
  pos : 1 ≤ digits.foldl (fun (n : Nat) (d : UInt8) ↦ 10 * n + (d.toNat - 48)) 0

/-- The number of rows. -/
def Limit.value (limit : Limit) : Nat :=
  limit.digits.foldl (fun (n : Nat) (d : UInt8) ↦ 10 * n + (d.toNat - 48)) 0

/-- A comparison in a `WHERE`. -/
structure WhereClause where
  left : Operand
  op : Comparison
  right : Operand

/-- A query of one table. -/
structure TableQuery where
  projection : Projection
  clause : Option WhereClause
  limit : Option Limit

/-! ### As the SQL parser reads it -/

/-- The items of a projection, of which the engine knows functions only. -/
def Projection.items : Projection → List SelectItem
  | .columns names => names.map fun _ ↦ .other
  | .all => [.other]
  | .count name => [.function name none]

def WhereClause.toExpr (w : WhereClause) : Expr :=
  .binaryOp w.left.toExpr w.op.toOperator w.right.toExpr

/-- The condition of the query. -/
def TableQuery.selection (q : TableQuery) : Option Expr := q.clause.map WhereClause.toExpr

def TableQuery.toQuery (q : TableQuery) (t : Bytes) : Query :=
  ⟨.select (Engine.queryOf q.projection.items t q.selection),
    q.limit.map fun limit ↦ .value (.number limit.digits false)⟩

/-! ### What it asks for -/

/-- The value of an operand on a row of the table, if the row has one. -/
def Operand.cell (columns : Row) : Operand → Option CellValue
  | .identifier name => (columns.lookup name).map .text
  | .compoundIdentifier _ name => (columns.lookup name).map .text
  | .number n => some (.number n)
  | .string text => some (.text text)

/-- A row satisfies the comparison: it has the values, and they compare. -/
def WhereClause.holds (columns : Row) (w : WhereClause) : Bool :=
  match w.left.cell columns, w.right.cell columns with
  | some a, some b => w.op.compare a b
  | _, _ => false

/-- A row satisfies the query's condition, if it has one. -/
def TableQuery.holds (q : TableQuery) (columns : Row) : Bool := q.clause.all (WhereClause.holds columns)

/-- The first ones of a list, if there is a limit. -/
def Limit.first {α : Type} : Option Limit → List α → List α
  | none, l => l
  | some limit, l => l.take limit.value

/-- **What a query asks for**, of a table with the given rows. -/
def TableQuery.answer (q : TableQuery) (t : Bytes) (schema : TableSchema) (table : List Row) : Answer :=
  let found := table.filter q.holds
  let project := fun names : List Bytes ↦ ⟨names.map (qualified t),
    (Limit.first q.limit found).map fun columns ↦ names.map columns.lookup⟩
  match q.projection with
  | .columns names => project names
  | .all => project schema.columns
  | .count _ => ⟨[bytes "COUNT"], [[some (bytes (toString found.length))]]⟩

/-- An operand that is a column is one of the table's. -/
def Operand.Of (t : Bytes) (names : List Bytes) : Operand → Prop
  | .identifier name => name ∈ names
  | .compoundIdentifier qualifier name => dotted (qualifier ++ [name]) = qualified t name ∧ name ∈ names
  | .number _ => True
  | .string _ => True

/-- The query is one of the table. -/
structure TableQuery.Of (rt : Runtime) (q : TableQuery) (t : Bytes) (schema : TableSchema) : Prop where
  projection : match q.projection with
    | .columns names => ∀ c ∈ names, c ∈ schema.columns
    | .all => True
    | .count name => rt.uppercase name = bytes "COUNT"
  left : ∀ w ∈ q.clause, w.left.Of t schema.columns
  right : ∀ w ∈ q.clause, w.right.Of t schema.columns

/-! ### What the engine considers and keeps -/

/-- A list is not shorter than the limit yet. -/
def Limit.Open : Option Limit → Nat → Prop
  | none, _ => True
  | some limit, k => k < limit.value

/-- A number, but no more than the limit. -/
def Limit.cap : Option Limit → Nat → Nat
  | none, k => k
  | some limit, k => min limit.value k

theorem Limit.length_first {α : Type} (limit : Option Limit) (l : List α) :
    (Limit.first limit l).length = Limit.cap limit l.length := by
  rcases limit with - | limit
  · rfl
  · exact List.length_take

/-- Two tests find the same first rows exactly if they agree until enough are found. -/
theorem Limit.map_first_filter_eq_iff {α β : Type} {f : α → β} {p q : α → Bool} {l : List α}
    (limit : Option Limit) (hp : Decides f p l) (hq : Decides f q l) :
    (Limit.first limit (l.filter p)).map f = (Limit.first limit (l.filter q)).map f ↔
      ∀ before a after, l = before ++ a :: after → Limit.Open limit (before.countP q) → p a = q a := by
  rcases limit with - | limit
  · have hall : ∀ r : α → Bool, Limit.first none (l.filter r) = (l.filter r).take l.length :=
      fun r ↦ (List.take_of_length_le (List.length_filter_le r l)).symm
    rw [hall, hall, map_take_filter_eq_iff hp hq]
    refine forall₄_congr fun before a after heq ↦ imp_congr_left (iff_of_true ?_ trivial)
    rw [heq, List.length_append, List.length_cons]
    exact Nat.lt_of_le_of_lt List.countP_le_length (by omega)
  · exact map_take_filter_eq_iff hp hq limit.value

/-- A number that is written in digits is read as `usize`, unless it is too large. -/
theorem Limit.parseUsize_eq (limit : Limit) :
    parseUsize limit.digits = if limit.value < 2 ^ 64 then some limit.value else none := by
  have hne : limit.digits ≠ [] := by
    intro h
    have hpos := limit.pos
    rw [h] at hpos
    exact absurd hpos (by decide)
  have hall : (limit.digits.all fun d : UInt8 ↦ 48 ≤ d && d ≤ 57) = true :=
    List.all_eq_true.2 fun d hd ↦ by
      rw [Bool.and_eq_true, decide_eq_true_iff, decide_eq_true_iff]
      exact limit.isDigit d hd
  rw [parseUsize]
  · exact if_congr ((and_iff_right hne).trans (and_iff_right hall)) rfl rfl
  · exact fun digits heq ↦ absurd (limit.isDigit 43 (heq ▸ List.mem_cons_self)).1 (by decide)

/-- The limit is a number for the engine, unless it is too large to matter. -/
theorem Limit.limitRows_eq (limit : Option Limit) {rows : List Row} (h : rows.length < 2 ^ 64) :
    limitRows (limit.map fun limit ↦ .value (.number limit.digits false)) rows =
      Limit.first limit rows := by
  rcases limit with - | limit
  · rfl
  rw [Option.map_some, limitRows, limit.parseUsize_eq]
  by_cases hvalue : limit.value < 2 ^ 64
  · rw [if_pos hvalue]
    rfl
  · rw [if_neg hvalue]
    have hlong : rows.length ≤ limit.value := by omega
    exact (List.take_of_length_le hlong).symm

/-- The engine keeps a row that it considers. -/
def TableQuery.kept (rt : Runtime) (t : Bytes) (q : TableQuery) (x : Bytes × Row) : Bool :=
  q.clause.all fun w ↦ occursIn (bytes "VECTOR_SEARCH") (rt.display w.toExpr) ||
    evaluateWhere rt (scannedRow rt t x.1 x.2) w.toExpr

section

variable {rt : Runtime} {t key c : Bytes} {names : List Bytes} {columns : Row} {q : TableQuery}

theorem keptRows_rowsOf (q : TableQuery) (l : List (Bytes × Row)) :
    keptRows rt q.selection (rowsOf rt t l) = rowsOf rt t (l.filter (q.kept rt t)) := by
  rw [keptRows_eq_filter, rowsOf, List.filter_map]
  refine congrArg _ (List.filter_congr fun x _ ↦ ?_)
  show Engine.keeps rt (q.clause.map WhereClause.toExpr) _ = q.clause.all _
  rcases q.clause with - | w <;> rfl

/-! ### A row's columns, through its scanned form -/

theorem getData_identifier (h : columns.Named t names) (hc : c ∈ names) :
    getData rt (scannedRow rt t key columns) (.identifier c) = (columns.lookup c).getD [] := by
  rw [getData, lookup_scannedRow_eq h hc (.inl rfl)]
  rcases hlookup : columns.lookup c with - | v
  · exact congrArg (Option.getD · []) (suffixValue_scannedRow h hc hlookup)
  · rfl

theorem getData_compoundIdentifier {qualifier : List Bytes} (h : columns.Named t names) (hc : c ∈ names)
    (hname : dotted (qualifier ++ [c]) = qualified t c) :
    getData rt (scannedRow rt t key columns) (.compoundIdentifier qualifier c) =
      (columns.lookup c).getD [] := by
  rw [getData, hname, lookup_scannedRow_eq h hc (.inr rfl), lookup_scannedRow_eq h hc (.inl rfl)]
  rcases columns.lookup c with - | v <;> rfl

/-- Rows with the same columns have the same text for an operand. -/
theorem getData_congr {key' : Bytes} {columns' : Row} {operand : Operand} (hop : operand.Of t names)
    (h : columns.Named t names) (h' : columns'.Named t names)
    (hsame : ∀ c ∈ names, columns.lookup c = columns'.lookup c) :
    getData rt (scannedRow rt t key columns) operand.toExpr =
      getData rt (scannedRow rt t key' columns') operand.toExpr := by
  cases operand with
  | identifier c =>
    exact (getData_identifier h hop).trans
      ((congrArg (Option.getD · []) (hsame c hop)).trans (getData_identifier h' hop).symm)
  | compoundIdentifier qualifier c =>
    exact (getData_compoundIdentifier h hop.2 hop.1).trans
      ((congrArg (Option.getD · []) (hsame c hop.2)).trans
        (getData_compoundIdentifier h' hop.2 hop.1).symm)
  | number n =>
    rw [Operand.toExpr]
    split <;> rfl
  | string text => rfl

theorem Operand.cell_congr {columns' : Row} {operand : Operand} (hop : operand.Of t names)
    (hsame : ∀ c ∈ names, columns.lookup c = columns'.lookup c) :
    operand.cell columns = operand.cell columns' := by
  cases operand with
  | identifier c => exact congrArg (Option.map CellValue.text) (hsame c hop)
  | compoundIdentifier qualifier c => exact congrArg (Option.map CellValue.text) (hsame c hop.2)
  | number n => rfl
  | string text => rfl

theorem splitOn_qualified (t c : Bytes) :
    (qualified t c).splitOn 46 = t.splitOn 46 ++ c.splitOn 46 := by
  rw [qualified, List.append_assoc]
  exact List.splitOn_append_cons_self t c

/-- A displayed cell of a scanned row is the column's text. -/
theorem shownCell_scannedRow (h : columns.Named t names) (hc : c ∈ names) :
    shownCell (scannedRow rt t key columns) (qualified t c) = columns.lookup c := by
  rw [shownCell, lookup_scannedRow_eq h hc (.inr rfl)]
  rcases hlookup : columns.lookup c with - | v
  · dsimp only
    split
    · rename_i x name hsplit
      -- the two parts are those before and behind the dot
      rw [splitOn_qualified] at hsplit
      have hparts : c.splitOn 46 = [name] := by
        rcases ht : t.splitOn 46 with - | ⟨a, - | ⟨b, l⟩⟩
        · exact absurd ht (List.splitOn_ne_nil 46 t)
        · rw [ht] at hsplit
          exact (List.cons.inj hsplit).2
        · rw [ht] at hsplit
          have hrest := (List.cons.inj (List.cons.inj hsplit).2).2
          exact absurd (List.append_eq_nil_iff.1 hrest).2 (List.splitOn_ne_nil 46 c)
      obtain rfl : c = name := by
        have hjoined : ([46] : Bytes).intercalate (c.splitOn 46) = c := List.intercalate_splitOn 46
        rw [← hjoined, hparts]
        exact List.append_nil name
      rw [lookup_scannedRow_eq h hc (.inl rfl), hlookup]
    · rfl
  · rfl

end

/-! ### The engine's answer -/

/-- The cells that a row of the table has. -/
def TableSchema.cells (schema : TableSchema) (x : Bytes × Row) : List (Option Bytes) :=
  schema.columns.map x.2.lookup

/-- The result of `COUNT`, for as many rows as a floating-point number counts exactly. -/
def Runtime.Counts (rt : Runtime) : Prop :=
  ∀ texts n, n ≤ 2 ^ 53 → rt.aggregate (bytes "COUNT") texts n = bytes (toString n)

/-- The engine's answer to a query that considers the given rows. -/
def TableQuery.engineAnswer (rt : Runtime) (q : TableQuery) (t : Bytes) (schema : TableSchema)
    (l : List (Bytes × Row)) : Answer :=
  match q.projection with
  | .count _ => ⟨[bytes "COUNT"],
      [[some (bytes (toString (Limit.cap q.limit (l.countP (q.kept rt t)))))]]⟩
  | _ => ⟨schema.columns.map (qualified t),
      (Limit.first q.limit (l.filter (q.kept rt t))).map schema.cells⟩

section

variable {rt : Runtime} {t : Bytes} {schema : TableSchema} {q : TableQuery}

theorem Limit.first_map {α β : Type} (limit : Option Limit) (f : α → β) (l : List α) :
    Limit.first limit (l.map f) = (Limit.first limit l).map f := by
  rcases limit with - | limit
  · rfl
  · exact List.map_take.symm

theorem Limit.mem_of_mem_first {α : Type} {limit : Option Limit} {l : List α} {a : α}
    (h : a ∈ Limit.first limit l) : a ∈ l := by
  rcases limit with - | limit
  · exact h
  · exact List.mem_of_mem_take h

theorem isAggregate_items (hq : q.Of rt t schema) :
    isAggregate rt q.projection.items = true ↔ ∃ name, q.projection = .count name := by
  have hproj := hq.projection
  rcases hp : q.projection with names | - | name
  · refine iff_of_false (fun h ↦ ?_) fun ⟨_, h⟩ ↦ nomatch h
    obtain ⟨item, hitem, h⟩ := List.any_eq_true.1 h
    obtain ⟨_, _, rfl⟩ := List.mem_map.1 hitem
    cases h
  · exact iff_of_false (fun h ↦ nomatch h) fun ⟨_, h⟩ ↦ nomatch h
  · rw [hp] at hproj
    refine iff_of_true ?_ ⟨name, rfl⟩
    show (decide (rt.uppercase name ∈ aggregateNames) || false) = true
    rw [show rt.uppercase name = bytes "COUNT" from hproj]
    decide

/-- **The engine's answer, by the rows that it considers.** -/
theorem answerOf_rowsOf (hcounts : rt.Counts) (hq : q.Of rt t schema) {l : List (Bytes × Row)}
    (hnames : ∀ x ∈ l, x.2.Named t schema.columns) (hlen : l.length ≤ 2 ^ 53) :
    answerOf rt q.projection.items (schema.columns.map (qualified t))
        (limitRows (q.limit.map fun limit ↦ .value (.number limit.digits false))
          (keptRows rt q.selection (rowsOf rt t l))) =
      q.engineAnswer rt t schema l := by
  have hkept : (l.filter (q.kept rt t)).length ≤ 2 ^ 53 := (List.length_filter_le _ l).trans hlen
  have hrows : limitRows (q.limit.map fun limit ↦ .value (.number limit.digits false))
      (keptRows rt q.selection (rowsOf rt t l)) =
        rowsOf rt t (Limit.first q.limit (l.filter (q.kept rt t))) := by
    rw [keptRows_rowsOf, Limit.limitRows_eq]
    · exact Limit.first_map _ _ _
    · rw [rowsOf, List.length_map]
      exact hkept.trans_lt (by decide)
  have hcells : (rowsOf rt t (Limit.first q.limit (l.filter (q.kept rt t)))).map (fun row ↦
      (schema.columns.map (qualified t)).map (shownCell row)) =
        (Limit.first q.limit (l.filter (q.kept rt t))).map schema.cells := by
    rw [rowsOf, List.map_map]
    refine List.map_congr_left fun x hx ↦ ?_
    show (schema.columns.map (qualified t)).map (shownCell (scannedRow rt t x.1 x.2)) = _
    rw [List.map_map]
    exact List.map_congr_left fun c hc ↦ shownCell_scannedRow
      (hnames x (List.mem_of_mem_filter (Limit.mem_of_mem_first hx))) hc
  have haggregate := isAggregate_items hq
  have hproj := hq.projection
  rw [hrows, answerOf, TableQuery.engineAnswer]
  rcases hp : q.projection with names | - | name
  · rw [hp] at haggregate
    rw [if_neg (mt haggregate.1 (by rintro ⟨-, ⟨⟩⟩))]
    exact congrArg (Answer.mk _) hcells
  · rw [hp] at haggregate
    rw [if_neg (mt haggregate.1 (by rintro ⟨-, ⟨⟩⟩))]
    exact congrArg (Answer.mk _) hcells
  · rw [hp] at haggregate hproj
    rw [if_pos (haggregate.2 ⟨name, rfl⟩)]
    have hcount : (rowsOf rt t (Limit.first q.limit (l.filter (q.kept rt t)))).length =
        Limit.cap q.limit (l.countP (q.kept rt t)) := by
      rw [rowsOf, List.length_map, Limit.length_first, List.countP_eq_length_filter]
    have hle : Limit.cap q.limit (l.countP (q.kept rt t)) ≤ 2 ^ 53 := by
      rw [← hcount, rowsOf, List.length_map]
      refine le_trans ?_ hkept
      rw [Limit.length_first]
      rcases q.limit with - | limit
      · exact le_refl _
      · exact min_le_right _ _
    simp only [Projection.items, List.map_cons, List.map_nil, aggregateItem]
    rw [show rt.uppercase name = bytes "COUNT" from hproj, hcount, hcounts _ _ hle]

end

/-! ### When the two agree -/

namespace TableQuery

variable (rt : Runtime) (q : TableQuery) (t : Bytes) (schema : TableSchema)

/-- Until enough rows are found, the engine keeps those that satisfy the condition. -/
def KeepsAlong (table : List (Bytes × Row)) : Prop :=
  ∀ before x after, table = before ++ x :: after →
    Limit.Open q.limit (before.countP fun x ↦ q.holds x.2) → q.kept rt t x = q.holds x.2

/-- A query that is answered by a scan lists all columns in their order, and the engine keeps the rows
that satisfy the condition, until there are enough. To be counted, so many rows have to satisfy the
condition as the engine keeps, but no more than the limit. -/
def FitsScan (table : List (Bytes × Row)) : Prop :=
  match q.projection with
  | .columns names => names = schema.columns ∧ q.KeepsAlong rt t table
  | .all => q.KeepsAlong rt t table
  | .count _ => Limit.cap q.limit (table.countP (q.kept rt t)) = table.countP fun x ↦ q.holds x.2

/-- The first rows that satisfy the condition have the cells of the one row that an index leads to; or
there are none, and the engine does not keep that row. -/
def Only (found : Bytes × Row) (table : List (Bytes × Row)) : Prop :=
  (Limit.first q.limit (table.filter fun x ↦ q.holds x.2)).map schema.cells =
    if q.kept rt t found then [schema.cells found] else []

/-- A query that is answered by an index lists all columns in their order, and asks for one row only, with
the cells of the row that the index leads to. -/
def FitsIndex (found : Bytes × Row) (table : List (Bytes × Row)) : Prop :=
  match q.projection with
  | .columns names => names = schema.columns ∧ q.Only rt t schema found table
  | .all => q.Only rt t schema found table
  | .count _ => (table.countP fun x ↦ q.holds x.2) = if q.kept rt t found then 1 else 0

/-- **When a query is answered as a relational query.** -/
def Fits (e : Engine) (version : Nat) : Prop :=
  let scan := Scannable id rt t version (e.entries rt) [] ∧
    q.FitsScan rt t schema (e.scanned rt t version)
  match (indexLookup rt q.selection).bind fun x ↦ e.indexTarget rt t x.1 x.2 with
  | none => scan
  | some (target, data) => rt.Readable version data ∧ match rt.shown version data with
    | none => scan
    | some found => q.FitsIndex rt t schema (target, found) (e.scanned rt t version)

end TableQuery

/-- The names of a table's columns are told apart in the rows that a query considers. -/
structure TableQuery.NamesTold (rt : Runtime) (q : TableQuery) (t : Bytes) (schema : TableSchema)
    (e : Engine) (version : Nat) : Prop where
  scanned : ∀ x ∈ e.scanned rt t version, x.2.Named t schema.columns
  indexed : ∀ x ∈ indexLookup rt q.selection, ∀ y ∈ e.indexTarget rt t x.1 x.2,
    ∀ found ∈ rt.shown version y.2, found.Named t schema.columns

section

variable {rt : Runtime} {e : Engine} {N : Bytes → Prop} {version : Nat} {t : Bytes}
  {schema : TableSchema} {q : TableQuery} {l : List (Bytes × Row)}

/-- What is asked for, by the rows of the table with their keys. -/
theorem TableQuery.answer_map_snd (q : TableQuery) (t : Bytes) (schema : TableSchema)
    (table : List (Bytes × Row)) : q.answer t schema (table.map Prod.snd) =
      let found := table.filter fun x ↦ q.holds x.2
      let project := fun names : List Bytes ↦ ⟨names.map (qualified t),
        (Limit.first q.limit found).map fun x ↦ names.map x.2.lookup⟩
      match q.projection with
      | .columns names => project names
      | .all => project schema.columns
      | .count _ => ⟨[bytes "COUNT"], [[some (bytes (toString found.length))]]⟩ := by
  have hfound : (table.map Prod.snd).filter q.holds = (table.filter fun x ↦ q.holds x.2).map Prod.snd :=
    List.filter_map
  rw [answer, hfound]
  simp only [Limit.first_map, List.map_map, List.length_map]
  rfl

/-- The cells of a row decide whether it satisfies the condition. -/
theorem TableQuery.decides_holds (hq : q.Of rt t schema) :
    Decides schema.cells (fun x ↦ q.holds x.2) l := by
  intro a _ b _ hcells
  have hsame : ∀ c ∈ schema.columns, a.2.lookup c = b.2.lookup c := List.map_inj_left.1 hcells
  show q.clause.all _ = q.clause.all _
  rcases hclause : q.clause with - | w
  · rfl
  · show WhereClause.holds a.2 w = WhereClause.holds b.2 w
    rw [WhereClause.holds, WhereClause.holds, Operand.cell_congr (hq.left w hclause) hsame,
      Operand.cell_congr (hq.right w hclause) hsame]

/-- And whether the engine keeps it. -/
theorem TableQuery.decides_kept (hq : q.Of rt t schema)
    (hnames : ∀ x ∈ l, x.2.Named t schema.columns) : Decides schema.cells (q.kept rt t) l := by
  intro a ha b hb hcells
  have hsame : ∀ c ∈ schema.columns, a.2.lookup c = b.2.lookup c := List.map_inj_left.1 hcells
  show q.clause.all _ = q.clause.all _
  rcases hclause : q.clause with - | w
  · rfl
  · have hleft : getData rt (scannedRow rt t a.1 a.2) w.left.toExpr =
        getData rt (scannedRow rt t b.1 b.2) w.left.toExpr :=
      getData_congr (hq.left w hclause) (hnames a ha) (hnames b hb) hsame
    have hright : getData rt (scannedRow rt t a.1 a.2) w.right.toExpr =
        getData rt (scannedRow rt t b.1 b.2) w.right.toExpr :=
      getData_congr (hq.right w hclause) (hnames a ha) (hnames b hb) hsame
    refine congrArg (occursIn (bytes "VECTOR_SEARCH") (rt.display w.toExpr) || ·) ?_
    simp only [WhereClause.toExpr, evaluateWhere]
    rw [hleft, hright]

/-- The answer of a scan is the one asked for. -/
theorem TableQuery.engineAnswer_eq_iff (hq : q.Of rt t schema)
    (hnames : ∀ x ∈ l, x.2.Named t schema.columns) :
    q.engineAnswer rt t schema l = q.answer t schema (l.map Prod.snd) ↔ q.FitsScan rt t schema l := by
  have hrows := Limit.map_first_filter_eq_iff q.limit (q.decides_kept hq hnames)
    (q.decides_holds (l := l) hq)
  rw [answer_map_snd, engineAnswer, FitsScan]
  rcases q.projection with names | - | name
  · simp only [Answer.mk.injEq]
    have hheadings : schema.columns.map (qualified t) = names.map (qualified t) ↔
        names = schema.columns := by
      rw [(List.map_injective_iff.2 fun _ _ ↦ qualified_injective).eq_iff, eq_comm]
    rw [hheadings]
    refine and_congr_right fun hall ↦ ?_
    rw [hall]
    exact hrows
  · simp only [Answer.mk.injEq, true_and]
    exact hrows
  · simp only [Answer.mk.injEq, List.cons.injEq, and_true, true_and, Option.some.injEq,
      bytes_toString_inj, List.countP_eq_length_filter]

/-- The answer of an index is the one asked for. -/
theorem TableQuery.engineAnswer_singleton_eq_iff (q : TableQuery) (found : Bytes × Row) :
    q.engineAnswer rt t schema [found] = q.answer t schema (l.map Prod.snd) ↔
      q.FitsIndex rt t schema found l := by
  have hfirst : (Limit.first q.limit ([found].filter (q.kept rt t))).map schema.cells =
      if q.kept rt t found then [schema.cells found] else [] := by
    have hone : Limit.first q.limit ([found].filter (q.kept rt t)) = [found].filter (q.kept rt t) := by
      rcases q.limit with - | limit
      · rfl
      · exact List.take_of_length_le ((List.length_filter_le _ _).trans limit.pos)
    rw [hone, List.filter_singleton]
    cases q.kept rt t found <;> rfl
  have hcap : Limit.cap q.limit ([found].countP (q.kept rt t)) = if q.kept rt t found then 1 else 0 := by
    have hcount : [found].countP (q.kept rt t) = if q.kept rt t found then 1 else 0 :=
      List.countP_singleton
    rcases q.limit with - | limit
    · exact hcount
    · rw [hcount]
      refine min_eq_right (le_trans ?_ limit.pos)
      split <;> decide
  rw [answer_map_snd, engineAnswer, FitsIndex]
  rcases q.projection with names | - | name
  · simp only [Answer.mk.injEq, hfirst]
    rw [(List.map_injective_iff.2 fun _ _ ↦ qualified_injective).eq_iff, eq_comm]
    refine and_congr_right fun hall ↦ ?_
    rw [hall]
    exact eq_comm
  · simp only [Answer.mk.injEq, true_and, hfirst]
    exact eq_comm
  · simp only [Answer.mk.injEq, List.cons.injEq, and_true, true_and, Option.some.injEq,
      bytes_toString_inj, hcap, ← List.countP_eq_length_filter]
    exact eq_comm

/-- A query of one table is answered from the rows that `scan_table_with_filter` finds. -/
theorem Engine.answer_eq (hschema : e.schemas.lookup t = some schema) (q : TableQuery) (conn : Nat) :
    e.answer rt (q.toQuery t) conn =
      (e.scanTableWithFilter rt t (e.readVersion conn) q.selection).map fun rows ↦
        answerOf rt q.projection.items (schema.columns.map (qualified t))
          (limitRows (q.limit.map fun limit ↦ .value (.number limit.digits false))
            (keptRows rt q.selection rows)) := by
  show (e.selectRows rt (e.readVersion conn) (queryOf q.projection.items t q.selection)).map _ = _
  rw [selectRows_eq hschema]
  rcases e.scanTableWithFilter rt t (e.readVersion conn) q.selection with err | rows <;> rfl

/-- What is made of the rows of a scan, if it does not fail. -/
theorem Engine.Coherent.map_scanTable_eq_ok_iff {α : Type} (h : e.Coherent rt N) (f : List Row → α) (a : α) :
    (e.scanTable rt t version).map f = .ok a ↔
      Scannable id rt t version (e.entries rt) [] ∧ f (rowsOf rt t (e.scanned rt t version)) = a := by
  rw [← scanTable_isOk_iff h.sound]
  rcases hrows : e.scanTable rt t version with err | rows
  · exact iff_of_false (fun heq ↦ nomatch heq) fun heq ↦ nomatch heq.1.choose_spec
  · rw [← scanTable_eq h.sound hrows, and_iff_right ⟨rows, rfl⟩]
    exact iff_of_eq (Except.ok.injEq _ _)

end

/-- **When a query of one table is answered as the relational query.** In any state that a run reaches, the
table that the query prints is what it asks for exactly if it lists all columns of the table, and the engine
keeps the rows that satisfy its condition until there are enough; a count has to come to the same behind the
limit; and what an index leads to has to be all there is. -/
theorem select_iff [Bincode (WalEntry Bytes Data)] {rt : Runtime} {actions : List Action} {s : System}
    (hrun : System.start.run rt actions = some s) (hbounded : s.engine.Bounded) (hcounts : rt.Counts)
    {conn : Nat} {t : Bytes} {schema : TableSchema} {q : TableQuery}
    (hschema : s.engine.schemas.lookup t = some schema) (hq : q.Of rt t schema)
    (hnames : q.NamesTold rt t schema s.engine (s.engine.readVersion conn))
    (hrows : (s.engine.scanned rt t (s.engine.readVersion conn)).length ≤ 2 ^ 53) :
    s.engine.handleQuery rt (q.toQuery t) conn =
        (s.engine.answer rt (q.toQuery t) conn).map Answer.text ∧
      (s.engine.answer rt (q.toQuery t) conn =
          .ok (q.answer t schema ((s.engine.scanned rt t (s.engine.readVersion conn)).map Prod.snd)) ↔
        q.Fits rt t schema s.engine (s.engine.readVersion conn)) := by
  refine ⟨s.engine.handleQuery_eq_answer rt (q.toQuery t) conn, ?_⟩
  have hco := System.coherent_of_run hrun hbounded
  have hscan : ((s.engine.scanTable rt t (s.engine.readVersion conn)).map fun rows ↦
        answerOf rt q.projection.items (schema.columns.map (qualified t))
          (limitRows (q.limit.map fun limit ↦ .value (.number limit.digits false))
            (keptRows rt q.selection rows))) =
        .ok (q.answer t schema ((s.engine.scanned rt t (s.engine.readVersion conn)).map Prod.snd)) ↔
      Scannable id rt t (s.engine.readVersion conn) (s.engine.entries rt) [] ∧
        q.FitsScan rt t schema (s.engine.scanned rt t (s.engine.readVersion conn)) := by
    rw [hco.map_scanTable_eq_ok_iff, answerOf_rowsOf hcounts hq hnames.scanned hrows,
      q.engineAnswer_eq_iff hq hnames.scanned]
  rw [answer_eq hschema, scanTableWithFilter, TableQuery.Fits]
  rcases hlookup : indexLookup rt q.selection with - | ⟨column, value⟩
  · exact hscan
  dsimp only [Option.bind_some]
  rw [hco.probeIndex_eq]
  rcases htarget : s.engine.indexTarget rt t column value with - | ⟨target, data⟩
  · exact hscan
  dsimp only
  by_cases hreadable : rt.Readable (s.engine.readVersion conn) data
  · rw [Runtime.read_of_readable hreadable, and_iff_right hreadable]
    rcases hshown : rt.shown (s.engine.readVersion conn) data with - | found
    · exact hscan
    · show Except.ok (answerOf rt _ _ (limitRows _ (keptRows rt q.selection
        (rowsOf rt t [(target, found)])))) = _ ↔ _
      rw [answerOf_rowsOf hcounts hq (List.forall_mem_singleton.2
        (hnames.indexed _ hlookup _ htarget found hshown)) Nat.one_le_two_pow, Except.ok.injEq]
      exact q.engineAnswer_singleton_eq_iff (target, found)
  · rcases hread : rt.read (s.engine.readVersion conn) data with err | shown
    · refine iff_of_false ?_ fun h ↦ hreadable h.1
      rintro ⟨⟩
    · exact absurd (Runtime.readable_of_read hread) hreadable

/-! ### A table of pairs -/

/-- A table with two columns, and two rows. -/
def insertPairs : List Action :=
  [.call 1 (createTableOf "p" ["a", "b"]), .call 1 (insertOf "p" ["1", "x"]),
    .flushRound, .flushRound, .flushRound, .call 1 (insertOf "p" ["2", "y"])]

/-- Its schema. -/
def pairSchema : TableSchema := ⟨bytes "p", [bytes "a", bytes "b"], none, 1⟩

/-- `LIMIT 1` -/
def oneRow : Limit where
  digits := [49]
  isDigit := List.forall_mem_singleton.2 (by decide)
  pos := by decide

/-- `SELECT * FROM p WHERE a = '2' LIMIT 1` -/
def secondPair : TableQuery where
  projection := .all
  clause := some ⟨.identifier (bytes "a"), .eq, .string (bytes "2")⟩
  limit := some oneRow

/-- `SELECT COUNT(*) FROM p LIMIT 1` -/
def countPairs : TableQuery where
  projection := .count (bytes "COUNT")
  clause := none
  limit := some oneRow

theorem counts_plain : Runtime.plain.Counts := fun _ _ _ ↦ rfl

/-- The two rows are in the table, without an index, and the engine counts one of them. -/
theorem exists_pairs : let _ := plainBincode []
    ∃ s, System.start.run .plain insertPairs = some s ∧ s.engine.Bounded ∧
      s.engine.schemas.lookup (bytes "p") = some pairSchema ∧
      (∀ x ∈ s.engine.scanned .plain (bytes "p") (s.engine.readVersion 1),
        x.2.Named (bytes "p") pairSchema.columns) ∧
      (s.engine.scanned .plain (bytes "p") (s.engine.readVersion 1)).length ≤ 2 ^ 53 ∧
      s.engine.indexTarget .plain (bytes "p") (bytes "a") (bytes "2") = none ∧
      (s.engine.answer .plain (countPairs.toQuery (bytes "p")) 1).toOption ≠
        some (countPairs.answer (bytes "p") pairSchema
          ((s.engine.scanned .plain (bytes "p") (s.engine.readVersion 1)).map Prod.snd)) := by
  let _ := plainBincode []
  obtain ⟨s, hs⟩ : ∃ s, System.start.run .plain insertPairs = some s :=
    Option.isSome_iff_exists.1 (by decide +kernel)
  have hall : (System.start.run .plain insertPairs).all (fun s ↦
      s.engine.btree.pager.handedOut.length < 2 ^ 32 ∧ s.engine.history.bumps < 2 ^ 64 ∧
        s.engine.schemas.lookup (bytes "p") = some pairSchema ∧
        (∀ x ∈ s.engine.scanned .plain (bytes "p") (s.engine.readVersion 1),
          x.2.Named (bytes "p") pairSchema.columns) ∧
        (s.engine.scanned .plain (bytes "p") (s.engine.readVersion 1)).length ≤ 2 ^ 53 ∧
        s.engine.indexTarget .plain (bytes "p") (bytes "a") (bytes "2") = none ∧
        (s.engine.answer .plain (countPairs.toQuery (bytes "p")) 1).toOption ≠
          some (countPairs.answer (bytes "p") pairSchema
            ((s.engine.scanned .plain (bytes "p") (s.engine.readVersion 1)).map Prod.snd))) = true := by
    decide +kernel
  rw [hs, Option.all_some, decide_eq_true_iff] at hall
  obtain ⟨hpages, hbumps, hrest⟩ := hall
  exact ⟨s, hs, ⟨hpages, hbumps⟩, hrest⟩

theorem select_iff_second : let _ := plainBincode []
    ∃ s, System.start.run .plain insertPairs = some s ∧
      s.engine.handleQuery .plain (secondPair.toQuery (bytes "p")) 1 =
          (s.engine.answer .plain (secondPair.toQuery (bytes "p")) 1).map Answer.text ∧
        (s.engine.answer .plain (secondPair.toQuery (bytes "p")) 1 =
          .ok (secondPair.answer (bytes "p") pairSchema
            ((s.engine.scanned .plain (bytes "p") (s.engine.readVersion 1)).map Prod.snd)) ↔
        secondPair.Fits .plain (bytes "p") pairSchema s.engine (s.engine.readVersion 1)) := by
  let _ := plainBincode []
  obtain ⟨s, hs, hbounded, hschema, hscanned, hrows, hindex, -⟩ := exists_pairs
  refine ⟨s, hs, select_iff hs hbounded counts_plain hschema ⟨trivial, ?_, ?_⟩ ⟨hscanned, ?_⟩ hrows⟩
  · rintro w ⟨⟩
    exact List.mem_cons_self
  · rintro w ⟨⟩
    trivial
  · rintro x ⟨⟩ y hy
    exact nomatch hindex.symm.trans hy

/-- A count is taken behind the limit. -/
theorem not_select : ¬ ∀ (_ : Bincode (WalEntry Bytes Data)) (rt : Runtime) (actions : List Action)
    (s : System) (conn : Nat) (t : Bytes) (schema : TableSchema) (q : TableQuery),
    System.start.run rt actions = some s → s.engine.Bounded → rt.Counts →
    s.engine.schemas.lookup t = some schema → q.Of rt t schema →
    q.NamesTold rt t schema s.engine (s.engine.readVersion conn) →
    (s.engine.scanned rt t (s.engine.readVersion conn)).length ≤ 2 ^ 53 →
    s.engine.answer rt (q.toQuery t) conn =
      .ok (q.answer t schema ((s.engine.scanned rt t (s.engine.readVersion conn)).map Prod.snd)) := by
  intro h
  obtain ⟨s, hs, hbounded, hschema, hscanned, hrows, -, hanswer⟩ := exists_pairs
  refine hanswer (congrArg Except.toOption (h (plainBincode []) .plain insertPairs s 1 _ _ countPairs hs
    hbounded counts_plain hschema ⟨?_, ?_, ?_⟩ ⟨hscanned, ?_⟩ hrows))
  · exact (by decide : Runtime.plain.uppercase (bytes "COUNT") = bytes "COUNT")
  · rintro w ⟨⟩
  · rintro w ⟨⟩
  · rintro x ⟨⟩

end KsSql
