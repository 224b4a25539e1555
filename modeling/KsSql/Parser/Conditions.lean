import KsSql.Parser.PlainRuntime
import KsSql.Util.Decimal

/-!
# Conditions

What a condition of SQL means, and what `evaluate_where` of `parser/engine.rs` makes of it. A
`Condition` is built with `AND`, `OR`, `NOT` and parentheses from comparisons of columns and literals;
`Condition.toExpr` is the expression that the SQL parser reads it as, and `Condition.truth` its truth
value on a row: a number is compared with a number, and with a text that is one, by value, and everything
else as texts.

The engine compares texts only, knows four of the six comparisons, and takes `AND` and `OR` for an
operator that never holds and `NOT` for an expression that always does. `Condition.Agrees` says on which
rows this comes to the same (`evaluateWhere_eq_truth_iff`, `where_iff`).
-/

namespace KsSql

/-- What the texts of literals have to do with the literals: a number is printed as it is written, with
its suffix, and a string in quotes, with further quotes among its own at most. -/
structure Runtime.DisplaysLiterals (rt : Runtime) : Prop where
  number : ∀ text long,
    rt.display (.value (.number text long)) = text ++ if long then bytes "L" else []
  string : ∀ text, rt.unquoted (.value (.singleQuotedString text)) = text.filter (· ≠ 39)
  literal : ∀ text, rt.display (.value (.other text)) = text
  expression : ∀ text, rt.display (.other text) = text

theorem displaysLiterals_plain : Runtime.plain.DisplaysLiterals where
  number _ _ := rfl
  string text := by
    show (bytes "'" ++ text ++ bytes "'").filter (· ≠ 39) = _
    rw [List.filter_append, List.filter_append]
    show [] ++ _ ++ [] = _
    rw [List.nil_append, List.append_nil]
  literal _ := rfl
  expression _ := rfl

/-- A number as it is written. -/
structure Numeral where
  text : Bytes
  value : Rat
  value_eq : Decimal.parse text = some value

/-- A number with a sign is read as an operation on the number without it. -/
def Numeral.signed (n : Numeral) : Bool := n.text.head? = some 45 || n.text.head? = some 43

/-- What a condition compares: a column or a literal. -/
inductive Operand
  | identifier (name : Bytes)
  | compoundIdentifier (qualifier : List Bytes) (name : Bytes)
  | number (n : Numeral)
  | string (text : Bytes)

/-- The comparisons of SQL. -/
inductive Comparison
  | eq
  | notEq
  | lt
  | gt
  | ltEq
  | gtEq
  deriving DecidableEq, Repr

/-- A condition. -/
inductive Condition
  | compare (left : Operand) (op : Comparison) (right : Operand)
  | and (left right : Condition)
  | or (left right : Condition)
  | not (inner : Condition)
  | nested (inner : Condition)

/-! ### As the SQL parser reads it -/

/-- The expression of an operand. A number with a sign is a unary operation. -/
def Operand.toExpr : Operand → Expr
  | .identifier name => .identifier name
  | .compoundIdentifier qualifier name => .compoundIdentifier qualifier name
  | .number n => if n.signed then .other n.text else .value (.number n.text false)
  | .string text => .value (.singleQuotedString text)

/-- The operator of a comparison. `<=` and `>=` are not among those that the engine knows. -/
def Comparison.toOperator : Comparison → BinaryOperator
  | .eq => .eq
  | .notEq => .notEq
  | .lt => .lt
  | .gt => .gt
  | .ltEq => .other
  | .gtEq => .other

/-- The expression of a condition. `AND` and `OR` are binary operators, and `NOT` is a unary one. -/
def Condition.toExpr (rt : Runtime) : Condition → Expr
  | .compare left op right => .binaryOp left.toExpr op.toOperator right.toExpr
  | .and left right => .binaryOp (left.toExpr rt) .other (right.toExpr rt)
  | .or left right => .binaryOp (left.toExpr rt) .other (right.toExpr rt)
  | .not inner => .other (bytes "NOT " ++ rt.display (inner.toExpr rt))
  | .nested inner => .nested (inner.toExpr rt)

/-! ### What it means -/

/-- The value of an operand: a number, or the text of a column or a string. -/
inductive CellValue
  | number (n : Numeral)
  | text (t : Bytes)

namespace CellValue

/-- The text of a value. -/
def written : CellValue → Bytes
  | .number n => n.text
  | .text t => t

/-- The number that a value is, or that its text stands for. -/
def rational? : CellValue → Option Rat
  | .number n => some n.value
  | .text t => Decimal.parse t

/-- Whether a value is a number by itself. -/
def isNumber : CellValue → Bool
  | .number _ => true
  | .text _ => false

end CellValue

/-- A comparison in an order. -/
def Comparison.holds {α : Type} [LinearOrder α] : Comparison → α → α → Bool
  | .eq, a, b => a = b
  | .notEq, a, b => a ≠ b
  | .lt, a, b => a < b
  | .gt, a, b => b < a
  | .ltEq, a, b => a ≤ b
  | .gtEq, a, b => b ≤ a

/-- A comparison of values: by number if one of the two is a number and the other one is or stands for
one, and else by text. -/
def Comparison.compare (op : Comparison) (a b : CellValue) : Bool :=
  if a.isNumber || b.isNumber then
    match a.rational?, b.rational? with
    | some x, some y => op.holds x y
    | _, _ => op.holds a.written b.written
  else op.holds a.written b.written

/-- The value of an operand on a row. -/
def Operand.value (row : Row) : Operand → CellValue
  | .identifier name => .text ((row.lookup name).getD [])
  | .compoundIdentifier qualifier name => .text ((row.lookup (dotted (qualifier ++ [name]))).getD [])
  | .number n => .number n
  | .string text => .text text

/-- The truth value of a condition on a row. -/
def Condition.truth (row : Row) : Condition → Bool
  | .compare left op right => op.compare (left.value row) (right.value row)
  | .and left right => left.truth row && right.truth row
  | .or left right => left.truth row || right.truth row
  | .not inner => !inner.truth row
  | .nested inner => inner.truth row

/-- An operand that is a column is one of the row's. -/
def Operand.In (row : Row) : Operand → Prop
  | .identifier name => (row.lookup name).isSome
  | .compoundIdentifier qualifier name => (row.lookup (dotted (qualifier ++ [name]))).isSome
  | .number _ => True
  | .string _ => True

instance (row : Row) : DecidablePred (Operand.In row)
  | .identifier _ => instDecidableEqBool _ _
  | .compoundIdentifier _ _ => instDecidableEqBool _ _
  | .number _ => instDecidableTrue
  | .string _ => instDecidableTrue

/-- The columns that a condition speaks of are the row's. -/
def Condition.In (row : Row) : Condition → Prop
  | .compare left _ right => left.In row ∧ right.In row
  | .and left right => left.In row ∧ right.In row
  | .or left right => left.In row ∧ right.In row
  | .not inner => inner.In row
  | .nested inner => inner.In row

instance Condition.decidableIn (row : Row) : DecidablePred (Condition.In row)
  | .compare _ _ _ => inferInstanceAs (Decidable (_ ∧ _))
  | .and left right => @instDecidableAnd _ _ (decidableIn row left) (decidableIn row right)
  | .or left right => @instDecidableAnd _ _ (decidableIn row left) (decidableIn row right)
  | .not inner => decidableIn row inner
  | .nested inner => decidableIn row inner

/-! ### What the engine makes of it -/

/-- The text that the engine compares in the place of an operand: a string without its quotes, and
nothing for a number with a sign. -/
def Operand.shown (row : Row) : Operand → Bytes
  | .number n => if n.signed then [] else n.text.filter (· ≠ 39)
  | .string text => text.filter (· ≠ 39)
  | operand => (operand.value row).written

/-- The texts of the operands compare as the values do. The engine takes empty texts for different and
does not know `<=` and `>=`. -/
def Comparison.Agrees (op : Comparison) (row : Row) (left right : Operand) : Prop :=
  let holds := op.compare (left.value row) (right.value row)
  match op with
  | .eq => holds ↔ left.shown row = right.shown row ∧ left.shown row ≠ []
  | .notEq => holds ↔ left.shown row ≠ right.shown row
  | .lt => holds ↔ left.shown row < right.shown row
  | .gt => holds ↔ right.shown row < left.shown row
  | .ltEq => holds = false
  | .gtEq => holds = false

/-- The condition has the truth value that the engine takes it to have: a comparison whose texts compare
as the values do, an `AND` or `OR` that is false, a `NOT` that is true. -/
def Condition.Agrees (row : Row) : Condition → Prop
  | .compare left op right => op.Agrees row left right
  | .and left right => (Condition.and left right).truth row = false
  | .or left right => (Condition.or left right).truth row = false
  | .not inner => inner.truth row = false
  | .nested inner => inner.Agrees row

instance (op : Comparison) (row : Row) (left right : Operand) :
    Decidable (op.Agrees row left right) :=
  match op with
  | .eq => inferInstanceAs (Decidable (Comparison.eq.compare _ _ = true ↔
      left.shown row = right.shown row ∧ left.shown row ≠ []))
  | .notEq => inferInstanceAs
      (Decidable (Comparison.notEq.compare _ _ = true ↔ left.shown row ≠ right.shown row))
  | .lt => inferInstanceAs
      (Decidable (Comparison.lt.compare _ _ = true ↔ left.shown row < right.shown row))
  | .gt => inferInstanceAs
      (Decidable (Comparison.gt.compare _ _ = true ↔ right.shown row < left.shown row))
  | .ltEq => instDecidableEqBool _ _
  | .gtEq => instDecidableEqBool _ _

instance Condition.decidableAgrees (row : Row) : DecidablePred (Condition.Agrees row)
  | .compare left op right => inferInstanceAs (Decidable (op.Agrees row left right))
  | .and _ _ => instDecidableEqBool _ _
  | .or _ _ => instDecidableEqBool _ _
  | .not _ => instDecidableEqBool _ _
  | .nested inner => decidableAgrees row inner

section

variable {rt : Runtime} {row : Row}

/-- `get_data` takes an operand for its shown text. -/
theorem getData_toExpr (hdisplay : rt.DisplaysLiterals) {operand : Operand} (h : operand.In row) :
    getData rt row operand.toExpr = operand.shown row := by
  cases operand with
  | identifier name =>
    obtain ⟨v, hv⟩ := Option.isSome_iff_exists.1 h
    simp only [Operand.toExpr, getData, Operand.shown, Operand.value, CellValue.written, hv,
      Option.getD_some]
  | compoundIdentifier qualifier name =>
    obtain ⟨v, hv⟩ := Option.isSome_iff_exists.1 h
    simp only [Operand.toExpr, getData, Operand.shown, Operand.value, CellValue.written, hv,
      Option.getD_some]
  | number n =>
    rw [Operand.toExpr, Operand.shown]
    split
    · rfl
    · rw [getData, Runtime.unquoted, hdisplay.number]
      exact congrArg _ (List.append_nil n.text)
  | string text => exact hdisplay.string text

/-- The engine's comparison of two texts. -/
theorem evaluateWhere_compare (hdisplay : rt.DisplaysLiterals) {left right : Operand}
    {op : Comparison} (hleft : left.In row) (hright : right.In row) :
    evaluateWhere rt row (.binaryOp left.toExpr op.toOperator right.toExpr) =
        op.compare (left.value row) (right.value row) ↔ op.Agrees row left right := by
  simp only [evaluateWhere, getData_toExpr hdisplay hleft, getData_toExpr hdisplay hright]
  rw [eq_comm, Bool.eq_iff_iff]
  cases op with
  | eq =>
    refine iff_congr Iff.rfl ?_
    show (if _ then false else _) = true ↔ _
    rcases hl : left.shown row with - | ⟨c, l⟩
    · cases right.shown row <;> simp
    · simp
  | notEq => exact iff_congr Iff.rfl bne_iff_ne
  | lt => exact iff_congr Iff.rfl decide_eq_true_iff
  | gt => exact iff_congr Iff.rfl decide_eq_true_iff
  | ltEq => simp [Comparison.Agrees, Comparison.toOperator]
  | gtEq => simp [Comparison.Agrees, Comparison.toOperator]

/-- **The engine's truth value of a condition is that of SQL exactly where the condition agrees.** -/
theorem evaluateWhere_eq_truth_iff (hdisplay : rt.DisplaysLiterals) {condition : Condition}
    (h : condition.In row) :
    evaluateWhere rt row (condition.toExpr rt) = condition.truth row ↔ condition.Agrees row := by
  induction condition with
  | compare left op right => exact evaluateWhere_compare hdisplay h.1 h.2
  | and left right => exact eq_comm
  | or left right => exact eq_comm
  | not inner =>
    show true = (!inner.truth row) ↔ inner.truth row = false
    cases inner.truth row <;> decide
  | nested inner ih => exact ih h

/-- Comparing a column with a string without quotes by `=` agrees unless both are empty. -/
theorem agrees_eq_string_iff {name text : Bytes} (htext : 39 ∉ text) :
    Comparison.eq.Agrees row (.identifier name) (.string text) ↔
      (row.lookup name).getD [] ≠ [] ∨ text ≠ [] := by
  have hshown : (Operand.string text).shown row = text :=
    List.filter_eq_self.2 fun c hc ↦ decide_eq_true fun h ↦ htext (h ▸ hc)
  have hvalue : Comparison.eq.compare ((Operand.identifier name).value row)
      ((Operand.string text).value row) = true ↔ (row.lookup name).getD [] = text := decide_eq_true_iff
  show (Comparison.eq.compare _ _ = true ↔
    (row.lookup name).getD [] = (Operand.string text).shown row ∧ (row.lookup name).getD [] ≠ []) ↔ _
  rw [hvalue, hshown]
  refine ⟨fun h ↦ ?_, fun h ↦ (and_iff_left_of_imp fun heq hempty ↦ ?_).symm⟩
  · by_contra hboth
    push Not at hboth
    exact (h.1 (hboth.1.trans hboth.2.symm)).2 hboth.1
  · rcases h with h | h
    · exact h hempty
    · exact h (heq ▸ hempty)

/-- Two conditions select the same rows exactly if they agree on each of them. -/
theorem filter_eq_filter_iff {α : Type} {p q : α → Bool} {l : List α} :
    l.filter p = l.filter q ↔ ∀ a ∈ l, p a = q a := by
  refine ⟨fun h a ha ↦ ?_, List.filter_congr⟩
  rw [Bool.eq_iff_iff]
  have hmem : a ∈ l.filter p ↔ a ∈ l.filter q := by rw [h]
  simpa only [List.mem_filter, ha, true_and] using hmem

/-- **`WHERE` means what SQL says exactly where the condition agrees**: on a row, and for the rows that
a statement selects from those it scans. -/
theorem where_iff (hdisplay : rt.DisplaysLiterals) (condition : Condition) :
    (∀ row, condition.In row →
      (evaluateWhere rt row (condition.toExpr rt) = condition.truth row ↔ condition.Agrees row)) ∧
    ∀ rows : List Row, (∀ row ∈ rows, condition.In row) →
      (rows.filter (fun row ↦ evaluateWhere rt row (condition.toExpr rt)) =
        rows.filter condition.truth ↔ ∀ row ∈ rows, condition.Agrees row) := by
  refine ⟨fun row h ↦ evaluateWhere_eq_truth_iff hdisplay h, fun rows h ↦ ?_⟩
  rw [filter_eq_filter_iff]
  exact forall₂_congr fun row hrow ↦ evaluateWhere_eq_truth_iff hdisplay (h row hrow)

end

/-! ### On a row -/

/-- A row with a number and a name. -/
def sampleRow : Row := ((∅ : Row).insert (bytes "n") (bytes "9")).insert (bytes "name") (bytes "ann")

/-- The condition that the row's name is `ann`. -/
def isAnn : Condition := .compare (.identifier (bytes "name")) .eq (.string (bytes "ann"))

theorem where_iff_sample :
    (evaluateWhere .plain sampleRow (isAnn.toExpr .plain) = isAnn.truth sampleRow ↔
      isAnn.Agrees sampleRow) ∧
    ([sampleRow].filter (fun row ↦ evaluateWhere .plain row (isAnn.toExpr .plain)) =
      [sampleRow].filter isAnn.truth ↔ ∀ row ∈ [sampleRow], isAnn.Agrees row) := by
  have hin : isAnn.In sampleRow := by decide
  exact ⟨(where_iff displaysLiterals_plain isAnn).1 sampleRow hin,
    (where_iff displaysLiterals_plain isAnn).2 [sampleRow] fun row hrow ↦
      List.mem_singleton.1 hrow ▸ hin⟩

/-- A condition that holds twice over does not hold for the engine. -/
theorem not_where : ¬ ∀ (rt : Runtime) (condition : Condition) (row : Row), rt.DisplaysLiterals →
    condition.In row → evaluateWhere rt row (condition.toExpr rt) = condition.truth row := by
  intro h
  have hin : (isAnn.and isAnn).In sampleRow := by decide
  have htruth : (isAnn.and isAnn).truth sampleRow = true := by decide
  exact nomatch htruth.symm.trans (h .plain _ sampleRow displaysLiterals_plain hin).symm

end KsSql
