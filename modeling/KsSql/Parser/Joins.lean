import KsSql.Parser.PlainRuntime
import KsSql.Parser.Selects
import KsSql.Parser.UndoRedo
import KsSql.Util.Filters

/-!
# Joins

An inner join of two tables, on the equality of two columns, with an optional comparison in its `WHERE`.
The engine merges each pair of rows into one map, in which the columns of the right row take the place of
those of the left row that have the same names, and reads the columns of the conditions from there. Aliases
are not known to it: a column behind an alias is looked for without the alias.

So a column behind the left table's name is read from the left row, and any other one from the right row, if
that has a column of the name (`Reference.reached`). The join is computed right exactly if this makes no
difference on any pair of rows (`join_iff`).
-/

namespace KsSql

open Engine

/-! ### The names of columns in two tables -/

/-- The names of columns are told apart: none is the one that a scan puts keys under, none is a qualified
name, and qualified names have one reading. -/
structure Distinguished (tables names : List Bytes) : Prop where
  notKey : keyColumn ∉ names
  unqualified : ∀ t ∈ tables, ∀ c ∈ names, ∀ c' ∈ names, c ≠ qualified t c'
  injective : ∀ t ∈ tables, ∀ t' ∈ tables, ∀ c ∈ names, ∀ c' ∈ names,
    qualified t c = qualified t' c' → t = t' ∧ c = c'

/-- Names without dots are. -/
theorem distinguished_of_dotless {tables names : List Bytes} (hkey : keyColumn ∉ names)
    (h : ∀ c ∈ names, (46 : UInt8) ∉ c) : Distinguished tables names where
  notKey := hkey
  unqualified t _ c hc c' _ heq := h c hc (heq ▸ dot_mem_qualified t c')
  injective := by
    -- what is left of the one name before the other would end with a dot
    have hrest : ∀ {t t' c c' rest : Bytes}, (46 : UInt8) ∉ c →
        t' ++ bytes "." = (t ++ bytes ".") ++ rest → c = rest ++ c' → t = t' ∧ c = c' := by
      intro t t' c c' rest hc ht hsplit
      rcases List.eq_nil_or_concat' rest with rfl | ⟨rest, x, rfl⟩
      · rw [List.append_nil] at ht
        exact ⟨(List.append_cancel_right ht).symm, hsplit⟩
      · have hlast : bytes "." = [x] :=
          List.append_inj_right' (ht.trans (List.append_assoc _ _ _).symm) rfl
        have hdot : (46 : UInt8) ∈ rest ++ [x] :=
          List.mem_append_right rest (hlast ▸ (by decide : (46 : UInt8) ∈ bytes "."))
        exact absurd (hsplit ▸ List.mem_append_left c' hdot) hc
    intro t _ t' _ c hc c' hc' heq
    rcases List.append_eq_append_iff.1 heq with ⟨rest, ht, hsplit⟩ | ⟨rest, ht, hsplit⟩
    · exact hrest (h c hc) ht hsplit
    · obtain ⟨htables, hnames⟩ := hrest (h c' hc') ht hsplit
      exact ⟨htables.symm, hnames.symm⟩

section

variable {rt : Runtime} {tables names : List Bytes} {t t' key c : Bytes} {columns : Row}

theorem Distinguished.lookup (h : Distinguished tables names) (ht : t ∈ tables)
    (hkeys : ∀ c' ∈ columns.keys, c' ∈ names) (hc : c ∈ names) :
    (scannedRow rt t key columns).lookup c = columns.lookup c := by
  refine lookup_scannedRow_eq_of_unique (.inl rfl) (fun heq ↦ h.notKey (heq ▸ hc)) fun c' hc' hname ↦ ?_
  rcases hname with hname | hname
  · exact hname.symm
  · exact absurd hname (h.unqualified t ht c hc c' (hkeys c' hc'))

/-- A qualified name is one of the rows of its table. -/
theorem Distinguished.lookup_qualified (h : Distinguished tables names) (ht : t ∈ tables) (ht' : t' ∈ tables)
    (hkeys : ∀ c' ∈ columns.keys, c' ∈ names) (hc : c ∈ names) :
    (scannedRow rt t key columns).lookup (qualified t' c) =
      if t' = t then columns.lookup c else none := by
  split
  · rename_i heq
    subst heq
    refine lookup_scannedRow_eq_of_unique (.inr rfl) (qualified_ne_keyColumn t' c) fun c' hc' hname ↦ ?_
    rcases hname with hname | hname
    · exact absurd hname.symm (h.unqualified t' ht c' (hkeys c' hc') c hc)
    · exact (qualified_injective hname).symm
  · rename_i hne
    rcases hlookup : (scannedRow rt t key columns).lookup (qualified t' c) with - | v
    · rfl
    · rcases exists_of_lookup_scannedRow hlookup with ⟨c', hc', hname | hname⟩ | hkey
      · exact absurd hname.symm
          (h.unqualified t' ht' c' (hkeys c' (mem_keys_of_lookup hc')) c hc)
      · exact absurd (h.injective t' ht' t ht c hc c' (hkeys c' (mem_keys_of_lookup hc')) hname).1 hne
      · exact absurd hkey (qualified_ne_keyColumn t' c)

end

/-! ### Merged rows -/

/-- The row that stands for a pair of rows: the right one's columns over the left one's. -/
def mergedRow (rt : Runtime) (left right : Row) : Row :=
  (rt.iterate right).foldl (fun row c ↦ row.insert c.1 c.2)
    ((rt.iterate left).foldl (fun row c ↦ row.insert c.1 c.2) (∅ : Row))

theorem lookup_foldl_iterate (rt : Runtime) (m base : Row) (name : Bytes) :
    ((rt.iterate m).foldl (fun row c ↦ row.insert c.1 c.2) base).lookup name =
      (m.lookup name).or (base.lookup name) := by
  rcases hlookup : m.lookup name with - | v
  · refine HashMap.lookup_foldl_insert_of_not_mem (fun hmem ↦ ?_) base
    obtain ⟨⟨k, v⟩, hkv, rfl⟩ := List.mem_map.1 hmem
    exact nomatch hlookup.symm.trans (mem_iterate_iff.1 hkv)
  · exact HashMap.lookup_foldl_insert_of_mem (mem_iterate_iff.2 hlookup)
      (fun v' hv' ↦ Option.some.inj ((mem_iterate_iff.1 hv').symm.trans hlookup)) base

theorem lookup_mergedRow (rt : Runtime) (left right : Row) (name : Bytes) :
    (mergedRow rt left right).lookup name = (right.lookup name).or (left.lookup name) := by
  rw [mergedRow, lookup_foldl_iterate, lookup_foldl_iterate]
  exact congrArg _ (Option.or_none)

/-- The joined rows are the merged pairs on which the condition holds. -/
theorem joinRows_innerOn (rt : Runtime) (condition : Expr) (left right : List Row) :
    joinRows rt (.innerOn condition) left right =
      ((left ×ˢ right).filter fun p ↦ evaluateWhere rt (mergedRow rt p.1 p.2) condition).map
        fun p ↦ mergedRow rt p.1 p.2 := by
  have hone : ∀ l : Row, right.filterMap (fun r ↦
      if evaluateWhere rt (mergedRow rt l r) condition then some (mergedRow rt l r) else none) =
      ((right.map (Prod.mk l)).filter fun p ↦ evaluateWhere rt (mergedRow rt p.1 p.2) condition).map
        fun p ↦ mergedRow rt p.1 p.2 := by
    intro l
    rw [filterMap_ite_eq_map_filter, List.filter_map, List.map_map]
    rfl
  induction left with
  | nil => rfl
  | cons l left ih =>
    rw [List.product_cons, List.filter_append, List.map_append, ← ih, ← hone]
    rfl

/-! ### Queries -/

/-- A column behind the name or the alias of a table. -/
structure Reference where
  qualifier : List Bytes
  column : Bytes

/-- The name or the alias. -/
def Reference.source (ref : Reference) : Bytes := dotted ref.qualifier

def Reference.toExpr (ref : Reference) : Expr := .compoundIdentifier ref.qualifier ref.column

/-- What a comparison in the `WHERE` of a join compares: a column of the left or of the right table, or a
literal. -/
inductive JoinOperand
  | left (ref : Reference)
  | right (ref : Reference)
  | literal (v : Literal)

def JoinOperand.toExpr : JoinOperand → Expr
  | .left ref => ref.toExpr
  | .right ref => ref.toExpr
  | .literal v => .value v

/-- A comparison in the `WHERE` of a join. -/
structure JoinClause where
  left : JoinOperand
  op : BinaryOperator
  right : JoinOperand

def JoinClause.toExpr (w : JoinClause) : Expr := .binaryOp w.left.toExpr w.op w.right.toExpr

/-- `SELECT .. FROM left [leftAlias] JOIN right [rightAlias] ON leftKey = rightKey [WHERE ..]` -/
structure JoinQuery where
  projection : List SelectItem
  left : Bytes
  leftAlias : Option Bytes
  right : Bytes
  rightAlias : Option Bytes
  leftKey : Reference
  rightKey : Reference
  clause : Option JoinClause

namespace JoinQuery

variable (q : JoinQuery)

/-- The condition of the query. -/
def selection : Option Expr := q.clause.map JoinClause.toExpr

/-- The query as the engine sees it, without the aliases. -/
def toSelect : Select :=
  ⟨q.projection, [⟨.table q.left,
    [⟨.table q.right, .innerOn (.binaryOp q.leftKey.toExpr .eq q.rightKey.toExpr)⟩]⟩], q.selection⟩

/-- A column of the left table, behind its name or its alias. -/
def OfLeft (ref : Reference) : Prop :=
  ref.qualifier ≠ [] ∧ (ref.source = q.left ∨ some ref.source = q.leftAlias)

/-- A column of the right table, behind its name or its alias. -/
def OfRight (ref : Reference) : Prop :=
  ref.qualifier ≠ [] ∧ (ref.source = q.right ∨ some ref.source = q.rightAlias)

/-- A column of the table that it is to be one of, or a literal. -/
def OfTables : JoinOperand → Prop
  | .left ref => q.OfLeft ref
  | .right ref => q.OfRight ref
  | .literal _ => True

/-- A join of two different tables, whose columns are behind the names of their tables or the declared
aliases. -/
structure Well : Prop where
  ne : q.left ≠ q.right
  leftKey : q.OfLeft q.leftKey
  rightKey : q.OfRight q.rightKey
  clause : ∀ w ∈ q.clause, q.OfTables w.left ∧ q.OfTables w.right

end JoinQuery

/-! ### What the query asks for, and what the engine reads -/

/-- The comparison of texts that the engine makes. -/
def BinaryOperator.compare (op : BinaryOperator) (a b : Bytes) : Bool :=
  match op with
  | .eq => if a.isEmpty && b.isEmpty then false else a == b
  | .notEq => a != b
  | .gt => b < a
  | .lt => a < b
  | .other => false

theorem evaluateWhere_binaryOp (rt : Runtime) (row : Row) (left : Expr) (op : BinaryOperator)
    (right : Expr) : evaluateWhere rt row (.binaryOp left op right) =
      op.compare (getData rt row left) (getData rt row right) := by
  cases op <;> simp only [evaluateWhere, BinaryOperator.compare]

/-- The value of an operand on a pair of rows: the one of that table's column. -/
def JoinOperand.value (rt : Runtime) (u w : Row) : JoinOperand → Option Bytes
  | .left ref => u.lookup ref.column
  | .right ref => w.lookup ref.column
  | .literal v => some (rt.unquoted (.value v))

/-- A comparison is true of a pair of rows: both values are there, and they compare. -/
def JoinClause.holds (rt : Runtime) (u w : Row) (clause : JoinClause) : Bool :=
  match clause.left.value rt u w, clause.right.value rt u w with
  | some a, some b => clause.op.compare a b
  | _, _ => false

/-- **What the query asks of a pair of rows**: the values in the two columns are equal, and the comparison
is true. -/
def JoinQuery.holds (rt : Runtime) (q : JoinQuery) (u w : Row) : Bool :=
  (u.lookup q.leftKey.column).isSome && u.lookup q.leftKey.column == w.lookup q.rightKey.column &&
    q.clause.all (JoinClause.holds rt u w)

/-- What a column is read from: behind the left table's name it is the left row's, and else the right row's,
where that one has a column of the name, and the other row's where it has not. -/
def Reference.reached (left : Bytes) (u w : Row) (ref : Reference) : Bytes :=
  (if ref.source = left then (u.lookup ref.column).or (w.lookup ref.column)
    else (w.lookup ref.column).or (u.lookup ref.column)).getD []

/-- The text that is read for an operand. -/
def JoinOperand.reached (rt : Runtime) (left : Bytes) (u w : Row) : JoinOperand → Bytes
  | .left ref => ref.reached left u w
  | .right ref => ref.reached left u w
  | .literal v => rt.unquoted (.value v)

/-- What the engine tests on a pair of rows. -/
def JoinQuery.tested (rt : Runtime) (q : JoinQuery) (u w : Row) : Bool :=
  BinaryOperator.eq.compare (q.leftKey.reached q.left u w) (q.rightKey.reached q.left u w) &&
    q.clause.all fun clause ↦ occursIn (bytes "VECTOR_SEARCH") (rt.display clause.toExpr) ||
      clause.op.compare (clause.left.reached rt q.left u w) (clause.right.reached rt q.left u w)

/-- The columns that the query speaks of. -/
def JoinQuery.references (q : JoinQuery) : List Reference :=
  let operand := fun o : JoinOperand ↦ match o with
    | .left ref => [ref]
    | .right ref => [ref]
    | .literal _ => []
  q.leftKey :: q.rightKey ::
    (q.clause.elim [] fun clause ↦ operand clause.left ++ operand clause.right)

/-- The names of columns in the rows of the tables and in the query are told apart. -/
structure JoinQuery.NamesTold (q : JoinQuery) (names : List Bytes) (left right : List (Bytes × Row)) :
    Prop where
  distinguished : Distinguished (q.left :: q.right :: q.references.map Reference.source) names
  left : ∀ u ∈ left, ∀ c ∈ u.2.keys, c ∈ names
  right : ∀ w ∈ right, ∀ c ∈ w.2.keys, c ∈ names
  references : ∀ ref ∈ q.references, ref.column ∈ names

/-- **When a join is computed right**: both tables can be scanned, and on each pair of rows the test that is
made with what the columns are read from comes to what the query asks for. -/
def JoinQuery.Fits (rt : Runtime) (e : Engine) (version : Nat) (q : JoinQuery) : Prop :=
  Scannable id rt q.left version (e.entries rt) [] ∧
    Scannable id rt q.right version (e.entries rt) [] ∧
    ∀ u ∈ e.scanned rt q.left version, ∀ w ∈ e.scanned rt q.right version,
      q.tested rt u.2 w.2 = q.holds rt u.2 w.2

/-- The row that stands for a pair of rows of the two tables. -/
def JoinQuery.merged (rt : Runtime) (q : JoinQuery) (p : (Bytes × Row) × (Bytes × Row)) : Row :=
  mergedRow rt (scannedRow rt q.left p.1.1 p.1.2) (scannedRow rt q.right p.2.1 p.2.2)

/-- The query returns the pairs of rows that it asks for, each once. -/
def JoinQuery.Joins (rt : Runtime) (e : Engine) (version : Nat) (q : JoinQuery) : Prop :=
  ∃ headings rows, e.selectRows rt version q.toSelect = .ok (headings, rows) ∧
    rows.Perm (((e.scanned rt q.left version ×ˢ e.scanned rt q.right version).filter fun p ↦
      q.holds rt p.1.2 p.2.2).map (q.merged rt))

/-! ### What the engine reads -/

theorem dotted_append {qualifier : List Bytes} (h : qualifier ≠ []) (c : Bytes) :
    dotted (qualifier ++ [c]) = qualified (dotted qualifier) c := by
  rcases qualifier with - | ⟨a, l⟩
  · exact absurd rfl h
  clear h
  show (bytes ".").intercalate (a :: l ++ [c]) = (bytes ".").intercalate (a :: l) ++ bytes "." ++ c
  induction l generalizing a with
  | nil => simp [List.intercalate]
  | cons b l ih =>
    have hstep : ∀ l' : List Bytes, (bytes ".").intercalate (a :: b :: l') =
        a ++ bytes "." ++ (bytes ".").intercalate (b :: l') := by
      intro l'
      simp [List.intercalate]
    rw [List.cons_append, List.cons_append, hstep, ← List.cons_append, ih, hstep]
    simp only [List.append_assoc]

section

variable {rt : Runtime} {q : JoinQuery} {names : List Bytes} {left right : List (Bytes × Row)}
  {u w : Bytes × Row} {c : Bytes}

namespace JoinQuery

theorem left_mem (q : JoinQuery) : q.left ∈ q.left :: q.right :: q.references.map Reference.source :=
  List.mem_cons_self

theorem right_mem (q : JoinQuery) : q.right ∈ q.left :: q.right :: q.references.map Reference.source :=
  List.mem_cons_of_mem _ List.mem_cons_self

theorem source_mem {ref : Reference} (h : ref ∈ q.references) :
    ref.source ∈ q.left :: q.right :: q.references.map Reference.source :=
  List.mem_cons_of_mem _ (List.mem_cons_of_mem _ (List.mem_map_of_mem h))

/-- A qualified name in the row that stands for a pair. -/
theorem lookup_qualified_merged (h : q.NamesTold names left right) (hu : u ∈ left) (hw : w ∈ right)
    {source : Bytes} (hsource : source ∈ q.left :: q.right :: q.references.map Reference.source)
    (hc : c ∈ names) : (q.merged rt (u, w)).lookup (qualified source c) =
      (if source = q.right then w.2.lookup c else none).or
        (if source = q.left then u.2.lookup c else none) := by
  rw [merged, lookup_mergedRow,
    h.distinguished.lookup_qualified q.right_mem hsource (h.right w hw) hc,
    h.distinguished.lookup_qualified q.left_mem hsource (h.left u hu) hc]

/-- A plain name in the row that stands for a pair. -/
theorem lookup_merged (h : q.NamesTold names left right) (hu : u ∈ left) (hw : w ∈ right)
    (hc : c ∈ names) : (q.merged rt (u, w)).lookup c = (w.2.lookup c).or (u.2.lookup c) := by
  rw [merged, lookup_mergedRow, h.distinguished.lookup q.right_mem (h.right w hw) hc,
    h.distinguished.lookup q.left_mem (h.left u hu) hc]

/-- The row that stands for a pair has the columns of both rows under the names of their tables. -/
theorem lookup_merged_left (hne : q.left ≠ q.right) (h : q.NamesTold names left right) (hu : u ∈ left)
    (hw : w ∈ right) (hc : c ∈ names) :
    (q.merged rt (u, w)).lookup (qualified q.left c) = u.2.lookup c := by
  rw [lookup_qualified_merged h hu hw q.left_mem hc, if_neg hne, if_pos rfl, Option.none_or]

theorem lookup_merged_right (hne : q.left ≠ q.right) (h : q.NamesTold names left right) (hu : u ∈ left)
    (hw : w ∈ right) (hc : c ∈ names) :
    (q.merged rt (u, w)).lookup (qualified q.right c) = w.2.lookup c := by
  rw [lookup_qualified_merged h hu hw q.right_mem hc, if_pos rfl, if_neg hne.symm, Option.or_none]

/-- **What a column is read from.** -/
theorem getData_merged (hne : q.left ≠ q.right) (h : q.NamesTold names left right) (hu : u ∈ left)
    (hw : w ∈ right) {ref : Reference} (href : ref ∈ q.references) (hqualifier : ref.qualifier ≠ []) :
    getData rt (q.merged rt (u, w)) ref.toExpr = ref.reached q.left u.2 w.2 := by
  have hc := h.references ref href
  have hname : dotted (ref.qualifier ++ [ref.column]) = qualified ref.source ref.column :=
    dotted_append hqualifier ref.column
  rw [Reference.toExpr, getData, hname, lookup_qualified_merged h hu hw (source_mem href) hc,
    lookup_merged h hu hw hc, Reference.reached]
  by_cases hleft : ref.source = q.left
  · rw [if_neg (hleft ▸ hne), if_pos hleft, if_pos hleft]
    rcases u.2.lookup ref.column with - | v
    · exact congrArg (Option.getD · []) (Option.or_none)
    · rfl
  · rw [if_neg hleft, if_neg hleft, Option.or_none]
    by_cases hright : ref.source = q.right
    · rw [if_pos hright]
      rcases w.2.lookup ref.column with - | v <;> rfl
    · rw [if_neg hright]

theorem getData_operand (hne : q.left ≠ q.right) (h : q.NamesTold names left right) (hu : u ∈ left)
    (hw : w ∈ right) {operand : JoinOperand} (htables : q.OfTables operand)
    (hrefs : ∀ ref, operand = .left ref ∨ operand = .right ref → ref ∈ q.references) :
    getData rt (q.merged rt (u, w)) operand.toExpr = operand.reached rt q.left u.2 w.2 := by
  cases operand with
  | left ref => exact getData_merged hne h hu hw (hrefs ref (.inl rfl)) htables.1
  | right ref => exact getData_merged hne h hu hw (hrefs ref (.inr rfl)) htables.1
  | literal v => rfl

theorem mem_references_of_clause {clause : JoinClause} (hclause : q.clause = some clause) {ref : Reference}
    (h : (clause.left = .left ref ∨ clause.left = .right ref) ∨
      clause.right = .left ref ∨ clause.right = .right ref) : ref ∈ q.references := by
  refine List.mem_cons_of_mem _ (List.mem_cons_of_mem _ ?_)
  rw [hclause]
  refine List.mem_append.2 (h.imp ?_ ?_)
  all_goals
    rintro (heq | heq)
    all_goals
      rw [heq]
      exact List.mem_singleton_self ref

/-- **What the engine tests on the row that stands for a pair.** -/
theorem tested_eq (hq : q.Well) (h : q.NamesTold names left right) (hu : u ∈ left) (hw : w ∈ right) :
    (evaluateWhere rt (q.merged rt (u, w)) (.binaryOp q.leftKey.toExpr .eq q.rightKey.toExpr) &&
      keeps rt q.selection (q.merged rt (u, w))) = q.tested rt u.2 w.2 := by
  have hleft : getData rt (q.merged rt (u, w)) q.leftKey.toExpr = q.leftKey.reached q.left u.2 w.2 :=
    getData_merged hq.ne h hu hw List.mem_cons_self hq.leftKey.1
  have hright : getData rt (q.merged rt (u, w)) q.rightKey.toExpr = q.rightKey.reached q.left u.2 w.2 :=
    getData_merged hq.ne h hu hw (List.mem_cons_of_mem _ List.mem_cons_self) hq.rightKey.1
  rw [evaluateWhere_binaryOp, hleft, hright, tested, keeps, selection]
  refine congrArg _ ?_
  rcases hclause : q.clause with - | clause
  · rfl
  · have htables := hq.clause clause hclause
    simp only [Option.map_some, Option.all_some, JoinClause.toExpr]
    rw [evaluateWhere_binaryOp, getData_operand hq.ne h hu hw htables.1
        fun ref href ↦ mem_references_of_clause hclause (.inl href),
      getData_operand hq.ne h hu hw htables.2
        fun ref href ↦ mem_references_of_clause hclause (.inr href)]

variable (rt) in
/-- The row that stands for a pair decides what the engine tests, and what the query asks. -/
theorem decides_tested (hq : q.Well) (h : q.NamesTold names left right) :
    Decides (q.merged rt) (fun p ↦ q.tested rt p.1.2 p.2.2) (left ×ˢ right) := by
  rintro ⟨u, w⟩ hp ⟨u', w'⟩ hp' heq
  have hp := List.mem_product.1 hp
  have hp' := List.mem_product.1 hp'
  show q.tested rt u.2 w.2 = q.tested rt u'.2 w'.2
  rw [← tested_eq hq h hp.1 hp.2, ← tested_eq hq h hp'.1 hp'.2, heq]

variable (rt) in
theorem decides_holds (hq : q.Well) (h : q.NamesTold names left right) :
    Decides (q.merged rt) (fun p ↦ q.holds rt p.1.2 p.2.2) (left ×ˢ right) := by
  rintro ⟨u, w⟩ hp ⟨u', w'⟩ hp' heq
  have hp := List.mem_product.1 hp
  have hp' := List.mem_product.1 hp'
  have hu : ∀ ref ∈ q.references, u.2.lookup ref.column = u'.2.lookup ref.column := fun ref href ↦ by
    rw [← lookup_merged_left hq.ne h hp.1 hp.2 (h.references ref href), heq,
      lookup_merged_left hq.ne h hp'.1 hp'.2 (h.references ref href)]
  have hw : ∀ ref ∈ q.references, w.2.lookup ref.column = w'.2.lookup ref.column := fun ref href ↦ by
    rw [← lookup_merged_right hq.ne h hp.1 hp.2 (h.references ref href), heq,
      lookup_merged_right hq.ne h hp'.1 hp'.2 (h.references ref href)]
  have hvalue : ∀ operand : JoinOperand,
      (∀ ref, operand = .left ref ∨ operand = .right ref → ref ∈ q.references) →
        operand.value rt u.2 w.2 = operand.value rt u'.2 w'.2 := by
    intro operand hrefs
    cases operand with
    | left ref => exact hu ref (hrefs ref (.inl rfl))
    | right ref => exact hw ref (hrefs ref (.inr rfl))
    | literal v => rfl
  show q.holds rt u.2 w.2 = q.holds rt u'.2 w'.2
  rw [holds, holds, hu q.leftKey List.mem_cons_self,
    hw q.rightKey (List.mem_cons_of_mem _ List.mem_cons_self)]
  refine congrArg _ ?_
  rcases hclause : q.clause with - | clause
  · rfl
  · show JoinClause.holds rt u.2 w.2 clause = JoinClause.holds rt u'.2 w'.2 clause
    rw [JoinClause.holds, JoinClause.holds,
      hvalue clause.left fun ref href ↦ mem_references_of_clause hclause (.inl href),
      hvalue clause.right fun ref href ↦ mem_references_of_clause hclause (.inr href)]

/-- The rows of a join of two tables. -/
theorem selectRows_eq {e : Engine} {version : Nat} {leftSchema rightSchema : TableSchema}
    (hleft : e.schemas.lookup q.left = some leftSchema)
    (hright : e.schemas.lookup q.right = some rightSchema) :
    e.selectRows rt version q.toSelect = (do
      let left ← e.scanTableWithFilter rt q.left version q.selection
      let right ← e.scanTable rt q.right version
      .ok (leftSchema.columns.map (qualified q.left) ++ rightSchema.columns.map (qualified q.right),
        keptRows rt q.selection
          (joinRows rt (.innerOn (.binaryOp q.leftKey.toExpr .eq q.rightKey.toExpr)) left right))) := by
  rw [selectRows, toSelect]
  simp only [Except.ok_bind, hleft, hright]
  rcases e.scanTableWithFilter rt q.left version q.selection with err | left
  · rfl
  rcases e.scanTable rt q.right version with err | right
  · rfl
  simp only [Except.ok_bind, keptRows]
  rcases q.selection with - | selection
  · rfl
  · dsimp only
    split <;> rfl

/-- The rows that the engine keeps of a join are the pairs on which its test is true. -/
theorem keptRows_joinRows (hq : q.Well) (h : q.NamesTold names left right) :
    keptRows rt q.selection (joinRows rt (.innerOn (.binaryOp q.leftKey.toExpr .eq q.rightKey.toExpr))
        (rowsOf rt q.left left) (rowsOf rt q.right right)) =
      ((left ×ˢ right).filter fun p ↦ q.tested rt p.1.2 p.2.2).map (q.merged rt) := by
  have hproduct : rowsOf rt q.left left ×ˢ rowsOf rt q.right right =
      (left ×ˢ right).map fun p ↦
        (scannedRow rt q.left p.1.1 p.1.2, scannedRow rt q.right p.2.1 p.2.2) := by
    clear h
    induction left with
    | nil => rfl
    | cons u left ih =>
      rw [List.product_cons, List.map_append, ← ih, List.map_map]
      show List.map _ (rowsOf rt q.right right) ++ _ = _
      rw [rowsOf, List.map_map]
      rfl
  rw [keptRows_eq_filter, joinRows_innerOn, hproduct]
  simp only [List.filter_map, List.map_map, List.filter_filter]
  refine congrArg (List.map (q.merged rt)) (List.filter_congr fun p hp ↦ ?_)
  have hp := List.mem_product.1 hp
  exact (Bool.and_comm _ _).trans (tested_eq hq h hp.1 hp.2)

end JoinQuery

end

/-- **When a join is computed right.** In any state that a run reaches, for two tables without an index that
the condition could be looked up in: the row that stands for a pair of rows has the columns of both under the
names of their tables, and the query returns the pairs that it asks for, each once, exactly if both tables can
be scanned and each reference makes the difference on no pair. -/
theorem join_iff [Bincode (WalEntry Bytes Data)] {rt : Runtime} {actions : List Action} {s : System}
    (hrun : System.start.run rt actions = some s) (hbounded : s.engine.Bounded) {conn : Nat}
    {q : JoinQuery} (hq : q.Well) {names : List Bytes}
    (hleft : (s.engine.schemas.lookup q.left).isSome) (hright : (s.engine.schemas.lookup q.right).isSome)
    (hunindexed : ∀ x ∈ indexLookup rt q.selection,
      s.engine.fetch rt (indexKey q.left x.1 x.2) = .ok none)
    (hnames : q.NamesTold names (s.engine.scanned rt q.left (s.engine.readVersion conn))
      (s.engine.scanned rt q.right (s.engine.readVersion conn))) :
    (∀ u ∈ s.engine.scanned rt q.left (s.engine.readVersion conn),
      ∀ w ∈ s.engine.scanned rt q.right (s.engine.readVersion conn), ∀ c ∈ names,
        (q.merged rt (u, w)).lookup (qualified q.left c) = u.2.lookup c ∧
          (q.merged rt (u, w)).lookup (qualified q.right c) = w.2.lookup c) ∧
      (q.Joins rt s.engine (s.engine.readVersion conn) ↔
        q.Fits rt s.engine (s.engine.readVersion conn)) := by
  refine ⟨fun u hu w hw c hc ↦ ⟨JoinQuery.lookup_merged_left hq.ne hnames hu hw hc,
    JoinQuery.lookup_merged_right hq.ne hnames hu hw hc⟩, ?_⟩
  have hco := System.coherent_of_run hrun hbounded
  obtain ⟨leftSchema, hleft⟩ := Option.isSome_iff_exists.1 hleft
  obtain ⟨rightSchema, hright⟩ := Option.isSome_iff_exists.1 hright
  rw [JoinQuery.Joins, JoinQuery.selectRows_eq hleft hright,
    scanTableWithFilter_of_unindexed hunindexed, JoinQuery.Fits, ← scanTable_isOk_iff hco.sound,
    ← scanTable_isOk_iff hco.sound]
  rcases hrows : s.engine.scanTable rt q.left (s.engine.readVersion conn) with err | leftRows
  · exact iff_of_false (fun ⟨_, _, heq, _⟩ ↦ nomatch heq) fun ⟨⟨_, heq⟩, _⟩ ↦ nomatch heq
  rcases hrows' : s.engine.scanTable rt q.right (s.engine.readVersion conn) with err | rightRows
  · exact iff_of_false (fun ⟨_, _, heq, _⟩ ↦ nomatch heq) fun ⟨_, ⟨_, heq⟩, _⟩ ↦ nomatch heq
  obtain rfl := scanTable_eq hco.sound hrows
  obtain rfl := scanTable_eq hco.sound hrows'
  have hperm := map_filter_perm_iff (JoinQuery.decides_tested rt hq hnames)
    (JoinQuery.decides_holds rt hq hnames)
  rw [← JoinQuery.keptRows_joinRows hq hnames] at hperm
  rw [and_iff_right ⟨_, rfl⟩, and_iff_right ⟨_, rfl⟩]
  refine Iff.trans ⟨?_, fun h ↦ ⟨_, _, rfl, h⟩⟩ (hperm.trans ?_)
  · rintro ⟨_, _, heq, h⟩
    cases heq
    exact h
  · exact ⟨fun h u hu w hw ↦ h (u, w) (List.mem_product.2 ⟨hu, hw⟩),
      fun h p hp ↦ h p.1 (List.mem_product.1 hp).1 p.2 (List.mem_product.1 hp).2⟩

/-- Behind the names of their tables, keys that every row has make the join. -/
theorem JoinQuery.fits_of_names {rt : Runtime} {e : Engine} {version : Nat} {q : JoinQuery}
    (hne : q.left ≠ q.right) (hclause : q.clause = none)
    (hleft : q.leftKey.source = q.left) (hright : q.rightKey.source = q.right)
    (hscan : Scannable id rt q.left version (e.entries rt) [])
    (hscan' : Scannable id rt q.right version (e.entries rt) [])
    (hu : ∀ u ∈ e.scanned rt q.left version, ∃ v, u.2.lookup q.leftKey.column = some v ∧ v ≠ [])
    (hw : ∀ w ∈ e.scanned rt q.right version, ∃ v, w.2.lookup q.rightKey.column = some v ∧ v ≠ []) :
    q.Fits rt e version := by
  refine ⟨hscan, hscan', fun u hmem w hmem' ↦ ?_⟩
  obtain ⟨a, ha, hne'⟩ := hu u hmem
  obtain ⟨b, hb, -⟩ := hw w hmem'
  have hempty : a.isEmpty = false := List.isEmpty_eq_false_iff.2 hne'
  have hreached : q.leftKey.reached q.left u.2 w.2 = a := by
    rw [Reference.reached, if_pos hleft, ha]
    rfl
  have hreached' : q.rightKey.reached q.left u.2 w.2 = b := by
    rw [Reference.reached, if_neg (hright ▸ hne.symm), hb]
    rfl
  rw [tested, holds, hclause, hreached, hreached', ha, hb]
  simp only [BinaryOperator.compare, hempty, Bool.false_and, Bool.false_eq_true, if_false,
    Option.all_none, Bool.and_true, Option.isSome_some, Bool.true_and, Option.some_beq_some]

/-! ### Two tables with a key of one name -/

/-- Two tables, with a row each. -/
def insertKeyed (left right : String) : List Action :=
  [.call 1 (createTableOf "l" ["id", "x"]), .call 1 (createTableOf "r" ["id", "y"]),
    .call 1 (insertOf "l" [left, "a"]), .flushRound, .flushRound, .flushRound, .flushRound,
    .call 1 (insertOf "r" [right, "b"])]

/-- `SELECT * FROM l m JOIN r n ON left.id = right.id`, behind the names or the aliases. -/
def joinKeyed (left right : String) : JoinQuery where
  projection := [.other]
  left := bytes "l"
  leftAlias := some (bytes "m")
  right := bytes "r"
  rightAlias := some (bytes "n")
  leftKey := ⟨[bytes left], bytes "id"⟩
  rightKey := ⟨[bytes right], bytes "id"⟩
  clause := none

/-- The names of the columns. -/
def keyedNames : List Bytes := [bytes "id", bytes "x", bytes "y"]

theorem distinguished_keyed (tables : List Bytes) : Distinguished tables keyedNames :=
  distinguished_of_dotless (by decide) (by decide)

/-- No value is empty. -/
def Filled (l : List (Bytes × Row)) : Prop := ∀ x ∈ l, ∀ c ∈ x.2.toList, c.2 ≠ []

instance : DecidablePred Filled := fun l ↦
  inferInstanceAs (Decidable (∀ x ∈ l, ∀ c ∈ x.2.toList, c.2 ≠ []))

/-- The names of the rows are among them. -/
theorem namesTold_keyed {left right : String} {l r : List (Bytes × Row)}
    (hl : ∀ u ∈ l, ∀ c ∈ u.2.keys, c ∈ keyedNames) (hr : ∀ w ∈ r, ∀ c ∈ w.2.keys, c ∈ keyedNames) :
    (joinKeyed left right).NamesTold keyedNames l r := by
  refine ⟨distinguished_keyed _, hl, hr, fun ref href ↦ ?_⟩
  obtain rfl | rfl : ref = (joinKeyed left right).leftKey ∨ ref = (joinKeyed left right).rightKey := by
    simpa only [JoinQuery.references, joinKeyed, Option.elim_none, List.mem_cons, List.not_mem_nil,
      or_false] using href
  all_goals exact List.mem_cons_self

theorem join_iff_names : let _ := plainBincode []
    ∃ s, System.start.run .plain (insertKeyed "1" "1") = some s ∧
      (∀ u ∈ s.engine.scanned .plain (bytes "l") (s.engine.readVersion 1),
        ∀ w ∈ s.engine.scanned .plain (bytes "r") (s.engine.readVersion 1), ∀ c ∈ keyedNames,
          ((joinKeyed "l" "r").merged .plain (u, w)).lookup (qualified (bytes "l") c) = u.2.lookup c ∧
            ((joinKeyed "l" "r").merged .plain (u, w)).lookup (qualified (bytes "r") c) =
              w.2.lookup c) ∧
        ((joinKeyed "l" "r").Joins .plain s.engine (s.engine.readVersion 1) ↔
          (joinKeyed "l" "r").Fits .plain s.engine (s.engine.readVersion 1)) := by
  let _ := plainBincode []
  obtain ⟨s, hs⟩ : ∃ s, System.start.run .plain (insertKeyed "1" "1") = some s :=
    Option.isSome_iff_exists.1 (by decide +kernel)
  have hall : (System.start.run .plain (insertKeyed "1" "1")).all (fun s ↦
      s.engine.btree.pager.handedOut.length < 2 ^ 32 ∧ s.engine.history.bumps < 2 ^ 64 ∧
        (s.engine.schemas.lookup (bytes "l")).isSome ∧ (s.engine.schemas.lookup (bytes "r")).isSome ∧
        (∀ u ∈ s.engine.scanned .plain (bytes "l") (s.engine.readVersion 1), ∀ c ∈ u.2.keys,
          c ∈ keyedNames) ∧
        ∀ w ∈ s.engine.scanned .plain (bytes "r") (s.engine.readVersion 1), ∀ c ∈ w.2.keys,
          c ∈ keyedNames) = true := by
    decide +kernel
  rw [hs, Option.all_some, decide_eq_true_iff] at hall
  obtain ⟨hpages, hbumps, hleft, hright, hu, hw⟩ := hall
  have hwell : (joinKeyed "l" "r").Well :=
    ⟨by decide, ⟨List.cons_ne_nil _ _, .inl rfl⟩, ⟨List.cons_ne_nil _ _, .inl rfl⟩, by rintro w ⟨⟩⟩
  exact ⟨s, hs, join_iff hs ⟨hpages, hbumps⟩ hwell hleft hright (by rintro x ⟨⟩)
    (namesTold_keyed hu hw)⟩

/-- Behind aliases, both keys are read from the right row, and every pair is joined. -/
theorem not_join : ¬ ∀ (_ : Bincode (WalEntry Bytes Data)) (rt : Runtime) (actions : List Action)
    (s : System) (conn : Nat) (q : JoinQuery) (names : List Bytes),
    System.start.run rt actions = some s → s.engine.Bounded → q.Well →
    (s.engine.schemas.lookup q.left).isSome → (s.engine.schemas.lookup q.right).isSome →
    (∀ x ∈ indexLookup rt q.selection, s.engine.fetch rt (indexKey q.left x.1 x.2) = .ok none) →
    q.NamesTold names (s.engine.scanned rt q.left (s.engine.readVersion conn))
      (s.engine.scanned rt q.right (s.engine.readVersion conn)) →
    Filled (s.engine.scanned rt q.left (s.engine.readVersion conn)) →
    Filled (s.engine.scanned rt q.right (s.engine.readVersion conn)) →
    q.Joins rt s.engine (s.engine.readVersion conn) := by
  intro h
  let _ := plainBincode []
  obtain ⟨s, hs⟩ : ∃ s, System.start.run .plain (insertKeyed "1" "2") = some s :=
    Option.isSome_iff_exists.1 (by decide +kernel)
  have hall : (System.start.run .plain (insertKeyed "1" "2")).all (fun s ↦
      s.engine.btree.pager.handedOut.length < 2 ^ 32 ∧ s.engine.history.bumps < 2 ^ 64 ∧
        (s.engine.schemas.lookup (bytes "l")).isSome ∧ (s.engine.schemas.lookup (bytes "r")).isSome ∧
        (∀ u ∈ s.engine.scanned .plain (bytes "l") (s.engine.readVersion 1), ∀ c ∈ u.2.keys,
          c ∈ keyedNames) ∧
        (∀ w ∈ s.engine.scanned .plain (bytes "r") (s.engine.readVersion 1), ∀ c ∈ w.2.keys,
          c ∈ keyedNames) ∧
        Filled (s.engine.scanned .plain (bytes "l") (s.engine.readVersion 1)) ∧
        Filled (s.engine.scanned .plain (bytes "r") (s.engine.readVersion 1)) ∧
        ((s.engine.selectRows .plain (s.engine.readVersion 1) (joinKeyed "m" "n").toSelect).toOption.map
          fun x ↦ x.2.length) = some 1 ∧
        ((s.engine.scanned .plain (bytes "l") (s.engine.readVersion 1) ×ˢ
          s.engine.scanned .plain (bytes "r") (s.engine.readVersion 1)).filter fun p ↦
            (joinKeyed "m" "n").holds .plain p.1.2 p.2.2).length = 0) = true := by
    decide +kernel
  rw [hs, Option.all_some, decide_eq_true_iff] at hall
  obtain ⟨hpages, hbumps, hleft, hright, hu, hw, hfilled, hfilled', hone, hnone⟩ := hall
  obtain ⟨headings, rows, hrows, hperm⟩ := h _ .plain _ s 1 (joinKeyed "m" "n") _ hs ⟨hpages, hbumps⟩
    ⟨by decide, ⟨List.cons_ne_nil _ _, .inr rfl⟩, ⟨List.cons_ne_nil _ _, .inr rfl⟩, by rintro w ⟨⟩⟩
    hleft hright (by rintro x ⟨⟩) (namesTold_keyed hu hw) hfilled hfilled'
  rw [hrows] at hone
  have hlength := hperm.length_eq
  rw [List.length_map] at hlength
  exact absurd ((Option.some.inj hone).symm.trans (hlength.trans hnone)) (by decide)

end KsSql
