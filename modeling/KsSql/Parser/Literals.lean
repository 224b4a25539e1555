import KsSql.Parser.Conditions
import KsSql.Parser.Selects

/-!
# Literals

The texts that a literal stands for. `INSERT` looks at two kinds of expressions and stores `NULL` for all
others (`insertedText`), `UPDATE` and the conditions print the expression and drop the quotes
(`Runtime.unquoted`). The texts are the same for a number without a sign and suffix and for a string
without quotes (`Constant.Plain`, `insertedText_eq_unquoted_iff`), and for no other literal.

A row with the text is then found by a query for the literal, unless an index leads elsewhere or the table
cannot be read (`Engine.Direct`, `literals_iff`).
-/

namespace KsSql

open Engine

/-- A literal of SQL. -/
inductive Constant
  /-- A number, with or without the suffix of a long one. -/
  | number (n : Numeral) (long : Bool)
  | string (text : Bytes)
  | boolean (b : Bool)

namespace Constant

/-- The printed form of a truth value. -/
def booleanText (b : Bool) : Bytes := bytes (if b then "true" else "false")

/-- The suffix of a number. -/
def suffix (long : Bool) : Bytes := if long then bytes "L" else []

/-- The expression that the SQL parser reads. A number with a sign is a unary operation. -/
def toExpr : Constant → Expr
  | .number n long =>
    if n.signed then .other (n.text ++ suffix long) else .value (.number n.text long)
  | .string text => .value (.singleQuotedString text)
  | .boolean b => .value (.other (booleanText b))

/-- The text of the value. -/
def text : Constant → Bytes
  | .number n _ => n.text
  | .string text => text
  | .boolean b => booleanText b

/-- What is left of the printed literal without quotes. -/
def printed : Constant → Bytes
  | .number n long => n.text ++ suffix long
  | .string text => text.filter (· ≠ 39)
  | .boolean b => booleanText b

/-- A number without a sign, or a string. -/
def Unsigned : Constant → Prop
  | .number n _ => n.signed = false
  | .string _ => True
  | .boolean _ => False

/-- A number without a sign and without a suffix, or a string without quotes. -/
def Plain : Constant → Prop
  | .number n long => n.signed = false ∧ long = false
  | .string text => 39 ∉ text
  | .boolean _ => False

instance : DecidablePred Unsigned
  | .number n _ => inferInstanceAs (Decidable (n.signed = false))
  | .string _ => instDecidableTrue
  | .boolean _ => instDecidableFalse

instance : DecidablePred Plain
  | .number n long => inferInstanceAs (Decidable (n.signed = false ∧ long = false))
  | .string text => inferInstanceAs (Decidable (39 ∉ text))
  | .boolean _ => instDecidableFalse

end Constant

/-! ### The characters of a number -/

theorem Numeral.text_ne_nil (n : Numeral) : n.text ≠ [] := fun h ↦ by
  have hvalue := n.value_eq
  rw [h] at hvalue
  exact nomatch hvalue

theorem Numeral.quote_not_mem (n : Numeral) : (39 : UInt8) ∉ n.text := fun h ↦
  absurd (Decimal.isPart_of_parse n.value_eq _ h) (by decide)

/-- A number is not the text that `INSERT` stores for what it does not know. -/
theorem Numeral.text_ne_null (n : Numeral) (rest : Bytes) : n.text ++ rest ≠ bytes "NULL" := by
  rcases htext : n.text with - | ⟨c, digits⟩
  · exact absurd htext n.text_ne_nil
  intro h
  have hc : c = 78 := (List.cons.inj h).1
  have hpart := Decimal.isPart_of_parse n.value_eq c (by rw [htext]; exact List.mem_cons_self)
  rw [hc] at hpart
  exact absurd hpart (by decide)

/-! ### The texts of a literal -/

section

variable {rt : Runtime} {v : Constant}

/-- `INSERT` stores the text of a number without a sign and of a string. -/
theorem insertedText_of_unsigned (h : v.Unsigned) : insertedText v.toExpr = v.text := by
  cases v with
  | number n long =>
    have hsign : n.signed = false := h
    rw [Constant.toExpr, hsign]
    rfl
  | string text => rfl
  | boolean b => exact h.elim

/-- And `NULL` for any other literal. -/
theorem insertedText_of_not_unsigned (h : ¬ v.Unsigned) : insertedText v.toExpr = bytes "NULL" := by
  cases v with
  | number n long =>
    have hsign : n.signed = true := eq_true_of_ne_false h
    rw [Constant.toExpr, hsign]
    rfl
  | string text => exact absurd trivial h
  | boolean b => rfl

/-- `UPDATE` stores the printed literal without its quotes. -/
theorem unquoted_toExpr (hdisplay : rt.DisplaysLiterals) : rt.unquoted v.toExpr = v.printed := by
  cases v with
  | number n long =>
    have hprinted : (n.text ++ Constant.suffix long).filter (· ≠ 39) =
        n.text ++ Constant.suffix long := by
      refine List.filter_eq_self.2 fun c hc ↦ decide_eq_true fun hquote ↦ ?_
      rcases List.mem_append.1 hc with hc | hc
      · exact n.quote_not_mem (hquote ▸ hc)
      · cases long with
        | true => exact absurd (hquote ▸ hc) (by decide)
        | false => cases hc
    rw [Constant.toExpr]
    split
    · rw [Runtime.unquoted, hdisplay.expression]
      exact hprinted
    · rw [Runtime.unquoted, hdisplay.number]
      exact hprinted
  | string text => exact hdisplay.string text
  | boolean b =>
    rw [Constant.toExpr, Runtime.unquoted, hdisplay.literal]
    cases b <;> decide

/-- A plain literal is printed as its text. -/
theorem Constant.Plain.printed_eq (h : v.Plain) : v.printed = v.text := by
  cases v with
  | number n long =>
    rw [Constant.printed, h.2]
    exact List.append_nil n.text
  | string text => exact List.filter_eq_self.2 fun c hc ↦ decide_eq_true fun hquote ↦ h (hquote ▸ hc)
  | boolean b => exact h.elim

theorem Constant.Plain.unsigned (h : v.Plain) : v.Unsigned := by
  cases v with
  | number n long => exact h.1
  | string text => trivial
  | boolean b => exact h.elim

/-- **`INSERT` and `UPDATE` store the same text for plain literals only.** -/
theorem insertedText_eq_unquoted_iff (hdisplay : rt.DisplaysLiterals) :
    insertedText v.toExpr = rt.unquoted v.toExpr ↔ v.Plain := by
  rw [unquoted_toExpr hdisplay]
  refine ⟨fun h ↦ ?_, fun h ↦ (insertedText_of_unsigned h.unsigned).trans h.printed_eq.symm⟩
  by_cases hunsigned : v.Unsigned
  · rw [insertedText_of_unsigned hunsigned] at h
    cases v with
    | number n long =>
      refine ⟨hunsigned, ?_⟩
      cases long with
      | true => exact absurd (List.append_right_eq_self.1 h.symm) (by decide)
      | false => rfl
    | string text =>
      intro hquote
      exact absurd (List.filter_eq_self.1 h.symm 39 hquote) (by decide)
    | boolean b => exact hunsigned.elim
  · rw [insertedText_of_not_unsigned hunsigned] at h
    cases v with
    | number n long => exact absurd h.symm (n.text_ne_null _)
    | string text => exact absurd trivial hunsigned
    | boolean b => cases b <;> exact absurd h (by decide)

end

/-! ### The rows that are stored -/

/-- The rows that an `INSERT` stores, with the literal as the value of a column. -/
def Constant.InsertedIn (v : Constant) (c : Bytes) (columns : Row) : Prop :=
  ∃ (schema : TableSchema) (nextId : Nat) (values : List Expr) (i : Nat),
    (schema.targets.take values.length).Nodup ∧ schema.targets[i]? = some c ∧
      values[i]? = some v.toExpr ∧ columns = insertedColumns schema nextId values

/-- The rows that an `UPDATE` stores, with the literal assigned to a column. -/
def Constant.UpdatedIn (v : Constant) (rt : Runtime) (c : Bytes) (columns : Row) : Prop :=
  ∃ record record', assign rt [⟨[c], v.toExpr⟩] record = .ok record' ∧ record'.value = .row columns

variable {rt : Runtime} {v : Constant} {c t key : Bytes} {columns : Row} {e : Engine} {version : Nat}

theorem Constant.InsertedIn.lookup (h : v.InsertedIn c columns) :
    columns.lookup c = some (insertedText v.toExpr) := by
  obtain ⟨schema, nextId, values, i, hnodup, hc, hx, rfl⟩ := h
  exact lookup_insertedColumns hnodup hc hx

theorem Constant.UpdatedIn.lookup (h : v.UpdatedIn rt c columns) :
    columns.lookup c = some (rt.unquoted v.toExpr) := by
  obtain ⟨record, record', hassign, hvalue⟩ := h
  obtain ⟨before, -, hassign⟩ := Except.exists_of_bind_eq_ok hassign
  obtain rfl := Except.ok.inj hassign
  obtain rfl := Payload.row.inj hvalue
  exact AList.lookup_insert _

/-! ### Finding them -/

namespace Engine

/-- The query for the rows of a table that have the literal in a column. -/
def queryFor (t c : Bytes) (v : Constant) : Select :=
  queryOf [.other] t (some (.binaryOp (.identifier c) .eq v.toExpr))

/-- The query for the literal returns the row. -/
def Returns (rt : Runtime) (e : Engine) (version : Nat) (t c : Bytes) (v : Constant) (key : Bytes)
    (columns : Row) : Prop :=
  ∃ names rows, e.selectRows rt version (queryFor t c v) = .ok (names, rows) ∧
    scannedRow rt t key columns ∈ rows

/-- The table can be scanned, and an index on the column has nothing to show for the text but the row. -/
def Direct (rt : Runtime) (e : Engine) (version : Nat) (t c text key : Bytes) (columns : Row) : Prop :=
  match e.indexTarget rt t c text with
  | none => Scannable id rt t version (e.entries rt) []
  | some (target, data) => rt.Readable version data ∧ match rt.shown version data with
    | none => Scannable id rt t version (e.entries rt) []
    | some found => scannedRow rt t target found = scannedRow rt t key columns

/-- What a query keeps of a row that its condition holds on. -/
theorem mem_keptRows {selection : Expr} {row : Row} {rows : List Row}
    (h : evaluateWhere rt row selection = true) :
    row ∈ keptRows rt (some selection) rows ↔ row ∈ rows := by
  show row ∈ (if _ then _ else _) ↔ _
  split
  · exact Iff.rfl
  · rw [List.mem_filter]
    exact and_iff_left h

/-- A scan returns each row that it shows, unless it fails. -/
theorem Coherent.scan_returns_iff {N : Bytes → Prop} (h : e.Coherent rt N)
    (hview : e.view rt t version key = some columns) :
    (∃ rows, e.scanTable rt t version = .ok rows ∧ scannedRow rt t key columns ∈ rows) ↔
      Scannable id rt t version (e.entries rt) [] := by
  rw [← scanTable_isOk_iff h.sound]
  refine exists_congr fun rows ↦ and_iff_left_of_imp fun hrows ↦ ?_
  rw [scanTable_eq h.sound hrows]
  exact List.mem_map.2 ⟨(key, columns), mem_scanned.2 hview, rfl⟩

/-- **A row that has the text of a plain literal is returned exactly if nothing stands in the way.** -/
theorem Coherent.returns_iff {N : Bytes → Prop} (h : e.Coherent rt N) (hdisplay : rt.DisplaysLiterals)
    (hplain : v.Plain) (htext : v.text ≠ []) {schema : TableSchema}
    (hschema : e.schemas.lookup t = some schema)
    (hview : e.view rt t version key = some columns) (hnames : columns.Unqualified t)
    (hc : columns.lookup c = some v.text) :
    e.Returns rt version t c v key columns ↔ e.Direct rt version t c v.text key columns := by
  have hunquoted : rt.unquoted v.toExpr = v.text := (unquoted_toExpr hdisplay).trans hplain.printed_eq
  obtain ⟨literal, hliteral⟩ : ∃ literal, v.toExpr = .value literal := by
    cases v with
    | number n long =>
      refine ⟨.number n.text long, ?_⟩
      rw [Constant.toExpr, hplain.1]
      rfl
    | string text => exact ⟨_, rfl⟩
    | boolean b => exact hplain.elim
  rw [hliteral] at hunquoted
  have hlookup : indexLookup rt (some (.binaryOp (.identifier c) .eq v.toExpr)) = some (c, v.text) := by
    rw [hliteral, ← hunquoted]
    rfl
  have hwhere : evaluateWhere rt (scannedRow rt t key columns)
      (.binaryOp (.identifier c) .eq v.toExpr) = true := by
    have hrow : (scannedRow rt t key columns).lookup c = some v.text := lookup_scannedRow hnames hc
    have hempty : v.text.isEmpty = false := List.isEmpty_eq_false_iff.2 htext
    rw [hliteral]
    simp only [evaluateWhere, getData, hrow, hunquoted, hempty, Bool.and_self, Bool.false_eq_true,
      if_false, beq_self_eq_true]
  have hreturns : e.Returns rt version t c v key columns ↔
      ∃ rows, e.scanTableWithFilter rt t version (some (.binaryOp (.identifier c) .eq v.toExpr)) =
        .ok rows ∧ scannedRow rt t key columns ∈ rows := by
    rw [Returns, queryFor, selectRows_eq hschema]
    rcases e.scanTableWithFilter rt t version
      (some (.binaryOp (.identifier c) .eq v.toExpr)) with err | rows
    · refine iff_of_false ?_ ?_
      · rintro ⟨-, -, ⟨⟩, -⟩
      · rintro ⟨-, ⟨⟩, -⟩
    · constructor
      · rintro ⟨_, _, heq, hmem⟩
        cases heq
        exact ⟨rows, rfl, (mem_keptRows hwhere).1 hmem⟩
      · rintro ⟨_, heq, hmem⟩
        cases heq
        exact ⟨_, _, rfl, (mem_keptRows hwhere).2 hmem⟩
  rw [hreturns, scanTableWithFilter, hlookup]
  dsimp only
  rw [h.probeIndex_eq, Direct]
  rcases e.indexTarget rt t c v.text with - | ⟨target, data⟩
  · exact h.scan_returns_iff hview
  · dsimp only
    by_cases hreadable : rt.Readable version data
    · rw [Runtime.read_of_readable hreadable, and_iff_right hreadable]
      rcases rt.shown version data with - | found
      · exact h.scan_returns_iff hview
      · constructor
        · rintro ⟨_, heq, hmem⟩
          cases heq
          exact (List.mem_singleton.1 hmem).symm
        · exact fun heq ↦ ⟨_, rfl, List.mem_singleton.2 heq.symm⟩
    · rcases hread : rt.read version data with err | shown
      · refine iff_of_false ?_ fun hdirect ↦ hreadable hdirect.1
        rintro ⟨-, ⟨⟩, -⟩
      · exact absurd (Runtime.readable_of_read hread) hreadable

end Engine

/-- In a state that a run reaches, a row of a table is seen by a connection. -/
structure System.Shows [Bincode (WalEntry Bytes Data)] (rt : Runtime) (s : System) (conn : Nat)
    (t key : Bytes) (columns : Row) : Prop where
  reached : ∃ actions, System.start.run rt actions = some s
  bounded : s.engine.Bounded
  table : ∃ schema, s.engine.schemas.lookup t = some schema
  view : s.engine.view rt t (s.engine.readVersion conn) key = some columns
  names : columns.Unqualified t

/-- **When a literal means the same everywhere.** Two rows are given, one that an `INSERT` has stored with
the literal in a column and one to which an `UPDATE` has assigned it, and states in which connections see
them. They have the same text in the column, and queries for the literal return them, exactly if the
literal is plain and nothing stands between the queries and the rows. -/
theorem literals_iff [Bincode (WalEntry Bytes Data)] {s₁ s₂ : System} {conn₁ conn₂ : Nat}
    {key₁ key₂ : Bytes} {columns₁ columns₂ : Row} (hdisplay : rt.DisplaysLiterals)
    (hv : v ≠ .string []) (hinserted : v.InsertedIn c columns₁) (hupdated : v.UpdatedIn rt c columns₂)
    (h₁ : s₁.Shows rt conn₁ t key₁ columns₁) (h₂ : s₂.Shows rt conn₂ t key₂ columns₂) :
    (columns₁.lookup c = columns₂.lookup c ∧
      s₁.engine.Returns rt (s₁.engine.readVersion conn₁) t c v key₁ columns₁ ∧
      s₂.engine.Returns rt (s₂.engine.readVersion conn₂) t c v key₂ columns₂) ↔
    v.Plain ∧ s₁.engine.Direct rt (s₁.engine.readVersion conn₁) t c v.text key₁ columns₁ ∧
      s₂.engine.Direct rt (s₂.engine.readVersion conn₂) t c v.text key₂ columns₂ := by
  have htext : v.text ≠ [] := by
    cases v with
    | number n long => exact n.text_ne_nil
    | string text => exact fun h ↦ hv (congrArg Constant.string h)
    | boolean b => cases b <;> decide
  have hsame : columns₁.lookup c = columns₂.lookup c ↔ v.Plain := by
    rw [hinserted.lookup, hupdated.lookup, Option.some.injEq]
    exact insertedText_eq_unquoted_iff hdisplay
  rw [hsame]
  refine and_congr_right fun hplain ↦ and_congr ?_ ?_
  · obtain ⟨actions, hrun⟩ := h₁.reached
    obtain ⟨schema, hschema⟩ := h₁.table
    have hc : columns₁.lookup c = some v.text :=
      hinserted.lookup.trans (congrArg some (insertedText_of_unsigned hplain.unsigned))
    exact (System.coherent_of_run hrun h₁.bounded).returns_iff hdisplay hplain htext hschema h₁.view
      h₁.names hc
  · obtain ⟨actions, hrun⟩ := h₂.reached
    obtain ⟨schema, hschema⟩ := h₂.table
    have hc : columns₂.lookup c = some v.text :=
      hupdated.lookup.trans (congrArg some ((unquoted_toExpr hdisplay).trans hplain.printed_eq))
    exact (System.coherent_of_run hrun h₂.bounded).returns_iff hdisplay hplain htext hschema h₂.view
      h₂.names hc

/-! ### A row with a number -/

/-- A row is inserted. -/
def insertTwoDigits : List Action :=
  [.call 1 (createTableOf "u" ["id"]), .call 1 (insertOf "u" ["2"])]

/-- And set to its own text. -/
def updateTwoDigits : List Action :=
  insertTwoDigits ++ [.flushRound, .flushRound, .flushRound,
    .call 1 (updateOf "u" "id" "2" none)]

/-- The columns of the row. -/
def twoDigits : Row := (∅ : Row).insert (bytes "id") (bytes "2")

theorem literals_iff_two : let _ := plainBincode []
    ∃ s₁ s₂, System.start.run .plain insertTwoDigits = some s₁ ∧
      System.start.run .plain updateTwoDigits = some s₂ ∧
      ((twoDigits.lookup (bytes "id") = twoDigits.lookup (bytes "id") ∧
        s₁.engine.Returns .plain (s₁.engine.readVersion 1) (bytes "u") (bytes "id")
          (.string (bytes "2")) (rowKey (bytes "u") 0) twoDigits ∧
        s₂.engine.Returns .plain (s₂.engine.readVersion 1) (bytes "u") (bytes "id")
          (.string (bytes "2")) (rowKey (bytes "u") 0) twoDigits) ↔
      (Constant.string (bytes "2")).Plain ∧
        s₁.engine.Direct .plain (s₁.engine.readVersion 1) (bytes "u") (bytes "id")
          (bytes "2") (rowKey (bytes "u") 0) twoDigits ∧
        s₂.engine.Direct .plain (s₂.engine.readVersion 1) (bytes "u") (bytes "id")
          (bytes "2") (rowKey (bytes "u") 0) twoDigits) := by
  let _ := plainBincode []
  have hshows : ∀ actions, (System.start.run .plain actions).all (fun s ↦
      s.engine.btree.pager.handedOut.length < 2 ^ 32 ∧ s.engine.history.bumps < 2 ^ 64 ∧
        (s.engine.schemas.lookup (bytes "u")).isSome ∧
        s.engine.view .plain (bytes "u") (s.engine.readVersion 1) (rowKey (bytes "u") 0) =
          some twoDigits) = true →
      ∀ s, System.start.run .plain actions = some s →
        s.Shows .plain 1 (bytes "u") (rowKey (bytes "u") 0) twoDigits := by
    intro actions hall s hs
    rw [hs, Option.all_some, decide_eq_true_iff] at hall
    obtain ⟨hpages, hbumps, htable, hview⟩ := hall
    exact ⟨⟨actions, hs⟩, ⟨hpages, hbumps⟩, Option.isSome_iff_exists.1 htable, hview, by decide⟩
  obtain ⟨s₁, hs₁⟩ : ∃ s, System.start.run .plain insertTwoDigits = some s :=
    Option.isSome_iff_exists.1 (by decide +kernel)
  obtain ⟨s₂, hs₂⟩ : ∃ s, System.start.run .plain updateTwoDigits = some s :=
    Option.isSome_iff_exists.1 (by decide +kernel)
  refine ⟨s₁, s₂, hs₁, hs₂, literals_iff displaysLiterals_plain (fun h ↦ nomatch h)
    ⟨⟨bytes "u", [bytes "id"], none, 1⟩, 1, [.value (.singleQuotedString (bytes "2"))], 0,
      by decide, rfl, rfl, by decide⟩
    ⟨⟨.row twoDigits, 0, false, 0⟩, _, rfl, congrArg Payload.row (by decide)⟩
    (hshows _ (by decide +kernel) s₁ hs₁) (hshows _ (by decide +kernel) s₂ hs₂)⟩

/-- A quote in a string is stored by `INSERT`, and dropped by `UPDATE`. -/
theorem not_literals : ¬ ∀ (rt : Runtime) (v : Constant) (c : Bytes) (columns₁ columns₂ : Row),
    rt.DisplaysLiterals → v ≠ .string [] → v.InsertedIn c columns₁ → v.UpdatedIn rt c columns₂ →
      columns₁.lookup c = columns₂.lookup c := by
  intro h
  have hsame := h .plain (.string (bytes "O'Brien")) (bytes "name")
    ((∅ : Row).insert (bytes "name") (bytes "O'Brien"))
    ((∅ : Row).insert (bytes "name") (bytes "OBrien")) displaysLiterals_plain (fun h ↦ nomatch h)
    ⟨⟨bytes "u", [bytes "name"], none, 1⟩, 1, [.value (.singleQuotedString (bytes "O'Brien"))], 0,
      by decide, rfl, rfl, by decide⟩
    ⟨⟨.row ∅, 0, false, 0⟩, _, rfl, congrArg Payload.row (by decide)⟩
  exact absurd hsame (by decide)

end KsSql
