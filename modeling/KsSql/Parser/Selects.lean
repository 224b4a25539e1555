import KsSql.Parser.Rows
import KsSql.Parser.Runs
import KsSql.Parser.Scans

/-!
# Queries of one table

A query whose condition is `column = value` is answered by an index, if there is an entry for the value
and what it leads to can be shown: then this is the only row considered (`Engine.probeIndex_eq`). Every
other query scans the table. The rows are then filtered, unless the condition speaks of `VECTOR_SEARCH`
(`selectRows_eq`).
-/

namespace KsSql

namespace Engine

variable (rt : Runtime) (e : Engine)

/-- What the index entry for a value leads to: the key in the entry, and what is stored under that. -/
def indexTarget (tableName column value : Bytes) : Option (Bytes × Data) :=
  (e.fetch rt (indexKey tableName column value)).toOption.join.bind fun target ↦
    (e.fetch rt (rt.finalKey target)).toOption.join.map fun data ↦ (rt.dataBytes target, data)

/-- The rows that a query keeps of those it considers. -/
def keptRows (selection : Option Expr) (rows : List Row) : List Row :=
  match selection with
  | none => rows
  | some selection =>
    if occursIn (bytes "VECTOR_SEARCH") (rt.display selection) then rows
    else rows.filter fun row ↦ evaluateWhere rt row selection

/-- A query keeps a row. -/
def keeps (selection : Option Expr) (row : Row) : Bool :=
  selection.all fun selection ↦
    occursIn (bytes "VECTOR_SEARCH") (rt.display selection) || evaluateWhere rt row selection

theorem keptRows_eq_filter (selection : Option Expr) (rows : List Row) :
    keptRows rt selection rows = rows.filter (keeps rt selection) := by
  unfold keptRows keeps
  rcases selection with - | selection
  · exact (List.filter_true rows).symm
  · simp only [Option.all_some]
    split
    · rename_i hvector
      simp only [hvector, Bool.true_or, List.filter_true]
    · rename_i hvector
      simp only [Bool.eq_false_iff.2 hvector, Bool.false_or]

/-- The query of one table: `SELECT .. FROM t`, with a condition. -/
def queryOf (projection : List SelectItem) (tableName : Bytes) (selection : Option Expr) : Select :=
  ⟨projection, [⟨.table tableName, []⟩], selection⟩

variable {rt e} {N : Bytes → Prop} {t column value : Bytes} {version : Nat}

/-- **An index** answers with the row that its entry leads to, if that can be shown. -/
theorem Coherent.probeIndex_eq (h : e.Coherent rt N) :
    e.probeIndex rt t version column value = match e.indexTarget rt t column value with
      | none => .ok none
      | some (key, data) => (rt.read version data).map (Option.map (scannedRow rt t key)) := by
  obtain ⟨target?, htarget, -⟩ := h.fetch (indexKey t column value)
  rw [probeIndex, indexTarget, htarget, Except.ok_bind]
  rcases target? with - | target
  · rfl
  obtain ⟨data?, hdata, -⟩ := h.fetch (rt.finalKey target)
  have hfound : (Except.ok (some target) : Except EngineError (Option Data)).toOption.join.bind
      (fun target ↦ (e.fetch rt (rt.finalKey target)).toOption.join.map fun data ↦
        (rt.dataBytes target, data)) = data?.map fun data ↦ (rt.dataBytes target, data) := by
    show (e.fetch rt (rt.finalKey target)).toOption.join.map _ = _
    rw [hdata]
    rfl
  rw [hfound]
  dsimp only
  rw [hdata, Except.ok_bind]
  rcases data? with - | data
  · rfl
  show (rt.decodeRecord data >>= _) = (rt.read version data).map _
  rw [Runtime.read]
  rcases rt.decodeRecord data with err | record
  · rfl
  · show (if _ then _ else _) = Except.map _ (if _ then _ else _)
    split
    · rcases rt.decodeRow record.value with err | columns <;> rfl
    · rfl

/-- The rows of a query of one table. -/
theorem selectRows_eq {schema : TableSchema} (hschema : e.schemas.lookup t = some schema)
    (projection : List SelectItem) (selection : Option Expr) :
    e.selectRows rt version (queryOf projection t selection) =
      (e.scanTableWithFilter rt t version selection).map fun rows ↦
        (schema.columns.map (qualified t), keptRows rt selection rows) := by
  rw [selectRows, queryOf]
  simp only [Except.ok_bind, hschema]
  rcases e.scanTableWithFilter rt t version selection with err | rows
  · rfl
  · rcases selection with - | selection
    · rfl
    · show (if _ then _ else _) = Except.ok (_, if _ then _ else _)
      split <;> rfl

end Engine

end KsSql
