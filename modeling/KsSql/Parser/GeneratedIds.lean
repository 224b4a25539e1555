import KsSql.Parser.Insertions
import KsSql.Parser.OpenTransactions
import KsSql.Parser.PlainRuntime

/-!
# Generated numbers

An `INSERT` takes a copy of the table's schema, numbers its rows from the counter in the copy, and writes
the copy with the new counter back when all of them are stored. It holds no lock meanwhile.
`InsertUnderWay` is one whose copy is taken, with the steps of the handler (`handleInsert_eq_rest`,
`rest_step`), and `Ingestion` any number of them beside everything else that the system does.

Two that take their copies before one of them writes it back give the same numbers to their rows
(`not_ids_unique`). So do two one after the other if the first one fails between its rows and its counter,
or if the table is created again; and a column that is declared `SERIAL` by its type gets no numbers at
all, while one that is not the first gets the values of the statement. `Careful` says of a step that it
does none of this, and then no two rows of the table have the same number (`ids_unique`).
-/

namespace KsSql

open Engine

/-! ### What changes the catalogue -/

/-- An `INSERT` or a `CREATE TABLE`. -/
def Command.isTabular : Command → Bool
  | .statement (.insert _ _) => true
  | .statement (.createTable _ _) => true
  | _ => false

namespace Engine

open Effect

variable {rt : Runtime} {conn : Nat} {e : Engine} {command : Command}
  {tables : HashMap Bytes TableSchema}

/-- The catalogue is the given one. -/
def HasTables (tables : HashMap Bytes TableSchema) (e : Engine) : Prop := e.schemas = tables

theorem offStore_hasTables : OffStore conn (HasTables tables) where
  congr hu hschemas _ := hschemas.trans hu
  buffer hu _ _ _ := hu
  closed hu := hu

/-- **Only `INSERT` and `CREATE TABLE` change the catalogue.** -/
theorem schemas_execute (h : command.isTabular = false) :
    (execute rt command conn e).2.schemas = e.schemas := by
  refine Effect.Maintains.state (I := HasTables e.schemas) ?_ rfl
  cases command with
  | flush => exact maintains_pure _
  | begin => exact maintains_bind (maintains_modify fun _ hu ↦ hu) fun _ ↦ maintains_pure _
  | commit => exact offStore_hasTables.commit
  | rollback => exact maintains_bind (maintains_modify fun _ hu ↦ hu) fun _ ↦ maintains_pure _
  | statement stmt =>
    refine maintains_executeRetrying (offStore_hasTables.executeStatement stmt ?_ ?_) 5
    · rintro name columns rfl
      cases h
    · rintro t source rfl
      cases h

/-- `CREATE TABLE` puts the new schema into the catalogue, whether or not it is stored. -/
theorem schemas_createTable (name : Bytes) (columns : List ColumnDef) :
    (execute rt (.statement (.createTable name columns)) conn e).2.schemas =
      e.schemas.insert name (newSchema rt name columns) := by
  have hfinal : FailsOnly EngineError.Final (createTable rt name columns) :=
    failsOnly_bind (failsOnly_modify _) fun _ ↦ failsOnly_bind
      (failsOnly_bind failsOnly_get fun _ ↦ failsOnly_bind (failsOnly_modify _) fun _ ↦
        failsOnly_pure _) fun record ↦ failsOnly_bind (fun u ↦ by
          unfold insertTree
          rcases u.btree.insert rt.search schemasKey record with ⟨err | _, btree⟩
          · exact Except.failsOnly_error (final_storage err)
          · exact Except.failsOnly_ok _) fun _ ↦ failsOnly_pure _
  have honce : execute rt (.statement (.createTable name columns)) conn e =
      createTable rt name columns e :=
    executeRetrying_eq (fun err u hrun ↦ by
      have herr : (createTable rt name columns e).1 = .error err := congrArg Prod.fst hrun
      exact hfinal e err herr) 5
  rw [honce]
  have hI : OffStore conn (HasTables (e.schemas.insert name (newSchema rt name columns))) :=
    offStore_hasTables
  refine Effect.state_of_wp (I := HasTables (e.schemas.insert name (newSchema rt name columns)))
    (Effect.wp_bind (Effect.wp_modify (Effect.Maintains.wp ?_ rfl)))
  exact maintains_bind hI.schemasRecord fun _ ↦ maintains_bind (hI.insertTree _ _) fun _ ↦
    maintains_pure _

/-- A row is stored under the next number, and the catalogue stays as it is. -/
theorem wp_insertRow_numbers {t : Bytes} {schema : TableSchema} {acc : Inserting} {row : List Expr} :
    Effect.wp (insertRow rt t schema conn acc row)
      (fun acc' u ↦ acc'.nextId =
          (if schema.autoIncrementCol.isSome then acc.nextId + 1 else acc.nextId) ∧
        u.schemas = e.schemas) (fun _ _ ↦ False) e := by
  refine Effect.wp_bind (Effect.wp_get (Effect.wp_bind (Effect.wp_modify (Effect.wp_bind
    (Effect.wp_modify ?_)))))
  split
  · exact Effect.wp_bind (Effect.wp_modify (Effect.wp_pure ⟨rfl, rfl⟩))
  · exact Effect.wp_bind (Effect.wp_modify (Effect.wp_pure ⟨rfl, rfl⟩))

/-- The counter of the copy is written back if it has changed, whether or not the log has room. -/
theorem schemas_storeNextId {t : Bytes} {schema : TableSchema} {nextId : Nat} :
    (storeNextId rt t schema nextId e).2.schemas =
      if nextId ≠ schema.nextId then e.schemas.insert t { schema with nextId := nextId }
      else e.schemas := by
  rw [storeNextId]
  split
  · have hI : OffStore 0 (HasTables (e.schemas.insert t { schema with nextId := nextId })) :=
      offStore_hasTables
    refine Effect.state_of_wp (I := HasTables (e.schemas.insert t { schema with nextId := nextId }))
      (Effect.wp_bind (Effect.wp_modify (Effect.Maintains.wp ?_ rfl)))
    exact maintains_bind hI.schemasRecord fun _ ↦ hI.enqueue _ _
  · rfl

end Engine

/-! ### An `INSERT` under way -/

/-- An `INSERT` that has taken its copy of the schema. -/
structure InsertUnderWay where
  conn : Nat
  tableName : Bytes
  /-- The copy. -/
  schema : TableSchema
  /-- The rows that are still to be stored. -/
  toStore : List (List Expr)
  /-- The next number, and the entries that are still to be enqueued. -/
  acc : Inserting

namespace InsertUnderWay

variable (rt : Runtime)

/-- One that has just taken its copy. -/
def opening (conn : Nat) (tableName : Bytes) (schema : TableSchema) (rows : List (List Expr)) :
    InsertUnderWay where
  conn := conn
  tableName := tableName
  schema := schema
  toStore := rows
  acc := { nextId := schema.nextId }

/-- Take a step: store a row, or else enqueue an entry, or else write the counter back. Behind the last
step, or a failure, nothing is left of it. -/
def step (i : InsertUnderWay) (e : Engine) : Option InsertUnderWay × Engine :=
  match i.toStore, i.acc.walEntries with
  | row :: rows, _ => match insertRow rt i.tableName i.schema i.conn i.acc row e with
    | (.ok acc, e) => (some { i with toStore := rows, acc := acc }, e)
    | (.error _, e) => (none, e)
  | [], entry :: entries => match enqueue entry.1 entry.2 e with
    | (.ok _, e) => (some { i with acc := { i.acc with walEntries := entries } }, e)
    | (.error _, e) => (none, e)
  | [], [] => (none, (storeNextId rt i.tableName i.schema i.acc.nextId e).2)

/-- The row that the step stores, if it stores one, with its table. -/
def storing (i : InsertUnderWay) : List (Bytes × Row) :=
  match i.toStore with
  | [] => []
  | row :: _ => [(i.tableName, insertedColumns i.schema i.acc.nextId row)]

/-- What is left of the handler. -/
def rest (i : InsertUnderWay) : Routine Unit := do
  let acc ← Effect.fold (insertRow rt i.tableName i.schema i.conn) i.toStore i.acc
  Effect.forEach acc.walEntries fun entry ↦ enqueue entry.1 entry.2
  storeNextId rt i.tableName i.schema acc.nextId

variable {rt} {i : InsertUnderWay} {e : Engine}

/-- **`INSERT`** takes its copy of the schema and runs to the end. -/
theorem handleInsert_eq_rest {conn : Nat} {t : Bytes} {schema : TableSchema}
    (hschema : e.schemas.lookup t = some schema) (rows : List (List Expr)) (limit : Option Expr) :
    handleInsert rt t ⟨.values rows, limit⟩ conn e =
      Effect.bind ((opening conn t schema rows).rest rt)
        (fun _ ↦ Effect.pure { output := countText "Inserted" rows.length, flush := true }) e := by
  rw [handleInsert, Effect.get_bind, hschema]
  show Effect.bind (Effect.fold (insertRow rt t schema conn) rows { nextId := schema.nextId }) _ e =
    Effect.bind (Effect.bind (Effect.fold (insertRow rt t schema conn) rows
      { nextId := schema.nextId }) fun acc ↦ Effect.bind (Effect.forEach acc.walEntries _) fun _ ↦
        storeNextId rt t schema acc.nextId) _ e
  simp only [Effect.bind_assoc]
  rfl

/-- The rest of the handler runs on from a step as it would have run. -/
theorem rest_step (i : InsertUnderWay) (e : Engine) : (i.rest rt e).2 =
    match i.step rt e with
    | (some i', e') => (i'.rest rt e').2
    | (none, e') => e' := by
  obtain ⟨conn, t, schema, rows, nextId, entries⟩ := i
  rw [step]
  dsimp only
  rcases rows with - | ⟨row, rows⟩
  · rcases entries with - | ⟨entry, entries⟩
    · rfl
    · show (Effect.bind (Effect.bind (enqueue entry.1 entry.2) _) _ e).2 = _
      dsimp only
      rw [Effect.bind, Effect.bind]
      rcases enqueue entry.1 entry.2 e with ⟨err | u, e'⟩ <;> rfl
  · show (Effect.bind (Effect.bind (insertRow rt t schema conn ⟨nextId, entries⟩ row) _) _ e).2 = _
    dsimp only
    rw [Effect.bind, Effect.bind]
    rcases insertRow rt t schema conn ⟨nextId, entries⟩ row e with ⟨err | acc, e'⟩ <;> rfl

/-- What is stored in a step goes to the connection's transaction or to the table. -/
theorem deposits_step {row : List Expr} {rows : List (List Expr)} (hrows : i.toStore = row :: rows) :
    ∃ w : Bytes × Record, Deposits i.conn [w] e (i.step rt e).2 ∧
      w.2.value = .row (insertedColumns i.schema i.acc.nextId row) := by
  obtain ⟨conn, t, schema, toStore, acc⟩ := i
  dsimp only at hrows
  subst hrows
  -- the row is the first one of a statement whose counter starts at the next number
  have hwp : Effect.wp (insertRow rt t { schema with nextId := acc.nextId } conn acc row)
      (fun acc' u ↦ (∃ written, Deposits conn written e u ∧
          RowAt { schema with nextId := acc.nextId } ([] ++ [row]) written) ∧
        (schema.autoIncrementCol.isSome → acc'.nextId = acc.nextId + ([] ++ [row]).length))
      (fun _ _ ↦ False) e :=
    wp_insertRow_deposits (Deposits.refl conn e) ⟨rfl, fun _ _ _ h ↦ nomatch h⟩ fun _ ↦ rfl
  have hsame : insertRow rt t { schema with nextId := acc.nextId } conn acc row =
      insertRow rt t schema conn acc row := rfl
  rw [hsame] at hwp
  rw [step]
  dsimp only
  rcases hrun : insertRow rt t schema conn acc row e with ⟨err | acc', e'⟩
  · exact (Effect.of_wp_error hwp hrun).elim
  · obtain ⟨⟨written, hdeposits, hlength, hvalue⟩, -⟩ := Effect.of_wp_ok hwp hrun
    obtain ⟨w, rfl⟩ := List.length_eq_one_iff.1 hlength
    exact ⟨w, hdeposits, hvalue 0 row w rfl rfl⟩

/-- What a step can do. -/
inductive Stepped (i : InsertUnderWay) (e : Engine) : Option InsertUnderWay → Engine → Prop
  | stores {row : List Expr} {rows : List (List Expr)} {acc : Inserting} {e' : Engine} :
    i.toStore = row :: rows →
    acc.nextId = (if i.schema.autoIncrementCol.isSome then i.acc.nextId + 1 else i.acc.nextId) →
    e'.schemas = e.schemas → Stepped i e (some { i with toStore := rows, acc := acc }) e'
  | logs {entries : List (Bytes × Data)} {e' : Engine} : i.toStore = [] → e'.schemas = e.schemas →
    Stepped i e (some { i with acc := { i.acc with walEntries := entries } }) e'
  | fails {e' : Engine} : i.toStore = [] → i.acc.walEntries ≠ [] →
    ¬ e.btree.wal.queue.length < queueCapacity → e'.schemas = e.schemas → Stepped i e none e'
  | returns {e' : Engine} : i.toStore = [] →
    e'.schemas = (if i.acc.nextId ≠ i.schema.nextId then
      e.schemas.insert i.tableName { i.schema with nextId := i.acc.nextId } else e.schemas) →
    Stepped i e none e'

theorem stepped (i : InsertUnderWay) (e : Engine) :
    Stepped i e (i.step rt e).1 (i.step rt e).2 := by
  obtain ⟨conn, t, schema, rows, nextId, entries⟩ := i
  rw [step]
  dsimp only
  rcases rows with - | ⟨row, rows⟩
  · rcases entries with - | ⟨entry, entries⟩
    · exact .returns rfl schemas_storeNextId
    · have hwp : Effect.wp (enqueue entry.1 entry.2) (fun _ u ↦ u.schemas = e.schemas)
          (fun _ u ↦ ¬ e.btree.wal.queue.length < queueCapacity ∧ u.schemas = e.schemas) e :=
        wp_enqueue (fun _ ↦ rfl) fun hfull ↦ ⟨hfull, rfl⟩
      dsimp only
      rcases hrun : enqueue entry.1 entry.2 e with ⟨err | u, e'⟩
      · obtain ⟨hfull, hschemas⟩ := Effect.of_wp_error hwp hrun
        exact .fails rfl (List.cons_ne_nil _ _) hfull hschemas
      · exact .logs rfl (Effect.of_wp_ok hwp hrun)
  · dsimp only
    rcases hrun : insertRow rt t schema conn ⟨nextId, entries⟩ row e with ⟨err | acc, e'⟩
    · exact (Effect.of_wp_error wp_insertRow_numbers hrun).elim
    · obtain ⟨hnext, hschemas⟩ := Effect.of_wp_ok wp_insertRow_numbers hrun
      exact .stores rfl hnext hschemas

theorem Stepped.tableName_eq {i' : InsertUnderWay} {e' : Engine} (h : Stepped i e (some i') e') :
    i'.tableName = i.tableName := by
  cases h <;> rfl

end InsertUnderWay

/-! ### Many at once -/

/-- A column as it is declared. -/
structure Declaration where
  name : Bytes
  type : Bytes
  options : List Bytes

/-- What the engine looks at, which the type does not belong to. -/
def Declaration.toColumnDef (d : Declaration) : ColumnDef := ⟨d.name, d.options⟩

/-- The column is declared `AUTO_INCREMENT` or `SERIAL`. -/
def Declaration.Generated (rt : Runtime) (d : Declaration) : Prop :=
  ∃ text ∈ d.type :: d.options, occursIn (bytes "AUTO_INCREMENT") (rt.uppercase text) = true ∨
    occursIn (bytes "SERIAL") (rt.uppercase text) = true

/-- The steps of a database that rows are inserted into. -/
inductive IngestionStep
  /-- A `CREATE TABLE`. -/
  | create (conn : Nat) (name : Bytes) (columns : List Declaration)
  /-- An `INSERT`, known by a number of its own, reads the schema. The list of columns that it has, or
  the empty one if it has none, is not looked at. -/
  | read (n conn : Nat) (tableName : Bytes) (columns : List Bytes) (rows : List (List Expr))
  /-- An `INSERT` takes a step. -/
  | advance (n : Nat)
  /-- Any other step of the system. -/
  | other (a : Action)

/-- A `CREATE TABLE` of the table declares the column `AUTO_INCREMENT` or `SERIAL`. -/
def IngestionStep.Declares (rt : Runtime) (t c : Bytes) : IngestionStep → Prop
  | .create _ name columns => name = t → ∃ d ∈ columns, d.name = c ∧ d.Generated rt
  | _ => True

/-- An `INSERT` into the table has no value for the column. -/
def IngestionStep.Omits (t c : Bytes) : IngestionStep → Prop
  | .read _ _ name columns _ => name = t → c ∉ columns
  | _ => True

/-- The step is another `INSERT` or `CREATE TABLE`. -/
def Action.isTabular : Action → Bool
  | .call _ command => command.isTabular
  | _ => false

/-- The system with the `INSERT`s under way, and the rows that they have stored, with their tables,
oldest first. The `flush_pipeline` at the end of an `INSERT` is left out: it touches the log only. -/
structure Ingestion where
  system : System
  underWay : HashMap Nat InsertUnderWay := ∅
  stored : List (Bytes × Row) := []

/-- What is left of an `INSERT` takes its place. -/
def InsertUnderWay.replace (underWay : HashMap Nat InsertUnderWay) (n : Nat) :
    Option InsertUnderWay → HashMap Nat InsertUnderWay
  | some i => underWay.insert n i
  | none => underWay.erase n

theorem InsertUnderWay.lookup_replace (underWay : HashMap Nat InsertUnderWay) (n n' : Nat)
    (left : Option InsertUnderWay) :
    (replace underWay n left).lookup n' = if n' = n then left else underWay.lookup n' := by
  cases left with
  | some i => exact HashMap.lookup_insert_eq_ite _ _ _ _
  | none =>
    rw [replace]
    split
    · rename_i hn
      rw [hn, AList.lookup_erase]
    · rename_i hn
      rw [AList.lookup_erase_ne hn]

namespace Ingestion

/-- The system just started. -/
def start : Ingestion := { system := System.start }

section

variable [Bincode (WalEntry Bytes Data)] (rt : Runtime)

/-- A step, if it can be taken. -/
def step (w : Ingestion) : IngestionStep → Option Ingestion
  | .create conn name columns =>
    (w.system.step rt (.call conn (.statement (.createTable name
      (columns.map Declaration.toColumnDef))))).map fun s ↦ { w with system := s }
  | .read n conn t _ rows => match w.underWay.lookup n, w.system.engine.schemas.lookup t with
    | none, some schema =>
      some { w with underWay := w.underWay.insert n (.opening conn t schema rows) }
    | none, none => some w
    | some _, _ => none
  | .advance n => (w.underWay.lookup n).map fun i ↦
    { system := { w.system with engine := (i.step rt w.system.engine).2 }
      underWay := InsertUnderWay.replace w.underWay n (i.step rt w.system.engine).1
      stored := w.stored ++ i.storing }
  | .other a =>
    if a.isTabular then none else (w.system.step rt a).map fun s ↦ { w with system := s }

/-- A run: steps one after another, each of which can be taken. -/
def run (w : Ingestion) : List IngestionStep → Option Ingestion
  | [] => some w
  | x :: steps => (w.step rt x).bind fun w ↦ run w steps

/-- The property holds of every step of a run, in the state before the step. -/
def Along (P : Ingestion → IngestionStep → Prop) (w : Ingestion) : List IngestionStep → Prop
  | [] => True
  | x :: steps => P w x ∧ ∀ w' ∈ w.step rt x, Along P w' steps

instance decidableAlong (P : Ingestion → IngestionStep → Prop) [∀ w, DecidablePred (P w)] :
    ∀ (steps : List IngestionStep) (w : Ingestion), Decidable (w.Along rt P steps)
  | [], _ => .isTrue trivial
  | x :: steps, w =>
    have := decidableAlong P steps
    decidable_of_iff (P w x ∧ ∀ w' ∈ w.step rt x, Along rt P w' steps) Iff.rfl

end

/-- The rows of the table. -/
def rows (w : Ingestion) (t : Bytes) : List Row :=
  (w.stored.filter fun x ↦ x.1 = t).map Prod.snd

/-- **No two rows of the table have the same value in the column.** -/
def UniqueIn (w : Ingestion) (t c : Bytes) : Prop :=
  (w.rows t).Pairwise fun row row' ↦ ∀ v, row.lookup c = some v → row'.lookup c ≠ some v

end Ingestion

/-! ### Which steps are careful -/

/-- An `INSERT` into the table is under way. -/
def Busy (t : Bytes) (underWay : HashMap Nat InsertUnderWay) : Prop :=
  ∃ x ∈ underWay.toList, x.2.tableName = t

instance (t : Bytes) (underWay : HashMap Nat InsertUnderWay) : Decidable (Busy t underWay) :=
  inferInstanceAs (Decidable (∃ x ∈ underWay.toList, x.2.tableName = t))

/-- **A step that keeps the numbers apart**: the table is created before rows are inserted into it, with
the column as its generated one; an `INSERT` reads the schema while no other one into the table is under
way, and has no value that goes to the column; and the queue has room for the entries of its rows. -/
def Careful (rt : Runtime) (t c : Bytes) (w : Ingestion) : IngestionStep → Prop
  | .create _ name columns => name = t →
    (newSchema rt t (columns.map Declaration.toColumnDef)).autoIncrementCol = some c ∧
      w.rows t = [] ∧ ¬ Busy t w.underWay
  | .read _ _ name _ rows => name = t → ¬ Busy t w.underWay ∧
    ∀ schema ∈ w.system.engine.schemas.lookup t, ∀ row ∈ rows, c ∉ schema.targets.take row.length
  | .advance n => ∀ i ∈ w.underWay.lookup n, i.tableName = t → i.toStore = [] →
    i.acc.walEntries ≠ [] → w.system.engine.btree.wal.queue.length < queueCapacity
  | .other _ => True

instance (rt : Runtime) (t c : Bytes) (w : Ingestion) : DecidablePred (Careful rt t c w)
  | .create _ _ _ => inferInstanceAs (Decidable (_ → _ ∧ _ ∧ _))
  | .read _ _ _ _ _ => inferInstanceAs (Decidable (_ → _ ∧ _))
  | .advance n => inferInstanceAs (Decidable (∀ i ∈ w.underWay.lookup n, _ → _ → _ → _))
  | .other _ => instDecidableTrue

/-! ### The numbers of the rows -/

/-- The rows have numbers in the column, each another one, all below the next one. -/
def Numbered (c : Bytes) (next : Nat) (rows : List Row) : Prop :=
  ∃ ids : List Nat, rows.map (fun row ↦ row.lookup c) = ids.map (fun n ↦ some (bytes (toString n))) ∧
    ids.Nodup ∧ ∀ n ∈ ids, n < next

section

variable {c : Bytes} {next : Nat} {rows : List Row}

theorem numbered_nil (c : Bytes) (next : Nat) : Numbered c next [] :=
  ⟨[], rfl, List.nodup_nil, fun _ h ↦ nomatch h⟩

/-- A row with the next number. -/
theorem Numbered.snoc (h : Numbered c next rows) {row : Row}
    (hrow : row.lookup c = some (bytes (toString next))) : Numbered c (next + 1) (rows ++ [row]) := by
  obtain ⟨ids, hids, hnodup, hbelow⟩ := h
  refine ⟨ids ++ [next], ?_, ?_, fun n hn ↦ ?_⟩
  · rw [List.map_append, List.map_append, hids, List.map_singleton, List.map_singleton, hrow]
  · exact List.nodup_append.2 ⟨hnodup, List.nodup_singleton next, fun n hn m hm heq ↦
      absurd (hbelow n hn) (by rw [heq, List.mem_singleton.1 hm]; exact Nat.lt_irrefl next)⟩
  · rcases List.mem_append.1 hn with hn | hn
    · exact Nat.lt_succ_of_lt (hbelow n hn)
    · exact List.mem_singleton.1 hn ▸ Nat.lt_succ_self next

/-- Numbered rows have a value each, and no two of them have the same one. -/
theorem Numbered.pairwise (h : Numbered c next rows) :
    (rows.Pairwise fun row row' ↦ ∀ v, row.lookup c = some v → row'.lookup c ≠ some v) ∧
      ∀ row ∈ rows, (row.lookup c).isSome := by
  obtain ⟨ids, hids, hnodup, -⟩ := h
  constructor
  · have hinj : Function.Injective fun n : Nat ↦ some (bytes (toString n)) := fun m n heq ↦
      bytes_toString_inj.1 (Option.some.inj heq)
    have hdistinct : (rows.map fun row ↦ row.lookup c).Nodup := hids ▸ hnodup.map hinj
    rw [List.Nodup, List.pairwise_map] at hdistinct
    exact hdistinct.imp fun hne v hv hv' ↦ hne (hv.trans hv'.symm)
  · intro row hrow
    have hmem : row.lookup c ∈ ids.map fun n ↦ some (bytes (toString n)) :=
      hids ▸ List.mem_map_of_mem hrow
    obtain ⟨n, -, hn⟩ := List.mem_map.1 hmem
    rw [← hn]
    rfl

end

/-- A row has the next number in the generated column, where no value goes to that. -/
theorem lookup_generated {schema : TableSchema} {c : Bytes} {row : List Expr}
    (hauto : schema.autoIncrementCol = some c) (hfree : c ∉ schema.targets.take row.length)
    (nextId : Nat) :
    (insertedColumns schema nextId row).lookup c = some (bytes (toString nextId)) := by
  rw [lookup_insertedColumns_of_not_mem hfree, TableSchema.generated, hauto]
  exact AList.lookup_insert _

/-! ### What careful steps keep -/

/-- An `INSERT` into the table is the only one, its copy of the schema is the catalogue's, and it is to
give the next number. -/
structure Sole (t c : Bytes) (schema? : Option TableSchema) (underWay : HashMap Nat InsertUnderWay)
    (rows : List Row) (n : Nat) (i : InsertUnderWay) : Prop where
  only : ∀ n' i', underWay.lookup n' = some i' → i'.tableName = t → n' = n
  copy : schema? = some i.schema
  numbered : Numbered c i.acc.nextId rows
  free : ∀ row ∈ i.toStore, c ∉ i.schema.targets.take row.length

/-- What is known of a table's schema, of the `INSERT`s under way and of the table's rows. -/
structure Identified (t c : Bytes) (schema? : Option TableSchema)
    (underWay : HashMap Nat InsertUnderWay) (rows : List Row) : Prop where
  absent : schema? = none → rows = []
  generated : ∀ schema, schema? = some schema → schema.autoIncrementCol = some c
  idle : ∀ schema, schema? = some schema → ¬ Busy t underWay → Numbered c schema.nextId rows
  busy : ∀ n i, underWay.lookup n = some i → i.tableName = t → Sole t c schema? underWay rows n i

section

variable {t c : Bytes} {schema? : Option TableSchema} {underWay underWay' : HashMap Nat InsertUnderWay}
  {rows : List Row} {n : Nat} {i : InsertUnderWay}

theorem busy_iff : Busy t underWay ↔ ∃ n i, underWay.lookup n = some i ∧ i.tableName = t :=
  ⟨fun ⟨x, hx, ht⟩ ↦ ⟨x.1, x.2, HashMap.mem_toList_iff.1 hx, ht⟩,
    fun ⟨n, i, hi, ht⟩ ↦ ⟨(n, i), HashMap.mem_toList_iff.2 hi, ht⟩⟩

theorem not_busy_iff : ¬ Busy t underWay ↔ ∀ n i, underWay.lookup n = some i → i.tableName ≠ t := by
  rw [busy_iff]
  push Not
  rfl

/-- Only the `INSERT`s into the table matter. -/
theorem Identified.congr (h : Identified t c schema? underWay rows)
    (hsame : ∀ n i, i.tableName = t → (underWay'.lookup n = some i ↔ underWay.lookup n = some i)) :
    Identified t c schema? underWay' rows where
  absent := h.absent
  generated := h.generated
  idle schema hschema hidle := h.idle schema hschema fun hbusy ↦ hidle (by
    obtain ⟨n, i, hi, ht⟩ := busy_iff.1 hbusy
    exact busy_iff.2 ⟨n, i, (hsame n i ht).2 hi, ht⟩)
  busy n i hi ht := by
    obtain ⟨honly, hcopy, hnumbered, hfree⟩ := h.busy n i ((hsame n i ht).1 hi) ht
    exact ⟨fun n' i' hi' ht' ↦ honly n' i' ((hsame n' i' ht').1 hi') ht', hcopy, hnumbered, hfree⟩

/-- The only `INSERT` into the table goes on. -/
theorem Identified.proceed (h : Identified t c schema? underWay rows)
    (hi : underWay.lookup n = some i) (ht : i.tableName = t) {i' : InsertUnderWay} {rows' : List Row}
    (ht' : i'.tableName = t) (hschema : i'.schema = i.schema)
    (hnumbered : Numbered c i'.acc.nextId rows') (hrows : ∀ row ∈ i'.toStore, row ∈ i.toStore) :
    Identified t c schema? (underWay.insert n i') rows' := by
  obtain ⟨honly, hcopy, -, hfree⟩ := h.busy n i hi ht
  have honly' : ∀ n' i'', (underWay.insert n i').lookup n' = some i'' → i''.tableName = t → n' = n := by
    intro n' i'' hi'' ht''
    by_contra hne
    rw [AList.lookup_insert_ne hne] at hi''
    exact hne (honly n' i'' hi'' ht'')
  refine ⟨fun habsent ↦ ?_, h.generated, fun schema _ hidle ↦ ?_, fun n' i'' hi'' ht'' ↦ ?_⟩
  · rw [hcopy] at habsent
    cases habsent
  · exact absurd (busy_iff.2 ⟨n, i', AList.lookup_insert _, ht'⟩) hidle
  · obtain rfl := honly' n' i'' hi'' ht''
    rw [AList.lookup_insert] at hi''
    obtain rfl := Option.some.inj hi''
    exact ⟨honly', hschema ▸ hcopy, hnumbered, fun row hrow ↦ hschema ▸ hfree row (hrows row hrow)⟩

/-- The only `INSERT` into the table returns. -/
theorem Identified.finish (h : Identified t c schema? underWay rows)
    (hi : underWay.lookup n = some i) (ht : i.tableName = t) :
    Identified t c (some { i.schema with nextId := i.acc.nextId }) (underWay.erase n) rows := by
  obtain ⟨honly, hcopy, hnumbered, -⟩ := h.busy n i hi ht
  have hgenerated : i.schema.autoIncrementCol = some c := h.generated _ hcopy
  refine ⟨fun habsent ↦ (nomatch habsent), fun schema hschema ↦ ?_, fun schema hschema _ ↦ ?_,
    fun n' i' hi' ht' ↦ ?_⟩
  · rw [← Option.some.inj hschema]
    exact hgenerated
  · rw [← Option.some.inj hschema]
    exact hnumbered
  · have hne : n' ≠ n := by
      rintro rfl
      rw [AList.lookup_erase] at hi'
      cases hi'
    rw [AList.lookup_erase_ne hne] at hi'
    exact absurd (honly n' i' hi' ht') hne

/-- An `INSERT` takes its copy while no other one into the table is under way. -/
theorem Identified.begin {schema : TableSchema} (h : Identified t c (some schema) underWay rows)
    (hidle : ¬ Busy t underWay) (n conn : Nat) {rows' : List (List Expr)}
    (hfree : ∀ row ∈ rows', c ∉ schema.targets.take row.length) :
    Identified t c (some schema) (underWay.insert n (.opening conn t schema rows')) rows := by
  have honly : ∀ n' i', (underWay.insert n (.opening conn t schema rows')).lookup n' = some i' →
      i'.tableName = t → n' = n := by
    intro n' i' hi' ht'
    by_contra hne
    rw [AList.lookup_insert_ne hne] at hi'
    exact not_busy_iff.1 hidle n' i' hi' ht'
  refine ⟨h.absent, h.generated, fun schema' _ hidle' ↦ ?_, fun n' i' hi' ht' ↦ ?_⟩
  · exact absurd (busy_iff.2 ⟨n, _, AList.lookup_insert _, rfl⟩) hidle'
  · obtain rfl := honly n' i' hi' ht'
    rw [AList.lookup_insert] at hi'
    obtain rfl := Option.some.inj hi'
    exact ⟨honly, rfl, h.idle schema rfl hidle, hfree⟩

end

/-- The other steps of the system leave the catalogue as it is. -/
theorem System.schemas_of_step [Bincode (WalEntry Bytes Data)] {rt : Runtime} {s s' : System}
    {a : Action} (ha : a.isTabular = false) (hstep : s.step rt a = some s') :
    s'.engine.schemas = s.engine.schemas := by
  cases Step.of_step hstep with
  | call conn command _ =>
    rw [call_engine]
    exact schemas_execute ha
  | drainApply entry rest _ =>
    show (applyEntry rt s.engine entry).schemas = _
    cases entry <;> rfl
  | _ => rfl

namespace Ingestion

variable {rt : Runtime} {w w' : Ingestion} {t c : Bytes}

theorem rows_append (w : Ingestion) (x : List (Bytes × Row)) (t : Bytes) :
    ((w.stored ++ x).filter fun y ↦ y.1 = t).map Prod.snd =
      w.rows t ++ (x.filter fun y ↦ y.1 = t).map Prod.snd := by
  rw [List.filter_append, List.map_append, rows]

theorem filter_storing_of_ne {i : InsertUnderWay} (h : i.tableName ≠ t) :
    (i.storing.filter fun y ↦ y.1 = t).map Prod.snd = [] := by
  rw [InsertUnderWay.storing]
  split
  · rfl
  · rw [List.filter_cons_of_neg (by rw [decide_eq_true_eq]; exact h)]
    rfl

/-- An `INSERT` takes a step. -/
theorem identified_advance {n : Nat} {i : InsertUnderWay} {e : Engine} {left : Option InsertUnderWay}
    {e' : Engine} (h : Identified t c (e.schemas.lookup t) w.underWay (w.rows t))
    (hi : w.underWay.lookup n = some i) (hstep : i.Stepped e left e')
    (hroom : i.tableName = t → i.toStore = [] → i.acc.walEntries ≠ [] →
      e.btree.wal.queue.length < queueCapacity) :
    Identified t c (e'.schemas.lookup t) (InsertUnderWay.replace w.underWay n left)
      (w.rows t ++ (i.storing.filter fun y ↦ y.1 = t).map Prod.snd) := by
  by_cases ht : i.tableName = t
  · obtain ⟨-, hcopy, hnumbered, hfree⟩ := h.busy n i hi ht
    have hauto : i.schema.autoIncrementCol = some c := h.generated _ hcopy
    cases hstep with
    | @stores row rows acc e' htoStore hnext hschemas =>
      rw [hschemas, InsertUnderWay.storing, htoStore]
      have hrow : row ∈ i.toStore := htoStore ▸ List.mem_cons_self
      have hnumber := lookup_generated hauto (hfree row hrow) i.acc.nextId
      have hone : ([(i.tableName, insertedColumns i.schema i.acc.nextId row)].filter
          fun y ↦ y.1 = t).map Prod.snd = [insertedColumns i.schema i.acc.nextId row] := by
        rw [List.filter_cons_of_pos (by rw [decide_eq_true_eq]; exact ht)]
        rfl
      rw [hauto, Option.isSome_some, if_pos rfl] at hnext
      refine h.proceed hi ht ht rfl ?_ fun r hr ↦ htoStore ▸ List.mem_cons_of_mem row hr
      rw [hone]
      exact hnext ▸ hnumbered.snoc hnumber
    | logs htoStore hschemas =>
      rw [hschemas, InsertUnderWay.storing, htoStore]
      refine h.proceed hi ht ht rfl ?_ fun _ hr ↦ htoStore ▸ hr
      rw [List.filter_nil, List.map_nil, List.append_nil]
      exact hnumbered
    | fails htoStore hentries hfull _ => exact absurd (hroom ht htoStore hentries) hfull
    | returns htoStore hschemas =>
      have hlookup : e'.schemas.lookup t = some { i.schema with nextId := i.acc.nextId } := by
        rw [hschemas]
        split
        · rw [← ht, AList.lookup_insert]
        · rename_i hsame
          rw [hcopy, not_not.1 hsame]
      rw [hlookup, InsertUnderWay.storing, htoStore, List.filter_nil, List.map_nil, List.append_nil]
      exact h.finish hi ht
  · rw [filter_storing_of_ne ht, List.append_nil]
    have hlookup : e'.schemas.lookup t = e.schemas.lookup t := by
      cases hstep with
      | stores _ _ hschemas => rw [hschemas]
      | logs _ hschemas => rw [hschemas]
      | fails _ _ _ hschemas => rw [hschemas]
      | returns _ hschemas =>
        rw [hschemas]
        split
        · exact AList.lookup_insert_ne (Ne.symm ht)
        · rfl
    rw [hlookup]
    refine h.congr fun n' i' ht' ↦ ?_
    rw [InsertUnderWay.lookup_replace]
    by_cases hn : n' = n
    · rw [if_pos hn, hn, hi]
      refine iff_of_false (fun hleft ↦ ?_) fun hsame ↦ ht (Option.some.inj hsame ▸ ht')
      rw [hleft] at hstep
      exact ht (hstep.tableName_eq ▸ ht')
    · rw [if_neg hn]

theorem identified_start (t c : Bytes) :
    Identified t c (start.system.engine.schemas.lookup t) start.underWay (start.rows t) :=
  ⟨fun _ ↦ rfl, fun _ h ↦ (nomatch h), fun _ h ↦ (nomatch h), fun _ _ h ↦ nomatch h⟩

/-- What is known tells the rows apart. -/
theorem numbered_rows {t c : Bytes} {schema? : Option TableSchema}
    {underWay : HashMap Nat InsertUnderWay} {rows : List Row}
    (h : Identified t c schema? underWay rows) : ∃ next, Numbered c next rows := by
  rcases schema? with - | schema
  · exact ⟨0, h.absent rfl ▸ numbered_nil c 0⟩
  · by_cases hbusy : Busy t underWay
    · obtain ⟨n, i, hi, ht⟩ := busy_iff.1 hbusy
      exact ⟨_, (h.busy n i hi ht).numbered⟩
    · exact ⟨_, h.idle schema rfl hbusy⟩

variable [Bincode (WalEntry Bytes Data)]

/-- **A careful step** keeps what is known. -/
theorem identified_step {x : IngestionStep} (hx : Careful rt t c w x)
    (h : Identified t c (w.system.engine.schemas.lookup t) w.underWay (w.rows t))
    (hstep : w.step rt x = some w') :
    Identified t c (w'.system.engine.schemas.lookup t) w'.underWay (w'.rows t) := by
  cases x with
  | create conn name columns =>
    obtain ⟨s, hs, rfl⟩ := Option.map_eq_some_iff.1 hstep
    have hschemas : s.engine.schemas = w.system.engine.schemas.insert name
        (newSchema rt name (columns.map Declaration.toColumnDef)) := by
      cases System.Step.of_step hs with
      | call _ _ _ =>
        rw [System.call_engine]
        exact schemas_createTable _ _
    show Identified t c (s.engine.schemas.lookup t) w.underWay (w.rows t)
    rw [hschemas]
    by_cases hname : name = t
    · subst hname
      obtain ⟨hauto, hrows, hidle⟩ := hx rfl
      rw [AList.lookup_insert, hrows]
      refine ⟨fun habsent ↦ (nomatch habsent), fun schema hschema ↦ ?_, fun _ _ _ ↦ numbered_nil _ _,
        fun n i hi ht ↦ absurd ht (not_busy_iff.1 hidle n i hi)⟩
      rw [← Option.some.inj hschema]
      exact hauto
    · rw [AList.lookup_insert_ne (Ne.symm hname)]
      exact h
  | read n conn name columns rows =>
    rw [step] at hstep
    split at hstep
    · rename_i schema hfresh hschema
      cases hstep
      show Identified t c _ (w.underWay.insert n (.opening conn name schema rows)) (w.rows t)
      by_cases hname : name = t
      · subst hname
        obtain ⟨hidle, hfree⟩ := hx rfl
        rw [hschema] at h ⊢
        exact h.begin hidle n conn (hfree schema hschema)
      · refine h.congr fun n' i' ht' ↦ ?_
        by_cases hn : n' = n
        · rw [hn, AList.lookup_insert, hfresh]
          exact iff_of_false (fun heq ↦
            hname ((congrArg InsertUnderWay.tableName (Option.some.inj heq)).trans ht')) nofun
        · rw [AList.lookup_insert_ne hn]
    · cases hstep
      exact h
    · cases hstep
  | advance n =>
    obtain ⟨i, hi, rfl⟩ := Option.map_eq_some_iff.1 hstep
    show Identified t c _ _ (((w.stored ++ i.storing).filter fun y ↦ y.1 = t).map Prod.snd)
    rw [rows_append]
    exact identified_advance h hi (i.stepped w.system.engine) (hx i hi)
  | other a =>
    rw [step] at hstep
    split at hstep
    · cases hstep
    · rename_i ha
      obtain ⟨s, hs, rfl⟩ := Option.map_eq_some_iff.1 hstep
      show Identified t c (s.engine.schemas.lookup t) w.underWay (w.rows t)
      rw [System.schemas_of_step (Bool.eq_false_iff.2 ha) hs]
      exact h

/-- **Careful runs** keep it. -/
theorem identified_run : ∀ {steps : List IngestionStep} {w w' : Ingestion},
    w.Along rt (Careful rt t c) steps →
    Identified t c (w.system.engine.schemas.lookup t) w.underWay (w.rows t) →
    w.run rt steps = some w' →
    Identified t c (w'.system.engine.schemas.lookup t) w'.underWay (w'.rows t)
  | [], w, w', _, h, hrun => Option.some.inj hrun ▸ h
  | x :: steps, w, w', hcareful, h, hrun => by
    obtain ⟨v, hv, hrun⟩ := Option.bind_eq_some_iff.1 hrun
    exact identified_run (hcareful.2 v hv) (identified_step hcareful.1 h hv) hrun

end Ingestion

/-- `CREATE TABLE u (id INT AUTO_INCREMENT, v TEXT)` -/
def createNumbered : IngestionStep :=
  .create 1 (bytes "u")
    [⟨bytes "id", bytes "INT", [bytes "AUTO_INCREMENT"]⟩, ⟨bytes "v", bytes "TEXT", []⟩]

/-- `INSERT INTO u (v) VALUES ..`, up to its look at the schema. -/
def readNumbered (n conn : Nat) (values : List String) : IngestionStep :=
  .read n conn (bytes "u") [bytes "v"] (values.map fun v ↦ [.value (.singleQuotedString (bytes v))])

/-- Two rows outside transactions, and then one in a transaction of another connection. -/
def oneByOne : List IngestionStep :=
  [createNumbered, readNumbered 0 1 ["a", "b"], .advance 0, .advance 0, .advance 0, .advance 0,
    .advance 0, .other (.call 2 .begin), readNumbered 1 2 ["c"], .advance 1, .advance 1]

/-- Two connections read the schema before one of them writes it back. -/
def sideBySide : List IngestionStep :=
  [createNumbered, readNumbered 0 1 ["a"], readNumbered 1 2 ["b"], .advance 0, .advance 1]

end KsSql
