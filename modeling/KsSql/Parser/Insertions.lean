import KsSql.Parser.Literals
import KsSql.Parser.Writes

/-!
# The columns of an `INSERT`

An `INSERT` says which columns its values are for: the listed ones, or without a list those of the table
but for the generated one (`TableSchema.addressed`). The engine does not look at the list. It puts the
values into the columns of the table in order, behind the first one if the table has a generated column
(`TableSchema.targets`).

So the statements with a list put their values where they belong exactly if the list names these columns
in this order (`insert_iff`), and those without a list if there is no generated column or it comes first.
-/

namespace KsSql

open Engine

/-! ### What an `INSERT` asks for -/

/-- An `INSERT` of literals. -/
structure Insertion where
  tableName : Bytes
  /-- The list of columns. It is empty if the statement has none. -/
  columns : List Bytes
  rows : List (List Constant)

/-- The statement that the engine executes: its `match` leaves out the list of columns. -/
def Insertion.statement (i : Insertion) : Statement :=
  .insert i.tableName (some ⟨.values (i.rows.map fun row ↦ row.map Constant.toExpr), none⟩)

/-- The columns that the values of an `INSERT` with a list of columns are for. -/
def TableSchema.addressed (schema : TableSchema) (columns : List Bytes) : List Bytes :=
  if columns = [] then schema.columns.filter fun c ↦ schema.autoIncrementCol ≠ some c else columns

/-- The row has each value in its column, a generated number in the generated column if that has no
value, and nothing else. -/
structure TableSchema.Places (schema : TableSchema) (columns : List Bytes) (values : List Constant)
    (stored : Row) : Prop where
  value : ∀ (i : Nat) (c : Bytes) (v : Constant), (schema.addressed columns)[i]? = some c →
    values[i]? = some v → stored.lookup c = some v.text
  generated : ∀ c, schema.autoIncrementCol = some c → c ∉ schema.addressed columns →
    ∃ id, schema.nextId ≤ id ∧ stored.lookup c = some (bytes (toString id))
  other : ∀ c, c ∉ schema.addressed columns → schema.autoIncrementCol ≠ some c →
    stored.lookup c = none

/-- The kinds of literals that `INSERT` tells apart. -/
inductive Constant.Kind
  | number
  | signedNumber
  | string
  | boolean
  deriving DecidableEq, Repr

/-- The kind of a literal. -/
def Constant.kind : Constant → Kind
  | .number n _ => if n.signed then .signedNumber else .number
  | .string _ => .string
  | .boolean _ => .boolean

theorem Constant.unsigned_iff {v : Constant} :
    v.Unsigned ↔ v.kind ≠ .signedNumber ∧ v.kind ≠ .boolean := by
  cases v with
  | number n long =>
    have hkind : (Constant.number n long).kind = if n.signed then .signedNumber else .number := rfl
    rw [hkind, Constant.Unsigned]
    cases n.signed <;> decide
  | string text => exact iff_of_true trivial ⟨nofun, nofun⟩
  | boolean b => exact iff_of_false id fun h ↦ h.2 rfl

/-! ### What the engine stores -/

namespace Engine

/-- From the one state to the other the connection has stored the records, each under a new key. -/
structure Deposits (conn : Nat) (written : List (Bytes × Record)) (e u : Engine) : Prop where
  drawn : u.history.drawn = e.history.drawn ++ written.map fun w ↦ (conn, w.1)
  installed : e.activeTransactions.lookup conn = none →
    u.activeTransactions.lookup conn = none ∧ u.history.installs = e.history.installs ++
      written.map fun w ↦ ⟨conn, .insert, w.1, .record w.2⟩
  buffered : ∀ tx, e.activeTransactions.lookup conn = some tx → ∃ tx',
    u.activeTransactions.lookup conn = some tx' ∧
      tx'.updates = written.foldl (fun m w ↦ m.insert w.1 (.record w.2)) tx.updates

variable {rt : Runtime} {e u u' : Engine} {conn : Nat} {t : Bytes} {schema : TableSchema}
  {written : List (Bytes × Record)}

theorem Deposits.refl (conn : Nat) (e : Engine) : Deposits conn [] e e where
  drawn := (List.append_nil _).symm
  installed h := ⟨h, (List.append_nil _).symm⟩
  buffered tx h := ⟨tx, h, rfl⟩

/-- What does not touch rows and transactions stores nothing more. -/
theorem Deposits.same (h : Deposits conn written e u)
    (hdrawn : u'.history.drawn = u.history.drawn) (hinstalls : u'.history.installs = u.history.installs)
    (htx : u'.activeTransactions = u.activeTransactions) : Deposits conn written e u' where
  drawn := hdrawn.trans h.drawn
  installed hnone := ⟨by rw [htx]; exact (h.installed hnone).1,
    hinstalls.trans (h.installed hnone).2⟩
  buffered tx hsome := by rw [htx]; exact h.buffered tx hsome

/-- The columns stored for the row in a place of the statement. -/
def RowAt (schema : TableSchema) (rows : List (List Expr)) (written : List (Bytes × Record)) : Prop :=
  written.length = rows.length ∧ ∀ (i : Nat) (row : List Expr) (w : Bytes × Record),
    rows[i]? = some row → written[i]? = some w →
      w.2.value = .row (insertedColumns schema (schema.nextId + i) row)

/-- One row of an `INSERT` is stored. -/
theorem wp_insertRow_deposits {acc : Inserting} {done : List (List Expr)} {row : List Expr}
    (h : Deposits conn written e u) (hrows : RowAt schema done written)
    (hnext : schema.autoIncrementCol.isSome → acc.nextId = schema.nextId + done.length) :
    Effect.wp (insertRow rt t schema conn acc row)
      (fun acc' u' ↦ (∃ written', Deposits conn written' e u' ∧ RowAt schema (done ++ [row]) written') ∧
        (schema.autoIncrementCol.isSome →
          acc'.nextId = schema.nextId + (done ++ [row]).length)) (fun _ _ ↦ False) u := by
  have hnext' : schema.autoIncrementCol.isSome →
      (if schema.autoIncrementCol.isSome then acc.nextId + 1 else acc.nextId) =
        schema.nextId + (done ++ [row]).length := fun hsome ↦ by
    rw [if_pos hsome, hnext hsome, List.length_append, List.length_singleton, Nat.add_assoc]
  -- without a generated column the number does not matter
  have hcolumns : insertedColumns schema acc.nextId row =
      insertedColumns schema (schema.nextId + done.length) row := by
    rcases hauto : schema.autoIncrementCol with - | c
    · simp only [insertedColumns, hauto]
    · rw [hnext (by rw [hauto]; rfl)]
  have hrows' : ∀ w : Bytes × Record, w.2.value = .row (insertedColumns schema acc.nextId row) →
      RowAt schema (done ++ [row]) (written ++ [w]) := by
    intro w hw
    refine ⟨by rw [List.length_append, List.length_append, hrows.1]; rfl, fun i row' w' hi hi' ↦ ?_⟩
    rcases Nat.lt_or_ge i done.length with hlt | hge
    · rw [List.getElem?_append_left hlt] at hi
      rw [List.getElem?_append_left (hrows.1 ▸ hlt)] at hi'
      exact hrows.2 i row' w' hi hi'
    · rw [List.getElem?_append_right hge, List.getElem?_singleton] at hi
      rw [List.getElem?_append_right (hrows.1 ▸ hge), hrows.1, List.getElem?_singleton] at hi'
      split at hi
      · rename_i hzero
        rw [if_pos hzero] at hi'
        cases hi
        cases hi'
        have hlast : i = done.length := by omega
        rw [hw, hcolumns, hlast]
      · cases hi
  refine Effect.wp_bind (Effect.wp_get (Effect.wp_bind (Effect.wp_modify (Effect.wp_bind
    (Effect.wp_modify ?_)))))
  rcases hopen : e.activeTransactions.lookup conn with - | tx
  · obtain ⟨hnone, hinstalls⟩ := h.installed hopen
    rw [hnone]
    refine Effect.wp_bind (Effect.wp_modify (Effect.wp_pure ⟨⟨_, ⟨?_, fun _ ↦ ⟨hnone, ?_⟩, ?_⟩,
      hrows' (u.nextKey rt t, ⟨.row (insertedColumns schema acc.nextId row), u.currentVersion, false,
        rt.timestamp u.ticks⟩) rfl⟩, hnext'⟩))
    · rw [List.map_append, ← List.append_assoc, ← h.drawn]
      rfl
    · rw [List.map_append, ← List.append_assoc, ← hinstalls]
      rfl
    · exact fun tx htx ↦ nomatch hopen.symm.trans htx
  · obtain ⟨tx', htx', hupdates⟩ := h.buffered tx hopen
    rw [htx']
    refine Effect.wp_bind (Effect.wp_modify (Effect.wp_pure ⟨⟨_, ⟨?_, ?_, fun tx₀ htx₀ ↦
      ⟨_, AList.lookup_insert _, ?_⟩⟩,
      hrows' (u.nextKey rt t, ⟨.row (insertedColumns schema acc.nextId row), u.currentVersion, false,
        rt.timestamp u.ticks⟩) rfl⟩, hnext'⟩))
    · rw [List.map_append, ← List.append_assoc, ← h.drawn]
      rfl
    · exact fun hnone ↦ nomatch hopen.symm.trans hnone
    · obtain rfl := Option.some.inj (hopen.symm.trans htx₀)
      rw [List.foldl_append, ← hupdates]
      rfl

/-- **What an `INSERT` stores**, whether or not the log has room for it. -/
theorem deposits_of_insert (rt : Runtime) (conn : Nat) (rows : List (List Expr))
    (hschema : e.schemas.lookup t = some schema) :
    ∃ written, Deposits conn written e
        (execute rt (.statement (.insert t (some ⟨.values rows, none⟩))) conn e).2 ∧
      RowAt schema rows written := by
  have hfinal : Effect.FailsOnly EngineError.Final
      (executeStatement rt (.insert t (some ⟨.values rows, none⟩)) conn) :=
    Effect.failsOnly_bind (Effect.failsOnly_ofExcept (Except.failsOnly_ok _)) fun source ↦
      failsOnly_handleInsert source
  have honce : execute rt (.statement (.insert t (some ⟨.values rows, none⟩))) conn e =
      executeStatement rt (.insert t (some ⟨.values rows, none⟩)) conn e :=
    executeRetrying_eq (fun err u hrun ↦ hfinal e err (by rw [hrun])) 5
  rw [honce]
  have henqueue : ∀ {written key data} {u : Engine}, Deposits conn written e u →
      Effect.wp (enqueue key data) (fun _ u' ↦ Deposits conn written e u')
        (fun _ u' ↦ Deposits conn written e u') u := fun h ↦
    wp_enqueue (fun _ ↦ h.same rfl rfl rfl) fun _ ↦ h.same rfl rfl rfl
  refine Effect.state_of_wp (I := fun u ↦ ∃ written, Deposits conn written e u ∧ RowAt schema rows written)
    (Effect.wp_bind (Effect.wp_bind (Effect.wp_get (Effect.wp_bind (Effect.wp_ofExcept
      (fun schema' hschema' ↦ ?_) fun err herr ↦ ?_)))))
  · obtain rfl : schema = schema' := by
      rw [hschema] at hschema'
      exact Except.ok.inj hschema'
    refine Effect.wp_bind (Effect.wp_mono (Effect.wp_fold
      (fun done acc u ↦ (∃ written, Deposits conn written e u ∧ RowAt schema done written) ∧
        (schema.autoIncrementCol.isSome → acc.nextId = schema.nextId + done.length))
      ⟨⟨[], .refl conn e, rfl, fun _ _ _ h ↦ nomatch h⟩, fun _ ↦ rfl⟩
      (fun done row rest _ acc u ⟨⟨written, hdeposits, hrows⟩, hnext⟩ ↦
        wp_insertRow_deposits hdeposits hrows hnext)
      fun _ _ h ↦ h.1) (fun acc u ⟨written, hdeposits, hrows⟩ ↦ ?_) fun _ _ h ↦ h.elim)
    refine Effect.wp_mono (Q := fun _ u ↦ Deposits conn written e u)
      (F := fun _ u ↦ Deposits conn written e u) ?_ (fun _ _ h ↦ ⟨written, h, hrows⟩)
      fun _ _ h ↦ ⟨written, h, hrows⟩
    refine Effect.wp_bind (Effect.wp_forEach (fun _ u ↦ Deposits conn written e u) hdeposits
      (fun _ _ _ _ _ h ↦ henqueue h) fun u h ↦ ?_)
    refine Effect.wp_bind (Effect.wp_mono (Q := fun _ u ↦ Deposits conn written e u) ?_
      (fun _ _ h ↦ Effect.wp_pure h) fun _ _ h ↦ h)
    unfold storeNextId
    split
    · exact Effect.wp_bind (Effect.wp_modify (Effect.wp_bind (Effect.wp_bind (Effect.wp_get
        (Effect.wp_bind (Effect.wp_modify (Effect.wp_pure (henqueue (h.same rfl rfl rfl)))))))))
    · exact Effect.wp_pure h
  · rw [hschema] at herr
    cases herr

/-- A single record that is stored is the one. -/
theorem Deposits.single {w w' : Bytes × Record} (h : Deposits conn [w] e u) (h' : Deposits conn [w'] e u) :
    w = w' := by
  have hkey : w.1 = w'.1 := by
    have hdrawn := List.append_cancel_left (h.drawn.symm.trans h'.drawn)
    exact congrArg Prod.snd (List.cons.inj hdrawn).1
  refine Prod.ext hkey ?_
  rcases hopen : e.activeTransactions.lookup conn with - | tx
  · have hinstalls := List.append_cancel_left
      ((h.installed hopen).2.symm.trans (h'.installed hopen).2)
    exact Data.record.inj (congrArg Install.data (List.cons.inj hinstalls).1)
  · obtain ⟨tx₁, htx₁, hupdates⟩ := h.buffered tx hopen
    obtain ⟨tx₂, htx₂, hupdates'⟩ := h'.buffered tx hopen
    obtain rfl := Option.some.inj (htx₁.symm.trans htx₂)
    have hsame : tx.updates.insert w.1 (.record w.2) = tx.updates.insert w'.1 (.record w'.2) :=
      hupdates.symm.trans hupdates'
    have hlookup := congrArg (AList.lookup w.1) hsame
    rw [AList.lookup_insert, hkey, AList.lookup_insert] at hlookup
    exact Data.record.inj (Option.some.inj hlookup)

end Engine

/-! ### Literals that can be told apart -/

/-- A number of ones. -/
def ones (n : Nat) : Bytes := List.replicate (n + 1) 49

/-- The sign of a signed number. -/
def Constant.Kind.sign : Kind → Bytes
  | .signedNumber => [45]
  | _ => []

theorem exists_numeral (n : Nat) : ∃ q, Decimal.unsigned? (ones n) = some q := by
  refine ⟨_, Decimal.unsigned?_of_natural? (List.cons_ne_nil _ _) (if_pos ?_)⟩
  exact List.all_eq_true.2 fun d hd ↦ by
    rw [List.eq_of_mem_replicate hd]
    rfl

theorem exists_telling {k : Constant.Kind} (hk : k ≠ .boolean) (n : Nat) :
    ∃ v : Constant, v.kind = k ∧ v.text = k.sign ++ ones n := by
  obtain ⟨q, hq⟩ := exists_numeral n
  cases k with
  | number => exact ⟨.number ⟨ones n, q, hq⟩ false, rfl, rfl⟩
  | signedNumber =>
    exact ⟨.number ⟨45 :: ones n, -q, congrArg (Option.map fun q ↦ -q) hq⟩ false, rfl, rfl⟩
  | string => exact ⟨.string (ones n), rfl, rfl⟩
  | boolean => exact absurd rfl hk

/-- A row of literals of given kinds, each longer than the one before. -/
theorem exists_tellingRow {kinds : List Constant.Kind} (hkinds : .boolean ∉ kinds) (n : Nat) :
    ∃ row : List Constant, row.map Constant.kind = kinds ∧ ∀ (i : Nat) (v : Constant),
      row[i]? = some v → v.text = v.kind.sign ++ ones (n + i) := by
  induction kinds generalizing n with
  | nil => exact ⟨[], rfl, fun _ _ h ↦ nomatch h⟩
  | cons k kinds ih =>
    obtain ⟨hk, hrest⟩ := not_or.1 fun h ↦ hkinds (List.mem_cons.2 h)
    obtain ⟨v, hv, htext⟩ := exists_telling (Ne.symm hk) n
    obtain ⟨row, hrow, htexts⟩ := ih hrest (n + 1)
    refine ⟨v :: row, by rw [List.map_cons, hv, hrow], fun i w hw ↦ ?_⟩
    cases i with
    | zero =>
      obtain rfl := Option.some.inj hw
      rw [hv]
      exact htext
    | succ i =>
      rw [htexts i w hw, Nat.add_assoc, Nat.add_comm 1 i]

theorem sign_append_ones_inj {k k' : Constant.Kind} {m n : Nat}
    (h : k.sign ++ ones m = k'.sign ++ ones n) : m = n := by
  have hsign : ∀ k : Constant.Kind, k.sign = [45] ∨ k.sign = [] := by
    intro k
    cases k <;> decide
  have hlength := congrArg List.length h
  rcases hsign k with hk | hk <;> rcases hsign k' with hk' | hk' <;> rw [hk, hk'] at h hlength
  · simpa [ones] using hlength
  · exact absurd (List.cons.inj h).1 (by decide)
  · exact absurd (List.cons.inj h).1 (by decide)
  · simpa [ones] using hlength

theorem sign_append_ones_ne_null (k : Constant.Kind) (n : Nat) : k.sign ++ ones n ≠ bytes "NULL" := by
  intro h
  cases k <;> exact absurd (List.cons.inj h).1 (by decide)

/-! ### The law of the columns -/

/-- The rows of an `INSERT` of literals of given kinds are stored with each value in its column. -/
def PutsInPlace (rt : Runtime) (e : Engine) (conn : Nat) (t : Bytes) (schema : TableSchema)
    (columns : List Bytes) (kinds : List Constant.Kind) : Prop :=
  ∀ rows : List (List Constant), (∀ row ∈ rows, row.map Constant.kind = kinds) →
    ∃ written, Deposits conn written e
        (execute rt (.statement (Insertion.statement ⟨t, columns, rows⟩)) conn e).2 ∧
      written.length = rows.length ∧ ∀ (i : Nat) (row : List Constant) (w : Bytes × Record),
        rows[i]? = some row → written[i]? = some w →
          ∃ stored, w.2.value = .row stored ∧ schema.Places columns row stored

section

variable {rt : Runtime} {e : Engine} {conn : Nat} {t : Bytes} {schema : TableSchema}
  {columns : List Bytes} {kinds : List Constant.Kind}

/-- Values for the first columns, in their order, are put into their columns. -/
theorem places_of_prefix {row : List Constant} {nextId : Nat} (hid : schema.nextId ≤ nextId)
    (hnodup : (schema.addressed columns).Nodup) (hfirst : schema.addressed columns <+: schema.targets)
    (hlength : row.length = (schema.addressed columns).length)
    (hunsigned : ∀ v ∈ row, v.Unsigned) :
    schema.Places columns row (insertedColumns schema nextId (row.map Constant.toExpr)) := by
  have htake : schema.targets.take (row.map Constant.toExpr).length = schema.addressed columns := by
    rw [List.length_map, hlength]
    exact (List.prefix_iff_eq_take.1 hfirst).symm
  refine ⟨fun i c v hc hv ↦ ?_, fun c hauto hc ↦ ⟨nextId, hid, ?_⟩, fun c hc hauto ↦ ?_⟩
  · have hplace : schema.targets[i]? = some c := by
      obtain ⟨hlt, -⟩ := List.getElem?_eq_some_iff.1 hc
      rw [← hc]
      exact (List.prefix_iff_getElem?.1 hfirst i hlt).trans (List.getElem?_eq_getElem hlt).symm
    rw [lookup_insertedColumns (by rw [htake]; exact hnodup) hplace
      (by rw [List.getElem?_map, hv]; rfl),
      insertedText_of_unsigned (hunsigned v (List.mem_of_getElem? hv))]
  · rw [lookup_insertedColumns_of_not_mem (by rw [htake]; exact hc), TableSchema.generated, hauto]
    exact AList.lookup_insert _
  · rw [lookup_insertedColumns_of_not_mem (by rw [htake]; exact hc), TableSchema.generated]
    rcases hcol : schema.autoIncrementCol with - | a
    · rfl
    · exact AList.lookup_insert_ne fun hca ↦ hauto (by rw [hcol, hca])

/-- A row that can be told from others is only put into its columns if these are the first ones in their
order, and it has no signed number. -/
theorem prefix_of_places {row : List Constant} {n : Nat}
    (hlength : row.length = (schema.addressed columns).length)
    (hn : (bytes (toString schema.nextId)).length ≤ n)
    (htexts : ∀ (i : Nat) (v : Constant), row[i]? = some v → v.text = v.kind.sign ++ ones (n + i))
    (h : schema.Places columns row (insertedColumns schema schema.nextId (row.map Constant.toExpr))) :
    (schema.addressed columns).Nodup ∧ schema.addressed columns <+: schema.targets ∧
      ∀ v ∈ row, v.Unsigned := by
  have hsame : ∀ {i j : Nat} {v w : Constant}, row[i]? = some v → row[j]? = some w →
      v.text = w.text → i = j := fun hi hj heq ↦ by
    rw [htexts _ _ hi, htexts _ _ hj] at heq
    exact Nat.add_left_cancel (sign_append_ones_inj heq)
  have hvalue : ∀ {i : Nat} {c : Bytes}, (schema.addressed columns)[i]? = some c →
      ∃ v, row[i]? = some v := fun hc ↦ by
    obtain ⟨hlt, -⟩ := List.getElem?_eq_some_iff.1 hc
    exact ⟨_, List.getElem?_eq_getElem (hlength ▸ hlt)⟩
  -- each addressed column has the text of its value, which only the value in its place has
  have hplace : ∀ {i : Nat} {c : Bytes} {v : Constant}, (schema.addressed columns)[i]? = some c →
      row[i]? = some v → schema.targets[i]? = some c ∧ v.Unsigned := by
    intro i c v hc hv
    rcases exists_of_lookup_insertedColumns (h.value i c v hc hv) with
      ⟨j, x, hj, hx, htext⟩ | hgenerated
    · rw [List.getElem?_map, Option.map_eq_some_iff] at hx
      obtain ⟨w, hw, rfl⟩ := hx
      by_cases hunsigned : w.Unsigned
      · rw [insertedText_of_unsigned hunsigned] at htext
        obtain rfl := hsame hv hw htext
        obtain rfl := Option.some.inj (hv.symm.trans hw)
        exact ⟨hj, hunsigned⟩
      · rw [insertedText_of_not_unsigned hunsigned, htexts i v hv] at htext
        exact absurd htext (sign_append_ones_ne_null _ _)
    · rw [TableSchema.generated] at hgenerated
      rcases hcol : schema.autoIncrementCol with - | a
      · rw [hcol] at hgenerated
        cases hgenerated
      · rw [hcol] at hgenerated
        have hnumber : v.text = bytes (toString schema.nextId) := by
          change (AList.insert a (bytes (toString schema.nextId)) (∅ : Row)).lookup c = _ at hgenerated
          rw [HashMap.lookup_insert_eq_ite] at hgenerated
          split at hgenerated
          · exact (Option.some.inj hgenerated).symm
          · cases hgenerated
        have hlong : n < v.text.length := by
          rw [htexts i v hv, List.length_append, ones, List.length_replicate]
          omega
        rw [hnumber] at hlong
        exact absurd hn (Nat.not_le_of_lt hlong)
  refine ⟨?_, List.prefix_iff_getElem?.2 fun i hlt ↦ ?_, fun v hv ↦ ?_⟩
  · refine List.nodup_iff_getElem?_ne_getElem?.2 fun i j hij hlt heq ↦ ?_
    have hj := List.getElem?_eq_getElem hlt
    obtain ⟨v, hv⟩ := hvalue (heq.trans hj)
    obtain ⟨w, hw⟩ := hvalue hj
    have htext := (h.value _ _ v (heq.trans hj) hv).symm.trans (h.value _ _ w hj hw)
    exact absurd (hsame hv hw (Option.some.inj htext)) (Nat.ne_of_lt hij)
  · have hi := List.getElem?_eq_getElem hlt
    obtain ⟨v, hv⟩ := hvalue hi
    exact (hplace hi hv).1
  · obtain ⟨i, hi⟩ := List.getElem?_of_mem hv
    obtain ⟨hlt, -⟩ := List.getElem?_eq_some_iff.1 hi
    exact (hplace (List.getElem?_eq_getElem (hlength ▸ hlt)) hi).2

/-- **When an `INSERT` puts each value in its column.** For literals of given kinds, all of them numbers or
strings and as many as columns are addressed: every such statement does, in any state, outside and inside
transactions, if and only if the columns are addressed once each and in the order in which the table has
them, from the first one on or from the second one if it has a generated column, and no literal is a
signed number. -/
theorem insert_iff (hschema : e.schemas.lookup t = some schema)
    (hlength : kinds.length = (schema.addressed columns).length) (hkinds : .boolean ∉ kinds) :
    PutsInPlace rt e conn t schema columns kinds ↔
      (schema.addressed columns).Nodup ∧ schema.addressed columns <+: schema.targets ∧
        .signedNumber ∉ kinds := by
  have hlengthOf : ∀ {row : List Constant}, row.map Constant.kind = kinds →
      row.length = (schema.addressed columns).length := fun hrow ↦ by
    rw [← hlength, ← hrow, List.length_map]
  constructor
  · intro h
    obtain ⟨row, hrow, htexts⟩ := exists_tellingRow hkinds (bytes (toString schema.nextId)).length
    obtain ⟨written, hwritten, hlen, hplaces⟩ := h [row] fun r hr ↦ List.mem_singleton.1 hr ▸ hrow
    obtain ⟨written', hwritten', hlen', hrows'⟩ := deposits_of_insert rt conn
      [row.map Constant.toExpr] hschema
    obtain ⟨w, rfl⟩ := List.length_eq_one_iff.1 hlen
    obtain ⟨w', rfl⟩ := List.length_eq_one_iff.1 hlen'
    obtain rfl := hwritten.single hwritten'
    obtain ⟨stored, hvalue, hstored⟩ := hplaces 0 row w rfl rfl
    obtain rfl := Payload.row.inj (hvalue.symm.trans (hrows' 0 _ w rfl rfl))
    obtain ⟨hnodup, hfirst, hunsigned⟩ := prefix_of_places (hlengthOf hrow) le_rfl htexts hstored
    refine ⟨hnodup, hfirst, fun hsigned ↦ ?_⟩
    rw [← hrow] at hsigned
    obtain ⟨v, hv, hkind⟩ := List.mem_map.1 hsigned
    exact (Constant.unsigned_iff.1 (hunsigned v hv)).1 hkind
  · rintro ⟨hnodup, hfirst, hsigned⟩ rows hrows
    obtain ⟨written, hwritten, hlen, hrowAt⟩ := deposits_of_insert rt conn
      (rows.map fun row ↦ row.map Constant.toExpr) hschema
    refine ⟨written, hwritten, hlen.trans (List.length_map _), fun i row w hi hw ↦ ?_⟩
    have hrow := hrows row (List.mem_of_getElem? hi)
    refine ⟨_, hrowAt i _ w (by rw [List.getElem?_map, hi]; rfl) hw, ?_⟩
    refine places_of_prefix (Nat.le_add_right _ _) hnodup hfirst (hlengthOf hrow) fun v hv ↦ ?_
    have hkind : v.kind ∈ kinds := hrow ▸ List.mem_map_of_mem hv
    exact Constant.unsigned_iff.2 ⟨fun h ↦ hsigned (h ▸ hkind), fun h ↦ hkinds (h ▸ hkind)⟩

end

/-! ### A table with a generated column -/

/-- A table with a generated column in front of two others. -/
def pairs : TableSchema where
  name := bytes "pairs"
  columns := [bytes "id", bytes "a", bytes "b"]
  autoIncrementCol := some (bytes "id")
  nextId := 1

/-- An engine with this table. -/
def pairsEngine : Engine :=
  { Engine.empty with schemas := (∅ : HashMap Bytes TableSchema).insert (bytes "pairs") pairs }

theorem insert_iff_pairs :
    PutsInPlace .plain pairsEngine 1 (bytes "pairs") pairs [bytes "a", bytes "b"] [.number, .string] ↔
      (pairs.addressed [bytes "a", bytes "b"]).Nodup ∧
        pairs.addressed [bytes "a", bytes "b"] <+: pairs.targets ∧
        .signedNumber ∉ [Constant.Kind.number, .string] :=
  insert_iff rfl rfl (by decide)

/-- A list of columns in another order is not looked at: `INSERT INTO pairs (b, a) VALUES ('x', 'y')`
stores `x` in the column `a`. -/
theorem not_putsInPlace : ¬ ∀ (rt : Runtime) (e : Engine) (conn : Nat) (t : Bytes)
    (schema : TableSchema) (columns : List Bytes) (kinds : List Constant.Kind),
    e.schemas.lookup t = some schema → kinds.length = (schema.addressed columns).length →
      (schema.addressed columns).Nodup → (∀ c ∈ columns, c ∈ schema.columns) →
      (∀ k ∈ kinds, k = .number ∨ k = .string) → PutsInPlace rt e conn t schema columns kinds := by
  intro h
  have hputs := h .plain pairsEngine 1 (bytes "pairs") pairs [bytes "b", bytes "a"] [.string, .string]
    rfl rfl (by decide) (by decide) (by decide)
  let row : List Constant := [.string (bytes "x"), .string (bytes "y")]
  obtain ⟨written, hwritten, hlen, hplaces⟩ := hputs [row] fun r hr ↦ List.mem_singleton.1 hr ▸ rfl
  obtain ⟨written', hwritten', hlen', hrows'⟩ := deposits_of_insert .plain 1
    [row.map Constant.toExpr] (show pairsEngine.schemas.lookup (bytes "pairs") = some pairs from rfl)
  obtain ⟨w, rfl⟩ := List.length_eq_one_iff.1 hlen
  obtain ⟨w', rfl⟩ := List.length_eq_one_iff.1 hlen'
  obtain rfl := hwritten.single hwritten'
  obtain ⟨stored, hvalue, hstored⟩ := hplaces 0 row w rfl rfl
  obtain rfl := Payload.row.inj (hvalue.symm.trans (hrows' 0 _ w rfl rfl))
  exact absurd (hstored.value 0 (bytes "b") (.string (bytes "x")) rfl rfl) (by decide)

end KsSql
