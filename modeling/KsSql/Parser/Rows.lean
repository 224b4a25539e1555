import KsSql.Parser.Reading

/-!
# The columns of rows

Which text a row has in a column. A row to be stored is built by `INSERT` from the values of a statement
(`insertedColumns`): they go to the columns of the table in order, behind the first one if the table has a
generated column. A row that a scan returns has each column under its name and under its qualified name,
and its key (`scannedRow`); the names of columns are not qualified ones of the same table
(`Row.Unqualified`), so that no column takes the place of another.
-/

namespace KsSql

open Engine

/-! ### Inserted rows -/

/-- The columns that the values of an `INSERT` go to, in order. -/
def TableSchema.targets (schema : TableSchema) : List Bytes :=
  schema.columns.drop (if schema.autoIncrementCol.isSome then 1 else 0)

/-- The row before the values of the statement: the generated number, if there is one. -/
def TableSchema.generated (schema : TableSchema) (nextId : Nat) : Row :=
  match schema.autoIncrementCol with
  | some col => (∅ : Row).insert col (bytes (toString nextId))
  | none => ∅

variable {schema : TableSchema} {nextId : Nat} {values : List Expr} {c : Bytes}

theorem insertedColumns_eq (schema : TableSchema) (nextId : Nat) (values : List Expr) :
    insertedColumns schema nextId values =
      ((values.zip schema.targets).map fun x ↦ (x.2, insertedText x.1)).foldl
        (fun m c ↦ m.insert c.1 c.2) (schema.generated nextId) := by
  rw [List.foldl_map]
  rfl

/-- A value goes to the column in its place. -/
theorem lookup_insertedColumns {i : Nat} {x : Expr}
    (hnodup : (schema.targets.take values.length).Nodup) (hc : schema.targets[i]? = some c)
    (hx : values[i]? = some x) :
    (insertedColumns schema nextId values).lookup c = some (insertedText x) := by
  rw [insertedColumns_eq]
  refine HashMap.lookup_foldl_insert_of_mem ?_ (fun v hv ↦ ?_) _
  · refine List.mem_map.2 ⟨(x, c), ?_, rfl⟩
    refine List.mem_of_getElem? (i := i) ?_
    rw [List.getElem?_zip_eq_some]
    exact ⟨hx, hc⟩
  · obtain ⟨⟨y, c'⟩, hmem, heq⟩ := List.mem_map.1 hv
    obtain ⟨rfl, rfl⟩ : c = c' ∧ v = insertedText y := ⟨(Prod.mk.inj heq).1.symm, (Prod.mk.inj heq).2.symm⟩
    obtain ⟨j, hj⟩ := List.getElem?_of_mem hmem
    rw [List.getElem?_zip_eq_some] at hj
    have hplace : ∀ {k : Nat} {z : Expr}, values[k]? = some z → schema.targets[k]? = some c →
        (schema.targets.take values.length)[k]? = some c := fun hz hk ↦ by
      rw [List.getElem?_take, if_pos (List.getElem?_eq_some_iff.1 hz).1]
      exact hk
    have hi := hplace hx hc
    have hij : i = j := (List.getElem?_inj (List.getElem?_eq_some_iff.1 hi).1 hnodup).1
      (hi.trans (hplace hj.1 hj.2).symm)
    subst hij
    rw [Option.some.inj (hx.symm.trans hj.1)]

/-- What a column has is the text of a value that goes to it, or the generated number. -/
theorem exists_of_lookup_insertedColumns {text : Bytes}
    (h : (insertedColumns schema nextId values).lookup c = some text) :
    (∃ (i : Nat) (x : Expr), schema.targets[i]? = some c ∧ values[i]? = some x ∧
        text = insertedText x) ∨
      (schema.generated nextId).lookup c = some text := by
  rw [insertedColumns_eq] at h
  rcases HashMap.mem_or_lookup_of_lookup_foldl_insert h with hmem | hbase
  · obtain ⟨⟨x, c'⟩, hx, heq⟩ := List.mem_map.1 hmem
    cases heq
    obtain ⟨i, hi⟩ := List.getElem?_of_mem hx
    rw [List.getElem?_zip_eq_some] at hi
    exact .inl ⟨i, x, hi.2, hi.1, rfl⟩
  · exact .inr hbase

/-- A column that no value goes to has the generated number, or nothing. -/
theorem lookup_insertedColumns_of_not_mem
    (h : c ∉ schema.targets.take values.length) :
    (insertedColumns schema nextId values).lookup c = (schema.generated nextId).lookup c := by
  rw [insertedColumns_eq]
  refine HashMap.lookup_foldl_insert_of_not_mem (fun hmem ↦ h ?_) _
  rw [List.map_map] at hmem
  obtain ⟨⟨x, c'⟩, hx, rfl⟩ := List.mem_map.1 hmem
  obtain ⟨i, hi⟩ := List.getElem?_of_mem hx
  rw [List.getElem?_zip_eq_some] at hi
  have hlt : i < values.length := (List.getElem?_eq_some_iff.1 hi.1).1
  exact List.mem_of_getElem? (i := i) (by rw [List.getElem?_take, if_pos hlt]; exact hi.2)

/-! ### Scanned rows -/

/-- No column is named as another one with the table's name in front. -/
def Row.Unqualified (t : Bytes) (columns : Row) : Prop :=
  ∀ c ∈ columns.keys, ∀ c' ∈ columns.keys, c ≠ qualified t c'

instance (t : Bytes) (columns : Row) : Decidable (columns.Unqualified t) :=
  inferInstanceAs (Decidable (∀ c ∈ columns.keys, ∀ c' ∈ columns.keys, c ≠ qualified t c'))

variable {rt : Runtime} {t key v : Bytes} {columns : Row}

theorem qualified_injective {c c' : Bytes} (h : qualified t c = qualified t c') : c = c' :=
  List.append_cancel_left h

theorem scannedRow_eq (rt : Runtime) (t key : Bytes) (columns : Row) :
    scannedRow rt t key columns =
      ((rt.iterate columns).flatMap fun c ↦ [(c.1, c.2), (qualified t c.1, c.2)]).foldl
        (fun m c ↦ m.insert c.1 c.2) ((∅ : Row).insert keyColumn key) := by
  rw [List.foldl_flatMap]
  rfl

/-- What is put into a scanned row beside its key. -/
theorem mem_bindings_iff {x : Bytes × Bytes} :
    x ∈ ((rt.iterate columns).flatMap fun c ↦ [(c.1, c.2), (qualified t c.1, c.2)]) ↔
      ∃ c, columns.lookup c = some x.2 ∧ (x.1 = c ∨ x.1 = qualified t c) := by
  rw [List.mem_flatMap]
  constructor
  · rintro ⟨c, hc, hx⟩
    have hlookup := mem_iterate_iff.1 hc
    rcases List.mem_cons.1 hx with rfl | hx
    · exact ⟨c.1, hlookup, .inl rfl⟩
    · obtain rfl := List.mem_singleton.1 hx
      exact ⟨c.1, hlookup, .inr rfl⟩
  · rintro ⟨c, hc, hx⟩
    refine ⟨(c, x.2), mem_iterate_iff.2 hc, ?_⟩
    rcases hx with hx | hx
    · exact List.mem_cons.2 (.inl (Prod.ext hx rfl))
    · exact List.mem_cons_of_mem _ (List.mem_singleton.2 (Prod.ext hx rfl))

theorem mem_keys_of_lookup {m : Row} (h : m.lookup c = some v) : c ∈ m.keys :=
  AList.lookup_isSome.1 (Option.isSome_iff_exists.2 ⟨v, h⟩)

/-- A scanned row has a column under a name of it that is no other column's. -/
theorem lookup_scannedRow_of_unique {name : Bytes} (hc : columns.lookup c = some v)
    (hname : name = c ∨ name = qualified t c)
    (hunique : ∀ c' ∈ columns.keys, name = c' ∨ name = qualified t c' → c' = c) :
    (scannedRow rt t key columns).lookup name = some v := by
  rw [scannedRow_eq]
  refine HashMap.lookup_foldl_insert_of_mem (mem_bindings_iff.2 ⟨c, hc, hname⟩) (fun v' hv' ↦ ?_) _
  obtain ⟨c', hc', hname'⟩ := mem_bindings_iff.1 hv'
  obtain rfl := hunique c' (mem_keys_of_lookup hc') hname'
  exact Option.some.inj (hc'.symm.trans hc)

/-- A scanned row has each column under its name. -/
theorem lookup_scannedRow (h : columns.Unqualified t) (hc : columns.lookup c = some v) :
    (scannedRow rt t key columns).lookup c = some v := by
  refine lookup_scannedRow_of_unique hc (.inl rfl) fun c' hc' hname ↦ ?_
  rcases hname with rfl | hname
  · rfl
  · exact absurd hname (h c (mem_keys_of_lookup hc) c' hc')

/-- A qualified name has a dot. -/
theorem dot_mem_qualified (t c : Bytes) : (46 : UInt8) ∈ qualified t c :=
  List.mem_append_left _ (List.mem_append_right _ (by decide))

theorem qualified_ne_keyColumn (t c : Bytes) : qualified t c ≠ keyColumn := fun heq ↦
  absurd (heq ▸ dot_mem_qualified t c) (by decide)

/-- A name of a scanned row is the one of its key, or one of a column, qualified or not. -/
theorem exists_of_lookup_scannedRow {name : Bytes}
    (h : (scannedRow rt t key columns).lookup name = some v) :
    (∃ c, columns.lookup c = some v ∧ (name = c ∨ name = qualified t c)) ∨ name = keyColumn := by
  rw [scannedRow_eq] at h
  rcases HashMap.mem_or_lookup_of_lookup_foldl_insert h with hmem | hbase
  · exact .inl (mem_bindings_iff.1 hmem)
  · rw [HashMap.lookup_insert_eq_ite] at hbase
    split at hbase
    · exact .inr ‹_›
    · cases hbase

/-- Under a name that is the one of a column, and neither another column's nor the key's, a scanned row has
what the row has. -/
theorem lookup_scannedRow_eq_of_unique {name : Bytes} (hname : name = c ∨ name = qualified t c)
    (hkey : name ≠ keyColumn)
    (hunique : ∀ c' ∈ columns.keys, name = c' ∨ name = qualified t c' → c' = c) :
    (scannedRow rt t key columns).lookup name = columns.lookup c := by
  rcases hcolumns : columns.lookup c with - | v
  · rcases hlookup : (scannedRow rt t key columns).lookup name with - | v
    · rfl
    rcases exists_of_lookup_scannedRow hlookup with ⟨c', hc', hname'⟩ | hkey'
    · obtain rfl := hunique c' (mem_keys_of_lookup hc') hname'
      exact nomatch hcolumns.symm.trans hc'
    · exact absurd hkey' hkey
  · exact lookup_scannedRow_of_unique hcolumns hname hunique

/-- The names of a table's columns are told apart in a row: none is the one that a scan puts the key
under, none is a qualified name or behind a dot in a name, and behind the dot of a qualified name stands
the column's name only. A name with a dot in it is displayed in quotes. -/
structure Row.Named (t : Bytes) (names : List Bytes) (columns : Row) : Prop where
  notKey : keyColumn ∉ names
  unqualified : ∀ c ∈ names, ∀ c' ∈ columns.keys, c ≠ qualified t c'
  notEnding : ∀ c ∈ names, ∀ c' ∈ columns.keys, ¬ (bytes "." ++ c) <:+ c'
  ending : ∀ c ∈ names, ∀ c' ∈ columns.keys, (bytes "." ++ c) <:+ qualified t c' → c' = c

instance (t : Bytes) (names : List Bytes) (columns : Row) : Decidable (columns.Named t names) :=
  decidable_of_iff (keyColumn ∉ names ∧ (∀ c ∈ names, ∀ c' ∈ columns.keys, c ≠ qualified t c') ∧
    (∀ c ∈ names, ∀ c' ∈ columns.keys, ¬ (bytes "." ++ c) <:+ c') ∧
    ∀ c ∈ names, ∀ c' ∈ columns.keys, (bytes "." ++ c) <:+ qualified t c' → c' = c)
    ⟨fun ⟨h₁, h₂, h₃, h₄⟩ ↦ ⟨h₁, h₂, h₃, h₄⟩, fun ⟨h₁, h₂, h₃, h₄⟩ ↦ ⟨h₁, h₂, h₃, h₄⟩⟩

variable {names : List Bytes}

theorem suffix_qualified (t c : Bytes) : (bytes "." ++ c) <:+ qualified t c := by
  rw [qualified, List.append_assoc]
  exact List.suffix_append t _

/-- A name of one of the table's columns is no other column's. -/
theorem Row.Named.unique {name : Bytes} (h : columns.Named t names) (hc : c ∈ names)
    (hname : name = c ∨ name = qualified t c) {c' : Bytes} (hc' : c' ∈ columns.keys)
    (hname' : name = c' ∨ name = qualified t c') : c' = c := by
  rcases hname with rfl | rfl
  · rcases hname' with rfl | hname'
    · rfl
    · exact absurd hname' (h.unqualified name hc c' hc')
  · rcases hname' with hname' | hname'
    · exact absurd (suffix_qualified t c) (hname' ▸ h.notEnding c hc c' hc')
    · exact (qualified_injective hname').symm

/-- Under a column's name and its qualified name, a scanned row has what the row has. -/
theorem lookup_scannedRow_eq {name : Bytes} (h : columns.Named t names) (hc : c ∈ names)
    (hname : name = c ∨ name = qualified t c) :
    (scannedRow rt t key columns).lookup name = columns.lookup c := by
  refine lookup_scannedRow_eq_of_unique hname ?_ fun c' hc' hname' ↦ h.unique hc hname hc' hname'
  rintro rfl
  rcases hname with rfl | hname
  · exact h.notKey hc
  · exact qualified_ne_keyColumn t c hname.symm

/-- No name of a scanned row ends with a column that the row does not have. -/
theorem suffixValue_scannedRow (h : columns.Named t names) (hc : c ∈ names)
    (hnone : columns.lookup c = none) : suffixValue rt (scannedRow rt t key columns) c = none := by
  rw [suffixValue, Option.map_eq_none_iff, List.find?_eq_none]
  rintro ⟨name, v⟩ hmem
  rw [List.isSuffixOf_iff_suffix]
  intro hsuffix
  rcases exists_of_lookup_scannedRow (mem_iterate_iff.1 hmem) with ⟨c', hc', rfl | rfl⟩ | rfl
  · exact h.notEnding c hc name (mem_keys_of_lookup hc') hsuffix
  · obtain rfl := h.ending c hc c' (mem_keys_of_lookup hc') hsuffix
    cases hnone.symm.trans hc'
  · have hdot : (46 : UInt8) ∈ keyColumn := hsuffix.subset (List.mem_append_left c (by decide))
    exact absurd hdot (by decide)

end KsSql
