import KsSql.Parser.Literals
import KsSql.Parser.TableQueries
import KsSql.Parser.UndoRedo
import KsSql.Util.Filters

/-!
# What an `UPDATE` assigns

An `UPDATE` outside transactions, in its own terms: `Term` is an expression of columns, literals, `+`
and `-`, with a value on each row, and `TableUpdate` assigns the values of such expressions to columns
of the rows that satisfy a condition (`TableUpdate.Performed`).

The engine scans the table for the keys of the rows, looks each key up again, and stores the printed
form of each expression under the first part of the column's name. `TableUpdate.Fits` says when this
comes to the same: the expressions are printed as their values (`Term.denotes_iff`), the condition is
tested right, the lookups find what the scan has shown, and there is room for what is written
(`update_performed`).
-/

namespace KsSql

open Engine

/-! ### Values -/

/-- The value of an expression: a number or a text. -/
inductive TermValue
  | number (q : Rat)
  | text (t : Bytes)

/-- The number that a value is, or that its text stands for. -/
def TermValue.rational? : TermValue → Option Rat
  | .number q => some q
  | .text t => Decimal.parse t

/-- A text stands for a value: it reads as the number, or is the text. -/
def TermValue.Denotes (text : Bytes) : TermValue → Prop
  | .number q => Decimal.parse text = some q
  | .text t => text = t

instance (text : Bytes) : DecidablePred (TermValue.Denotes text)
  | .number _ => inferInstanceAs (Decidable (_ = _))
  | .text _ => inferInstanceAs (Decidable (_ = _))

/-- The value of a literal. -/
def Constant.value : Constant → TermValue
  | .number n _ => .number n.value
  | v => .text v.text

/-- An expression that is assigned: columns and literals, added and subtracted. -/
inductive Term
  | column (name : Bytes)
  | qualified (qualifier : List Bytes) (name : Bytes)
  | constant (v : Constant)
  | null
  | add (left right : Term)
  | sub (left right : Term)
  | nested (inner : Term)

/-- As the SQL parser reads it. The syntax tree does not tell `+` and `-` apart, so that such an
operation is given by its text. -/
def Term.toExpr (rt : Runtime) : Term → Expr
  | .column name => .identifier name
  | .qualified qualifier name => .compoundIdentifier qualifier name
  | .constant v => v.toExpr
  | .null => .value (.other (bytes "NULL"))
  | .add left right => .other (rt.display (left.toExpr rt) ++ bytes " + " ++ rt.display (right.toExpr rt))
  | .sub left right => .other (rt.display (left.toExpr rt) ++ bytes " - " ++ rt.display (right.toExpr rt))
  | .nested inner => .nested (inner.toExpr rt)

/-- The value of an operation, if both values are numbers. -/
def TermValue.operate (f : Rat → Rat → Rat) (a b : Option TermValue) : Option TermValue := do
  let x ← a.bind TermValue.rational?
  let y ← b.bind TermValue.rational?
  pure (.number (f x y))

/-- The value of an expression on a row, if it has one. -/
def Term.value (row : Row) : Term → Option TermValue
  | .column name => (row.lookup name).map .text
  | .qualified qualifier name => (row.lookup (dotted (qualifier ++ [name]))).map .text
  | .constant v => some v.value
  | .null => some (.text (bytes "NULL"))
  | .add left right => TermValue.operate (· + ·) (left.value row) (right.value row)
  | .sub left right => TermValue.operate (· - ·) (left.value row) (right.value row)
  | .nested inner => inner.value row

/-- The columns that an expression speaks of are the table's. -/
def Term.Of (t : Bytes) (names : List Bytes) : Term → Prop
  | .column name => name ∈ names
  | .qualified qualifier name => qualifier = [t] ∧ name ∈ names
  | .constant _ => True
  | .null => True
  | .add left right => left.Of t names ∧ right.Of t names
  | .sub left right => left.Of t names ∧ right.Of t names
  | .nested inner => inner.Of t names

/-- The columns that a condition speaks of are the table's. -/
def Condition.Of (t : Bytes) (names : List Bytes) : Condition → Prop
  | .compare left _ right => left.Of t names ∧ right.Of t names
  | .and left right => left.Of t names ∧ right.Of t names
  | .or left right => left.Of t names ∧ right.Of t names
  | .not inner => inner.Of t names
  | .nested inner => inner.Of t names

/-! ### Printed expressions -/

/-- A literal is printed as its value: a number without a suffix, a string without quotes. -/
def Constant.Printed : Constant → Prop
  | .number _ long => long = false
  | .string text => 39 ∉ text
  | .boolean _ => True

instance : DecidablePred Constant.Printed
  | .number _ long => inferInstanceAs (Decidable (long = false))
  | .string text => inferInstanceAs (Decidable (39 ∉ text))
  | .boolean _ => instDecidableTrue

/-- **An expression is printed as its value on a row**: a literal that is, a column whose text is
its name, an operation that has no value. -/
def Term.Printed (rt : Runtime) (row : Row) : Term → Prop
  | .column name => ∀ text ∈ row.lookup name, rt.unquoted (.identifier name) = text
  | .qualified qualifier name => ∀ text ∈ row.lookup (dotted (qualifier ++ [name])),
      rt.unquoted (.compoundIdentifier qualifier name) = text
  | .constant v => v.Printed
  | .null => True
  | .add left right => (Term.add left right).value row = none
  | .sub left right => (Term.sub left right).value row = none
  | .nested inner => ∀ value ∈ inner.value row, value.Denotes (rt.unquoted (.nested (inner.toExpr rt)))

section

variable {rt : Runtime} {row : Row}

/-- The printed form of a literal stands for its value. -/
theorem Constant.denotes_iff (hdisplay : rt.DisplaysLiterals) (v : Constant) :
    v.value.Denotes (rt.unquoted v.toExpr) ↔ v.Printed := by
  rw [unquoted_toExpr hdisplay]
  cases v with
  | number n long =>
    cases long with
    | false =>
      refine iff_of_true ?_ rfl
      show Decimal.parse (n.text ++ []) = some n.value
      rw [List.append_nil, n.value_eq]
    | true =>
      refine iff_of_false (fun h ↦ ?_) (fun h ↦ nomatch h)
      have hmem : (76 : UInt8) ∈ n.text ++ Constant.suffix true :=
        List.mem_append_right _ (by decide)
      exact absurd (Decimal.isPart_of_parse h _ hmem) (by decide)
  | string text =>
    show text.filter (· ≠ 39) = text ↔ 39 ∉ text
    rw [List.filter_eq_self]
    exact ⟨fun h hmem ↦ of_decide_eq_true (h 39 hmem) rfl,
      fun h c hc ↦ decide_eq_true fun hquote ↦ h (hquote ▸ hc)⟩
  | boolean b => exact iff_of_true rfl trivial

/-- A text with a space in it stands for no number. -/
theorem TermValue.not_denotes_operation (hdisplay : rt.DisplaysLiterals) {op : Bytes}
    (hop : (32 : UInt8) ∈ op) {f : Rat → Rat → Rat} {a b : Option TermValue} (left right : Bytes) :
    (∀ value ∈ operate f a b, value.Denotes (rt.unquoted (.other (left ++ op ++ right)))) ↔
      operate f a b = none := by
  refine ⟨fun h ↦ ?_, fun h value hvalue ↦ nomatch h.symm.trans hvalue⟩
  rw [Option.eq_none_iff_forall_not_mem]
  intro value hvalue
  obtain ⟨x, -, hx⟩ := Option.bind_eq_some_iff.1 hvalue
  obtain ⟨y, -, hy⟩ := Option.bind_eq_some_iff.1 hx
  have hdenotes := h value hvalue
  obtain rfl := Option.some.inj hy
  have hmem : (32 : UInt8) ∈ rt.unquoted (.other (left ++ op ++ right)) := by
    rw [Runtime.unquoted, hdisplay.expression, List.mem_filter]
    exact ⟨List.mem_append_left _ (List.mem_append_right _ hop), rfl⟩
  exact absurd (Decimal.isPart_of_parse hdenotes _ hmem) (by decide)

/-- **What `UPDATE` stores for an expression stands for its value exactly if it is printed so.** -/
theorem Term.denotes_iff (hdisplay : rt.DisplaysLiterals) (t : Term) :
    (∀ value ∈ t.value row, value.Denotes (rt.unquoted (t.toExpr rt))) ↔ t.Printed rt row := by
  cases t with
  | column name => exact Option.forall_mem_map
  | qualified qualifier name => exact Option.forall_mem_map
  | constant v =>
    rw [Term.Printed, ← v.denotes_iff hdisplay]
    exact ⟨fun h ↦ h v.value rfl, fun h value hvalue ↦ Option.some.inj hvalue ▸ h⟩
  | null =>
    refine iff_of_true (fun value hvalue ↦ ?_) trivial
    obtain rfl := Option.some.inj hvalue
    show rt.unquoted (.value (.other (bytes "NULL"))) = bytes "NULL"
    rw [Runtime.unquoted, hdisplay.literal]
    decide
  | add left right => exact TermValue.not_denotes_operation hdisplay (by decide) _ _
  | sub left right => exact TermValue.not_denotes_operation hdisplay (by decide) _ _
  | nested inner => exact Iff.rfl

end

/-! ### Statements -/

/-- An assignment to a column, which may be qualified. -/
structure Setting where
  qualifier : List Bytes
  column : Bytes
  value : Term

/-- `UPDATE t SET .. WHERE ..` -/
structure TableUpdate where
  table : Bytes
  settings : List Setting
  condition : Option Condition

namespace TableUpdate

/-- The assignments as the SQL parser reads them. -/
def assignments (rt : Runtime) (q : TableUpdate) : List Assignment :=
  q.settings.map fun a ↦ ⟨a.qualifier ++ [a.column], a.value.toExpr rt⟩

/-- The condition as the SQL parser reads it. -/
def selection (rt : Runtime) (q : TableUpdate) : Option Expr := q.condition.map (Condition.toExpr rt)

def statement (rt : Runtime) (q : TableUpdate) : Statement :=
  .update (.table q.table) (q.assignments rt) (q.selection rt)

/-- The columns that are assigned to. -/
def columns (q : TableUpdate) : List Bytes := q.settings.map Setting.column

/-- A row as conditions and expressions see it: each column under its name and its qualified name.
-/
def seen (rt : Runtime) (q : TableUpdate) (x : Bytes × Row) : Row := scannedRow rt q.table x.1 x.2

/-- A row satisfies the condition, if there is one. -/
def holds (rt : Runtime) (q : TableUpdate) (x : Bytes × Row) : Bool :=
  q.condition.all (Condition.truth (q.seen rt x))

/-- The rows that satisfy the condition, with their keys. -/
def chosen (rt : Runtime) (q : TableUpdate) (e : Engine) : List (Bytes × Row) :=
  (e.scanned rt q.table e.currentVersion).filter (q.holds rt)

/-- The statement is one on a table with such columns. -/
structure Of (q : TableUpdate) (names : List Bytes) : Prop where
  qualifier : ∀ a ∈ q.settings, a.qualifier = [] ∨ a.qualifier = [q.table]
  column : ∀ a ∈ q.settings, a.column ∈ names
  value : ∀ a ∈ q.settings, a.value.Of q.table names
  condition : ∀ c ∈ q.condition, c.Of q.table names

/-- A row has become another one by the assignments: each column assigned to has the value of its
expression on the old row, if that has a value, and the others are as they were. -/
structure Assigned (rt : Runtime) (q : TableUpdate) (x : Bytes × Row) (columns : Row) : Prop where
  set : ∀ a ∈ q.settings, ∀ value ∈ a.value.value (q.seen rt x),
    ∃ text, columns.lookup a.column = some text ∧ value.Denotes text
  other : ∀ c, c ∉ q.columns → columns.lookup c = x.2.lookup c

/-- **What an `UPDATE` is to do**: each row that satisfied the condition has become another one by
the assignments, every other row of every table is what it was, and the number of the rows that
satisfied the condition is reported. -/
structure Performed (rt : Runtime) (q : TableUpdate) (e u : Engine) (reply : Reply) : Prop where
  changed : ∀ x ∈ q.chosen rt e,
    ∃ columns, u.view rt q.table u.currentVersion x.1 = some columns ∧ q.Assigned rt x columns
  other : ∀ t, (e.schemas.lookup t).isSome → ∀ key, (t = q.table → ∀ x ∈ q.chosen rt e, x.1 ≠ key) →
    u.view rt t u.currentVersion key = e.view rt t e.currentVersion key
  reported : reply.output = countText "Updated" (q.chosen rt e).length

/-- **When the engine does it**: the table can be scanned, and nothing is stored under the key of an
index entry for the condition; the rows have the columns that the condition speaks of, and it agrees
on each; the rows that satisfy it are found again by their keys, which no other table has; the first
part of each name is the column's, no column is assigned to twice, and each expression is printed as
its value; the memory tier and the queue have room, and the version does not wrap around. -/
structure Fits (rt : Runtime) (q : TableUpdate) (e : Engine) : Prop where
  scannable : Scannable id rt q.table e.currentVersion (e.entries rt) []
  direct : ∀ lookup ∈ indexLookup rt (q.selection rt),
    e.fetch rt (indexKey q.table lookup.1 lookup.2) = .ok none
  agrees : ∀ x ∈ e.scanned rt q.table e.currentVersion, ∀ c ∈ q.condition,
    c.In (q.seen rt x) ∧ c.Agrees (q.seen rt x)
  found : ∀ x ∈ q.chosen rt e, ∃ data, e.fetch rt x.1 = .ok (some data) ∧
    rt.shown e.currentVersion data = some x.2
  keyed : ∀ x ∈ q.chosen rt e, keyColumn ∉ x.2.keys
  own : ∀ x ∈ q.chosen rt e, ∀ t, (e.schemas.lookup t).isSome → t ≠ q.table →
    (tablePrefix t).isPrefixOf x.1 = false
  named : ∀ a ∈ q.settings, (a.qualifier ++ [a.column]).head? = some a.column
  distinct : q.columns.Nodup
  printed : ∀ x ∈ q.chosen rt e, ∀ a ∈ q.settings, a.value.Printed rt (q.seen rt x)
  room : e.btree.memoryTier.HasRoom (q.chosen rt e).length
  queue : e.btree.wal.queue.length + (q.chosen rt e).length ≤ queueCapacity
  version : e.currentVersion + (q.chosen rt e).length < 2 ^ 64

end TableUpdate

/-- No index entry is stored. -/
def Engine.Unindexed (rt : Runtime) (e : Engine) : Prop :=
  ∀ x ∈ e.entries rt, ∀ target, x.2 ≠ .raw target

/-! ### Changing records one after another -/

namespace Engine

variable {rt : Runtime} {e u : Engine} {conn : Nat} {done : List Bytes} {key : Bytes}
  {change : Record → Except EngineError Record}

/-- A stored record can be changed. -/
def Changeable (rt : Runtime) (change : Record → Except EngineError Record) (e : Engine)
    (key : Bytes) (record' : Record) : Prop :=
  ∃ data record, e.fetch rt key = .ok (some data) ∧ rt.decodeRecord data = .ok record ∧
    change record = .ok record'

theorem Changeable.unique {record' record'' : Record} (h : e.Changeable rt change key record')
    (h' : e.Changeable rt change key record'') : record' = record'' := by
  obtain ⟨data, record, hfetch, hrecord, hok⟩ := h
  obtain ⟨data', r, hfetch', hr, hok'⟩ := h'
  obtain rfl := Option.some.inj (Except.ok.inj (hfetch.symm.trans hfetch'))
  obtain rfl := Except.ok.inj (hrecord.symm.trans hr)
  exact Except.ok.inj (hok.symm.trans hok')

/-- From `e` to `u`, the records under the keys were changed, each once, and nothing else was. -/
structure Changes (rt : Runtime) (change : Record → Except EngineError Record) (e : Engine)
    (done : List Bytes) (u : Engine) : Prop where
  pager : u.btree.pager = e.btree.pager
  kept : ∀ key ∉ done, u.btree.memoryTier.get key = e.btree.memoryTier.get key
  changed : ∀ key ∈ done, ∃ record' version, e.Changeable rt change key record' ∧
    version ≤ u.currentVersion ∧
      u.btree.memoryTier.get key = some (.record { record' with version := version })
  size : u.btree.memoryTier.cache.size ≤ e.btree.memoryTier.cache.size + done.length
  limit : u.btree.memoryTier.maxRamMb = e.btree.memoryTier.maxRamMb
  queue : u.btree.wal.queue.length = e.btree.wal.queue.length + done.length
  version : u.currentVersion = e.currentVersion + done.length
  schemas : u.schemas = e.schemas
  active : u.activeTransactions = e.activeTransactions

theorem Changes.refl (rt : Runtime) (change : Record → Except EngineError Record) (e : Engine) :
    Changes rt change e [] e :=
  ⟨rfl, fun _ _ ↦ rfl, fun _ h ↦ (nomatch h), le_rfl, rfl, rfl, rfl, rfl, rfl⟩

/-- A lookup of a key that was not changed. -/
theorem Changes.fetch (h : Changes rt change e done u) (hkey : key ∉ done) :
    u.fetch rt key = e.fetch rt key := by
  rw [Engine.fetch, Engine.fetch, BPlusTree.get, BPlusTree.get, h.kept key hkey,
    BPlusTree.getPages_congr rt.search h.pager]

/-- One more record is changed. -/
theorem Changes.snoc (h : Changes rt change e done u) {record' : Record}
    (hchange : e.Changeable rt change key record')
    (hroom : e.btree.memoryTier.HasRoom (done.length + 1))
    (hwrap : e.currentVersion + (done.length + 1) < 2 ^ 64) :
    Changes rt change e (done ++ [key]) ((u.bump.install rt ⟨conn, .change, key,
      .record { record' with version := u.bump.currentVersion }⟩).pushed key
      (.record { record' with version := u.bump.currentVersion })) := by
  have hunder : u.btree.memoryTier.overLimit = false :=
    MemoryTier.overLimit_of_hasRoom hroom h.limit h.size
  have hversion : u.bump.currentVersion = u.currentVersion + 1 := by
    have := h.version
    exact Nat.mod_eq_of_lt (by omega)
  have htier : ∀ k, (u.btree.memoryTier.insert (rt.nanos u.ticks) key
      (.record { record' with version := u.bump.currentVersion })).get k =
        if k = key then some (.record { record' with version := u.bump.currentVersion })
        else u.btree.memoryTier.get k :=
    fun k ↦ MemoryTier.get_insert hunder _ key k _
  refine ⟨h.pager, fun k hk ↦ ?_, fun k hk ↦ ?_, ?_, ?_, ?_, ?_, h.schemas, h.active⟩
  · rw [List.mem_append, not_or, List.mem_singleton] at hk
    exact (htier k).trans ((if_neg hk.2).trans (h.kept k hk.1))
  · show ∃ r version, _ ∧ version ≤ u.bump.currentVersion ∧
      (u.btree.memoryTier.insert _ key _).get k = _
    by_cases heq : k = key
    · exact ⟨record', _, heq ▸ hchange, le_rfl, (htier k).trans (if_pos heq)⟩
    · have hk' : k ∈ done := (List.mem_append.1 hk).resolve_right fun h ↦ heq (List.mem_singleton.1 h)
      obtain ⟨r, version, hr, hle, hget⟩ := h.changed k hk'
      exact ⟨r, version, hr, hle.trans (hversion ▸ Nat.le_succ _),
        (htier k).trans ((if_neg heq).trans hget)⟩
  · have hsize := MemoryTier.size_insert_le hunder (rt.nanos u.ticks) key
      (.record { record' with version := u.bump.currentVersion })
    rw [List.length_append, List.length_singleton]
    exact hsize.trans (Nat.succ_le_succ h.size)
  · show (u.btree.memoryTier.insert _ key _).maxRamMb = _
    rw [MemoryTier.maxRamMb_insert hunder, h.limit]
  · show (u.btree.wal.queue ++ [_]).length = _
    rw [List.length_append, h.queue, List.length_append, Nat.add_assoc]
    rfl
  · show u.bump.currentVersion = _
    rw [hversion, h.version, List.length_append, Nat.add_assoc]
    rfl

/-- The loop body, where there is room. -/
theorem wp_changeKey_changes (h : Changes rt change e done u) {version : Nat}
    {notFound : EngineError} {record' : Record} (hauto : e.activeTransactions.lookup conn = none)
    (hkey : key ∉ done) (hchange : e.Changeable rt change key record')
    (hroom : e.btree.memoryTier.HasRoom (done.length + 1))
    (hqueue : e.btree.wal.queue.length + (done.length + 1) ≤ queueCapacity)
    (hwrap : e.currentVersion + (done.length + 1) < 2 ^ 64) :
    Effect.wp (changeKey rt conn version notFound change key)
      (fun _ ↦ Changes rt change e (done ++ [key])) (fun _ _ ↦ False) u := by
  obtain ⟨data, record, hfetch, hrecord, hok⟩ := hchange
  refine Effect.wp_bind ?_
  unfold Effect.wp fetchKey
  rw [h.fetch hkey, hfetch]
  refine Effect.wp_bind (Effect.wp_ofExcept (fun d hd ↦ ?_) fun _ herr ↦ nomatch herr)
  obtain rfl := Except.ok.inj hd
  refine Effect.wp_bind (Effect.wp_ofExcept (fun r hr ↦ ?_) fun _ herr ↦ nomatch hrecord ▸ herr)
  obtain rfl := Except.ok.inj (hrecord.symm.trans hr)
  refine Effect.wp_bind (Effect.wp_ofExcept (fun r hr ↦ ?_) fun _ herr ↦ nomatch hok ▸ herr)
  obtain rfl := Except.ok.inj (hok.symm.trans hr)
  refine Effect.wp_bind (Effect.wp_get ?_)
  rw [h.active, hauto]
  refine Effect.wp_bind (Effect.wp_modify (Effect.wp_bind (Effect.wp_get (Effect.wp_bind
    (Effect.wp_modify (wp_enqueue (fun _ ↦ ?_) fun hfull ↦ ?_))))))
  · exact h.snoc ⟨data, record, hfetch, hrecord, hok⟩ hroom hwrap
  · have hlength : ¬ u.btree.wal.queue.length < queueCapacity := hfull
    rw [h.queue] at hlength
    omega

/-- The loop. -/
theorem wp_changeKeys {keys : List Bytes} {version : Nat} {notFound : EngineError}
    (hauto : e.activeTransactions.lookup conn = none) (hnodup : keys.Nodup)
    (hchange : ∀ key ∈ keys, ∃ record', e.Changeable rt change key record')
    (hroom : e.btree.memoryTier.HasRoom keys.length)
    (hqueue : e.btree.wal.queue.length + keys.length ≤ queueCapacity)
    (hwrap : e.currentVersion + keys.length < 2 ^ 64) :
    Effect.wp (Effect.forEach keys (changeKey rt conn version notFound change))
      (fun _ ↦ Changes rt change e keys) (fun _ _ ↦ False) e := by
  refine Effect.wp_forEach (Changes rt change e) (.refl rt change e)
    (fun done key rest hsplit u h ↦ ?_) fun _ h ↦ h
  have hlength : done.length + 1 ≤ keys.length := by
    rw [hsplit, List.length_append, List.length_cons]
    omega
  have hkey : key ∉ done := by
    rw [hsplit, List.nodup_append] at hnodup
    exact fun hmem ↦ hnodup.2.2 key hmem key List.mem_cons_self rfl
  obtain ⟨record', hrecord'⟩ := hchange key (hsplit ▸ List.mem_append_right _ List.mem_cons_self)
  exact wp_changeKey_changes h hauto hkey hrecord' (hroom.mono hlength) (by omega) (by omega)

/-- What is stored is shown at later versions as it is now. -/
theorem Coherent.shownUnder_later {N : Bytes → Prop} (hco : e.Coherent rt N) (hraw : e.Unindexed rt)
    {t : Bytes} {data : Data} (hmem : (key, data) ∈ e.entries rt) {version : Nat}
    (hversion : e.currentVersion ≤ version) :
    rt.shownUnder t version key data = rt.shownUnder t e.currentVersion key data := by
  cases data with
  | raw target => exact absurd rfl (hraw _ hmem target)
  | record r =>
    have hle : r.version ≤ e.currentVersion :=
      (hco.legit_of_known (hco.known_of_entries hmem)).1 r rfl
    simp only [Runtime.shownUnder, Runtime.shown, Runtime.decodeRecord, hle, hle.trans hversion]

/-- The rows whose records were not changed are what they were. -/
theorem Changes.view_of_not_mem {N : Bytes → Prop} (h : Changes rt change e done u)
    (hco : e.Coherent rt N) (hraw : e.Unindexed rt) (t : Bytes) (hkey : key ∉ done) :
    u.view rt t u.currentVersion key = e.view rt t e.currentVersion key := by
  have hversion : e.currentVersion ≤ u.currentVersion := h.version ▸ Nat.le_add_right _ _
  rw [view_eq, view_eq, h.kept key hkey, BPlusTree.leafEntries_congr h.pager]
  congr 1
  · refine Option.bind_congr fun data hdata ↦ ?_
    exact hco.shownUnder_later hraw (List.mem_append_left _ (mem_iterate_iff.2 hdata)) hversion
  · refine firstHit_congr fun data hdata ↦ ?_
    exact hco.shownUnder_later hraw (List.mem_append_right _ hdata) hversion

/-- A row whose record was changed is what it was changed to. -/
theorem Changes.view_of_mem (h : Changes rt change e done u) {t : Bytes}
    (hbegins : (tablePrefix t).isPrefixOf key = true) (hkey : key ∈ done) :
    ∃ record', e.Changeable rt change key record' ∧ ∀ columns, record'.isDeleted = false →
      record'.value = .row columns → u.view rt t u.currentVersion key = some columns := by
  obtain ⟨record', version, hchange, hle, hget⟩ := h.changed key hkey
  refine ⟨record', hchange, fun columns hdeleted hvalue ↦ ?_⟩
  have hshown : rt.shownUnder t u.currentVersion key
      (.record { record' with version := version }) = some columns :=
    (rt.shownUnder_row (r := { record' with version := version }) hbegins hvalue).trans
      (if_pos ⟨hle, hdeleted⟩)
  rw [view_eq, hget, Option.bind_some, hshown]
  rfl

/-- A key without a table's prefix has no row of the table. -/
theorem view_eq_none {t : Bytes} (hbegins : (tablePrefix t).isPrefixOf key = false) (version : Nat) :
    e.view rt t version key = none :=
  firstHit_eq_none_iff.2 fun _ _ ↦ if_neg (Bool.eq_false_iff.1 hbegins)

end Engine

namespace TableUpdate

variable {rt : Runtime} {q : TableUpdate} {e u : Engine} {conn : Nat}

/-! ### What is stored -/

/-- The texts that the engine stores, with their columns. -/
def texts (rt : Runtime) (q : TableUpdate) : List (Bytes × Bytes) :=
  q.settings.map fun a ↦ (a.column, rt.unquoted (a.value.toExpr rt))

/-- A row with the texts in their columns. -/
def stored (rt : Runtime) (q : TableUpdate) (columns : Row) : Row :=
  (q.texts rt).foldl (fun row c ↦ row.insert c.1 c.2) columns

theorem map_fst_texts : (q.texts rt).map Prod.fst = q.columns := by
  rw [texts, List.map_map, columns]
  rfl

/-- An assignment whose name begins with the column's goes to the column. -/
theorem foldlM_assignColumn : ∀ (settings : List Setting) (columns : Row),
    (∀ a ∈ settings, (a.qualifier ++ [a.column]).head? = some a.column) →
    (settings.map fun a ↦ (⟨a.qualifier ++ [a.column], a.value.toExpr rt⟩ : Assignment)).foldlM
        (assignColumn rt) columns =
      .ok ((settings.map fun a ↦ (a.column, rt.unquoted (a.value.toExpr rt))).foldl
        (fun row c ↦ row.insert c.1 c.2) columns)
  | [], columns, _ => rfl
  | a :: settings, columns, h => by
    have hfirst : assignColumn rt columns ⟨a.qualifier ++ [a.column], a.value.toExpr rt⟩ =
        .ok (columns.insert a.column (rt.unquoted (a.value.toExpr rt))) := by
      have hhead := h a List.mem_cons_self
      rcases hname : a.qualifier ++ [a.column] with - | ⟨first, rest⟩
      · rw [hname] at hhead; cases hhead
      · rw [hname] at hhead
        rw [← Option.some.inj hhead]
        rfl
    rw [List.map_cons, List.foldlM_cons, hfirst, Except.ok_bind,
      foldlM_assignColumn settings _ fun b hb ↦ h b (List.mem_cons_of_mem a hb)]
    rfl

theorem assign_eq (hnamed : ∀ a ∈ q.settings, (a.qualifier ++ [a.column]).head? = some a.column)
    {record : Record} {columns : Row} (hrow : rt.decodeRow record.value = .ok columns) :
    assign rt (q.assignments rt) record = .ok { record with value := .row (q.stored rt columns) } := by
  rw [assign, hrow, Except.ok_bind, assignments, foldlM_assignColumn q.settings columns hnamed]
  rfl

/-- What is stored is what the row is to become. -/
theorem assigned_stored (hdisplay : rt.DisplaysLiterals) {x : Bytes × Row}
    (hdistinct : q.columns.Nodup)
    (hprinted : ∀ a ∈ q.settings, a.value.Printed rt (q.seen rt x)) :
    q.Assigned rt x (q.stored rt x.2) := by
  refine ⟨fun a ha value hvalue ↦
    ⟨_, ?_, (a.value.denotes_iff hdisplay).2 (hprinted a ha) value hvalue⟩, fun c hc ↦ ?_⟩
  · have hmem : (a.column, rt.unquoted (a.value.toExpr rt)) ∈ q.texts rt :=
      List.mem_map.2 ⟨a, ha, rfl⟩
    refine HashMap.lookup_foldl_insert_of_mem hmem (fun v hv ↦ ?_) _
    obtain ⟨b, hb, heq⟩ := List.mem_map.1 hv
    obtain ⟨hcolumn, htext⟩ := Prod.mk.inj heq
    rw [← htext, List.inj_on_of_nodup_map hdistinct hb ha hcolumn]
  · exact HashMap.lookup_foldl_insert_of_not_mem (map_fst_texts ▸ hc) _

/-! ### The rows that are chosen -/

/-- The condition selects the rows that satisfy it. -/
theorem all_evaluateWhere (hdisplay : rt.DisplaysLiterals) {x : Bytes × Row}
    (h : ∀ c ∈ q.condition, c.In (q.seen rt x) ∧ c.Agrees (q.seen rt x)) :
    (q.selection rt).all (evaluateWhere rt (q.seen rt x)) = q.holds rt x := by
  rw [selection, holds]
  cases hcondition : q.condition with
  | none => rfl
  | some c =>
    obtain ⟨hin, hagrees⟩ := h c hcondition
    exact (evaluateWhere_eq_truth_iff hdisplay hin).2 hagrees

/-- The keys to be changed are those of the rows that satisfy the condition. -/
theorem Fits.selectedKeys_eq (h : q.Fits rt e) (hdisplay : rt.DisplaysLiterals) :
    selectedKeys rt (q.selection rt) (rowsOf rt q.table (e.scanned rt q.table e.currentVersion)) =
      (q.chosen rt e).map Prod.fst := by
  rw [selectedKeys, rowsOf, List.filterMap_map, chosen, ← filterMap_ite_eq_map_filter]
  refine List.filterMap_congr fun x hx ↦ ?_
  show (if (q.selection rt).all (evaluateWhere rt (q.seen rt x)) = true then
    (q.seen rt x).lookup keyColumn else none) = _
  rw [all_evaluateWhere hdisplay (h.agrees x hx)]
  split
  · rename_i hholds
    exact lookup_keyColumn_scannedRow (h.keyed x (List.mem_filter.2 ⟨hx, hholds⟩))
  · rfl

theorem nodup_chosen : ((q.chosen rt e).map Prod.fst).Nodup :=
  (nodup_firstHits (e.entries rt) [] List.nodup_nil).sublist (List.filter_sublist.map Prod.fst)

/-- The chosen rows' records can be changed, and then hold what is stored. -/
theorem Fits.changeable (h : q.Fits rt e) {x : Bytes × Row} (hx : x ∈ q.chosen rt e) :
    ∃ record', e.Changeable rt (assign rt (q.assignments rt)) x.1 record' ∧
      record'.isDeleted = false ∧ record'.value = .row (q.stored rt x.2) := by
  obtain ⟨data, hfetch, hshown⟩ := h.found x hx
  obtain ⟨record, hrecord, -, hdeleted, hrow⟩ := rt.shown_eq_some_iff.1 hshown
  exact ⟨_, ⟨data, record, hfetch, hrecord, assign_eq h.named hrow⟩, hdeleted, rfl⟩

/-! ### The statement -/

/-- The records of the chosen rows are changed, and their number is reported. -/
theorem Fits.wp_handleUpdate {N : Bytes → Prop} (h : q.Fits rt e) (hco : e.Coherent rt N)
    (hdisplay : rt.DisplaysLiterals) (hauto : e.activeTransactions.lookup conn = none) :
    Effect.wp (handleUpdate rt q.table (q.assignments rt) (q.selection rt) conn)
      (fun reply u ↦ Changes rt (assign rt (q.assignments rt)) e ((q.chosen rt e).map Prod.fst) u ∧
        reply.output = countText "Updated" (q.chosen rt e).length) (fun _ _ ↦ False) e := by
  have hversion : e.readVersion conn = e.currentVersion := by
    rw [readVersion, hauto]
  have hscan : e.scanTableWithFilter rt q.table e.currentVersion (q.selection rt) =
      .ok (rowsOf rt q.table (e.scanned rt q.table e.currentVersion)) := by
    obtain ⟨rows, hrows⟩ := (scanTable_isOk_iff hco.sound).2 h.scannable
    rw [scanTableWithFilter_of_unindexed h.direct, hrows, scanTable_eq hco.sound hrows]
  have hscan' : e.scanTableWithFilter rt q.table (e.readVersion conn) (q.selection rt) =
      .ok (rowsOf rt q.table (e.scanned rt q.table e.currentVersion)) := hversion ▸ hscan
  refine Effect.wp_bind (Effect.wp_get (Effect.wp_bind (Effect.wp_ofExcept (fun rows hrows ↦ ?_)
    fun _ herr ↦ ?_)))
  case refine_2 => cases hscan'.symm.trans herr
  obtain rfl := Except.ok.inj (hscan'.symm.trans hrows)
  rw [h.selectedKeys_eq hdisplay]
  refine Effect.wp_bind (Effect.wp_mono (wp_changeKeys hauto nodup_chosen (fun key hkey ↦ ?_) ?_ ?_ ?_)
    (fun _ u hu ↦ ?_) fun _ _ hfalse ↦ hfalse)
  · obtain ⟨x, hx, rfl⟩ := List.mem_map.1 hkey
    obtain ⟨record', hrecord', -⟩ := h.changeable hx
    exact ⟨record', hrecord'⟩
  · rw [List.length_map]; exact h.room
  · rw [List.length_map]; exact h.queue
  · rw [List.length_map]; exact h.version
  · refine Effect.wp_bind (Effect.wp_get (Effect.wp_pure ⟨hu, ?_⟩))
    rw [List.length_map]

/-- The rows are then what they are to be. -/
theorem Fits.performed {N : Bytes → Prop} (h : q.Fits rt e) (hco : e.Coherent rt N)
    (hraw : e.Unindexed rt) (hdisplay : rt.DisplaysLiterals) {reply : Reply}
    (hu : Changes rt (assign rt (q.assignments rt)) e ((q.chosen rt e).map Prod.fst) u)
    (hreply : reply.output = countText "Updated" (q.chosen rt e).length) :
    q.Performed rt e u reply := by
  refine ⟨fun x hx ↦ ⟨q.stored rt x.2, ?_, assigned_stored hdisplay h.distinct (h.printed x hx)⟩,
    fun t ht key hkey ↦ ?_, hreply⟩
  · have hbegins : (tablePrefix q.table).isPrefixOf x.1 = true := by
      have hview := mem_scanned.1 (List.mem_filter.1 hx).1
      by_contra hbegins
      rw [view_eq_none (Bool.eq_false_iff.2 hbegins)] at hview
      cases hview
    obtain ⟨record', hrecord', hview⟩ := hu.view_of_mem hbegins (List.mem_map_of_mem hx)
    obtain ⟨record, hrecord, hdeleted, hvalue⟩ := h.changeable hx
    rw [hrecord'.unique hrecord] at hview
    exact hview _ hdeleted hvalue
  · by_cases hmem : key ∈ (q.chosen rt e).map Prod.fst
    · obtain ⟨x, hx, rfl⟩ := List.mem_map.1 hmem
      have hne : t ≠ q.table := fun heq ↦ hkey heq x hx rfl
      rw [view_eq_none (h.own x hx t ht hne), view_eq_none (h.own x hx t ht hne)]
    · exact hu.view_of_not_mem hco hraw t hmem

end TableUpdate

/-- A table with a row. -/
def insertAnn : List Action :=
  [.call 1 (createTableOf "u" ["id", "name"]), .call 1 (insertOf "u" ["1", "ann"]), .flushRound,
    .flushRound, .flushRound]

/-- `UPDATE u SET id = '2' WHERE name = 'ann'` -/
def renumber : TableUpdate where
  table := bytes "u"
  settings := [⟨[], bytes "id", .constant (.string (bytes "2"))⟩]
  condition := some isAnn

/-- `UPDATE u SET id = name` -/
def copyName : TableUpdate where
  table := bytes "u"
  settings := [⟨[], bytes "id", .column (bytes "name")⟩]
  condition := none

/-- The row is in the table, and no index entry is stored. -/
theorem exists_ann : let _ := plainBincode []
    ∃ s, System.start.run .plain insertAnn = some s ∧ s.engine.Bounded ∧
      s.engine.activeTransactions.lookup 1 = none ∧ s.engine.Unindexed .plain ∧
      s.engine.schemas.lookup (bytes "u") = some ⟨bytes "u", [bytes "id", bytes "name"], none, 1⟩ := by
  let _ := plainBincode []
  obtain ⟨s, hs⟩ : ∃ s, System.start.run .plain insertAnn = some s :=
    Option.isSome_iff_exists.1 (by decide +kernel)
  have hall : (System.start.run .plain insertAnn).all (fun s ↦
      s.engine.btree.pager.handedOut.length < 2 ^ 32 ∧ s.engine.history.bumps < 2 ^ 64 ∧
        (s.engine.activeTransactions.lookup 1).isNone = true ∧
        (∀ x ∈ s.engine.entries .plain, x.2.record?.isSome = true) ∧
        s.engine.schemas.lookup (bytes "u") =
          some ⟨bytes "u", [bytes "id", bytes "name"], none, 1⟩) = true := by
    decide +kernel
  rw [hs, Option.all_some, decide_eq_true_iff] at hall
  obtain ⟨hpages, hbumps, hauto, hrecord, hschema⟩ := hall
  refine ⟨s, hs, ⟨hpages, hbumps⟩, Option.isNone_iff_eq_none.1 hauto, fun x hx target hraw ↦ ?_, hschema⟩
  have h := hrecord x hx
  rw [hraw] at h
  cases h

theorem renumber_fits : let _ := plainBincode []
    ∀ s, System.start.run .plain insertAnn = some s → s.engine.Bounded →
      renumber.Fits .plain s.engine := by
  intro _ s hs hbounded
  have hread : (System.start.run .plain insertAnn).all (fun s ↦
      (s.engine.scanTable .plain (bytes "u") s.engine.currentVersion).isOk = true ∧
        (s.engine.fetch .plain (indexKey (bytes "u") (bytes "name") (bytes "ann"))).toOption = some none ∧
        (∀ x ∈ s.engine.scanned .plain (bytes "u") s.engine.currentVersion,
          isAnn.In (renumber.seen .plain x) ∧ isAnn.Agrees (renumber.seen .plain x)) ∧
        (∀ x ∈ renumber.chosen .plain s.engine,
          (s.engine.fetch .plain x.1).toOption.join.bind (Runtime.plain.shown s.engine.currentVersion) =
              some x.2 ∧ keyColumn ∉ x.2.keys) ∧
        s.engine.schemas.keys = [bytes "u"]) = true := by
    decide +kernel
  have hroom : (System.start.run .plain insertAnn).all (fun s ↦
      s.engine.btree.memoryTier.HasRoom (renumber.chosen .plain s.engine).length ∧
        s.engine.btree.wal.queue.length + (renumber.chosen .plain s.engine).length ≤ queueCapacity ∧
        s.engine.currentVersion + (renumber.chosen .plain s.engine).length < 2 ^ 64) = true := by
    decide +kernel
  rw [hs, Option.all_some, decide_eq_true_iff] at hread hroom
  obtain ⟨hscan, hdirect, hagrees, hfound, htables⟩ := hread
  exact {
    scannable := by
      refine (scanTable_isOk_iff (System.coherent_of_run hs hbounded).sound).1 ?_
      rcases hrows : s.engine.scanTable .plain (bytes "u") s.engine.currentVersion with err | rows
      · rw [hrows] at hscan; cases hscan
      · exact ⟨rows, hrows⟩
    direct := by
      rintro lookup ⟨⟩
      rcases hfetch : s.engine.fetch .plain (indexKey (bytes "u") (bytes "name") (bytes "ann")) with
        err | data
      · rw [hfetch] at hdirect; cases hdirect
      · rw [hfetch] at hdirect
        exact hfetch.trans (congrArg Except.ok (Option.some.inj hdirect))
    agrees := by
      rintro x hx c ⟨⟩
      exact hagrees x hx
    found := fun x hx ↦ by
      obtain ⟨data, hdata, hshown⟩ := Option.bind_eq_some_iff.1 (hfound x hx).1
      refine ⟨data, ?_, hshown⟩
      rcases hfetch : s.engine.fetch .plain x.1 with err | data?
      · rw [hfetch] at hdata; cases hdata
      · rw [hfetch] at hdata
        exact congrArg Except.ok hdata
    keyed := fun x hx ↦ (hfound x hx).2
    own := fun x _ t ht hne ↦ by
      have hmem : t ∈ s.engine.schemas.keys := AList.lookup_isSome.1 ht
      rw [htables] at hmem
      exact absurd (List.mem_singleton.1 hmem) hne
    named := List.forall_mem_singleton.2 rfl
    distinct := List.nodup_singleton _
    printed := fun x _ ↦ List.forall_mem_singleton.2 (by decide : (39 : UInt8) ∉ bytes "2")
    room := hroom.1
    queue := hroom.2.1
    version := hroom.2.2 }

end KsSql
