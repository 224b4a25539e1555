import KsSql.Parser.SnapshotReads

/-!
# A transaction and its statements

A transaction that nobody disturbs leaves the tables as its statements do when they are executed one after
another outside transactions (`transaction_eq_statements`), if each of them changes the rows that it would
have changed when the transaction began (`Independent`). This is a condition, since a transaction does not
see what it writes: a second `UPDATE` finds the rows as they were before the first one.
-/

namespace KsSql

open Engine

namespace Database

variable (rt : Runtime)

/-- What a command makes of the rows, if it is an `UPDATE` or a `DELETE`. -/
def changed (db : Database) : Command → RowChanges
  | .statement (.update (.table t) assignments selection) =>
    db.changes rt t selection fun columns ↦ some (assigned rt assignments columns)
  | .statement (.delete (.table t :: _) selection) => db.changes rt t selection fun _ ↦ none
  | _ => fun _ _ ↦ none

/-- Each command, executed after the ones before it, makes of the rows what it would make of them on the
tables `db`. -/
def Independent (db : Database) : Database → List Command → Prop
  | _, [] => True
  | now, command :: rest =>
    now.changed rt command = db.changed rt command ∧ Independent db (now.next rt command) rest

variable {rt} {db db' : Database}

theorem changes_congr {t : Bytes} (h : db.rows t = db'.rows t) (selection : Option Expr)
    (f : Row → Option Row) : db.changes rt t selection f = db'.changes rt t selection f := by
  funext t' key
  rw [changes, changes, h]

theorem insertRow_eq_place (t : Bytes) (schema : TableSchema) (x : List Expr × Nat) :
    (db.insertRow rt t schema x).rows = (db.place (TableSessions.oneRow t (rowKey t (rt.random db.inserted))
      (insertedColumns schema (schema.nextId + x.2) x.1))).rows := by
  funext t' key
  show Function.update db.rows t (Function.update (db.rows t) _ _) t' key = (ite _ _ _ : Option _).getD _
  split
  · rename_i heq
    obtain ⟨rfl, rfl⟩ := heq
    rw [Function.update_self, Function.update_self]
    rfl
  · rename_i hne
    rw [update_update_of_not hne]
    rfl

end Database

namespace TableSessions

variable {rt : Runtime} {conn : Nat} {db now : Database} {s : TableSessions} {command : Command}

/-! ### In the transaction -/

/-- The transaction of the connection began on the tables `db`, nobody has changed them since, and with
what it writes they are the tables `now`. -/
structure Alone (conn : Nat) (db now : Database) (s : TableSessions) : Prop where
  tables : s.db.tables = now.tables
  inserted : s.db.inserted = now.inserted
  rows : s.db.rows = db.rows
  opened : ∃ tx, s.opened conn = some tx ∧ (∀ t key, ¬ tx.overtaken t key) ∧
    now.rows = (db.place tx.writes).rows

theorem alone_begin (conn : Nat) (s : TableSessions) :
    Alone conn s.db s.db (s.setOpened conn (some .fresh)) where
  tables := rfl
  inserted := rfl
  rows := rfl
  opened := ⟨.fresh, Function.update_self conn _ s.opened, fun _ _ ↦ id, rfl⟩

theorem Alone.rows_view (h : Alone conn db now s) : (s.view conn).rows = db.rows := by
  obtain ⟨tx, htx, hover, -⟩ := h.opened
  rw [view, htx]
  dsimp only [Snapshot.view]
  funext t key
  rw [if_neg (hover t key), h.rows]

/-- The transaction writes more. -/
theorem Alone.note (h : Alone conn db now s) {tx : Snapshot} (htx : s.opened conn = some tx)
    (new : RowChanges) : Alone conn db (now.place new) (s.setOpened conn (some (tx.note new))) := by
  obtain ⟨tx', htx', hover, hrows⟩ := h.opened
  obtain rfl := Option.some.inj (htx.symm.trans htx')
  refine ⟨h.tables, h.inserted, h.rows, tx.note new, Function.update_self conn _ s.opened, hover, ?_⟩
  funext t key
  show (new t key).getD (now.rows t key) = ((new t key).or (tx.writes t key)).getD (db.rows t key)
  rw [hrows]
  rcases new t key with - | row <;> rfl

theorem Alone.change (h : Alone conn db now s) {t : Bytes} {selection : Option Expr}
    {f : Row → Option Row} (hsame : now.changes rt t selection f = db.changes rt t selection f) :
    Alone conn db (now.change rt t selection f) (s.change rt conn t selection f) := by
  obtain ⟨tx, htx, -⟩ := h.opened
  have hview : (s.view conn).changes rt t selection f = now.changes rt t selection f :=
    (Database.changes_congr (congrFun h.rows_view t) selection f).trans hsame.symm
  rw [TableSessions.change, htx, hview, ← now.place_changes]
  exact h.note htx _

theorem Alone.insertRow (h : Alone conn db now s) (t : Bytes) (schema : TableSchema)
    (x : List Expr × Nat) :
    Alone conn db (now.insertRow rt t schema x) (s.insertRow rt conn t schema x) := by
  obtain ⟨tx, htx, -⟩ := h.opened
  rw [TableSessions.insertRow, htx, h.inserted]
  have hnote := h.note htx (oneRow t (rowKey t (rt.random now.inserted))
    (insertedColumns schema (schema.nextId + x.2) x.1))
  obtain ⟨tx', htx', hover, hrows⟩ := hnote.opened
  refine ⟨h.tables, congrArg (· + 1) rfl, h.rows, tx', htx', hover, ?_⟩
  exact (Database.insertRow_eq_place t schema x).trans hrows

theorem Alone.insertRows (rt : Runtime) (t : Bytes) (schema : TableSchema) :
    ∀ (rows : List (List Expr × Nat)) {now : Database} {s : TableSessions}, Alone conn db now s →
      Alone conn db (rows.foldl (Database.insertRow rt t schema) now)
        (rows.foldl (TableSessions.insertRow rt conn t schema) s)
  | [], _, _, h => h
  | x :: rows, _, _, h => Alone.insertRows rt t schema rows (h.insertRow t schema x)

/-- Schemas are no part of the transaction. -/
theorem Alone.of_tables (h : Alone conn db now s) (tables : Bytes → Option TableSchema) :
    Alone conn db { now with tables := tables } { s with db := { s.db with tables := tables } } :=
  ⟨rfl, h.inserted, h.rows, h.opened⟩

theorem Alone.insert (h : Alone conn db now s) (t : Bytes) (rows : List (List Expr)) :
    Alone conn db (now.insert rt t rows) (s.insert rt conn t rows) := by
  rw [TableSessions.insert, Database.insert, h.tables]
  rcases now.tables t with - | schema
  · exact h
  · have hfilled := h.insertRows rt t schema rows.zipIdx
    dsimp only
    rw [hfilled.tables]
    exact hfilled.of_tables _

/-- **A command** in the transaction does what it would do outside. -/
theorem Alone.next (h : Alone conn db now s) (hinside : ¬ command.Delimits)
    (hsame : now.changed rt command = db.changed rt command) :
    Alone conn db (now.next rt command) (s.next rt conn command) := by
  unfold TableSessions.next
  split
  · exact absurd trivial hinside
  · exact absurd trivial hinside
  · exact absurd trivial hinside
  · exact h.insert _ _
  · exact h.change hsame
  · exact h.change hsame
  · rename_i hinsert hupdate hdelete
    unfold Database.next
    split
    · rw [h.tables]
      exact h.of_tables _
    · exact absurd rfl (hinsert _ _ _)
    · exact absurd rfl (hupdate _ _ _)
    · exact absurd rfl (hdelete _ _ _)
    · exact h

theorem Alone.foldl : ∀ {commands : List Command} {now : Database} {s : TableSessions},
    Alone conn db now s → db.Independent rt now commands → (∀ command ∈ commands, ¬ command.Delimits) →
      Alone conn db (commands.foldl (Database.next rt) now)
        (commands.foldl (fun s command ↦ s.next rt conn command) s)
  | [], _, _, h, _, _ => h
  | command :: commands, now, s, h, hind, hinside => by
    rw [List.foldl_cons, List.foldl_cons]
    exact (h.next (hinside command List.mem_cons_self) hind.1).foldl hind.2
      fun c hc ↦ hinside c (List.mem_cons_of_mem command hc)

theorem Alone.commit (h : Alone conn db now s) : (s.commit conn).db = now := by
  obtain ⟨tx, htx, hover, hrows⟩ := h.opened
  have hconflicts : ¬ tx.Conflicts := by
    rintro ⟨t, key, -, hovertaken⟩
    exact hover t key hovertaken
  rw [TableSessions.commit, htx]
  dsimp only
  rw [if_neg hconflicts]
  refine Database.ext h.tables ?_ h.inserted
  rw [hrows]
  exact congrArg (fun rows t key ↦ (tx.writes t key).getD (rows t key)) h.rows

/-- **A transaction** leaves the tables as its commands do outside. -/
theorem db_transaction (s : TableSessions) {commands : List Command}
    (hinside : ∀ command ∈ commands, ¬ command.Delimits) (hind : s.db.Independent rt s.db commands) :
    ((commands.foldl (fun s command ↦ s.next rt conn command) (s.next rt conn .begin)).next rt conn
      .commit).db = commands.foldl (Database.next rt) s.db :=
  ((alone_begin conn s).foldl hind hinside).commit

/-! ### Outside transactions -/

theorem insertRow_of_closed (rt : Runtime) (hclosed : s.opened conn = none) (t : Bytes) (schema : TableSchema)
    (x : List Expr × Nat) : (s.insertRow rt conn t schema x).db = s.db.insertRow rt t schema x ∧
      (s.insertRow rt conn t schema x).opened conn = none := by
  rw [TableSessions.insertRow, hclosed]
  exact ⟨rfl, congrArg (Option.map _) hclosed⟩

theorem insertRows_of_closed (rt : Runtime) (t : Bytes) (schema : TableSchema) :
    ∀ (rows : List (List Expr × Nat)) {s : TableSessions}, s.opened conn = none →
      (rows.foldl (TableSessions.insertRow rt conn t schema) s).db =
          rows.foldl (Database.insertRow rt t schema) s.db ∧
        (rows.foldl (TableSessions.insertRow rt conn t schema) s).opened conn = none
  | [], _, hclosed => ⟨rfl, hclosed⟩
  | x :: rows, s, hclosed => by
    obtain ⟨hdb, hopened⟩ := insertRow_of_closed rt hclosed t schema x
    rw [List.foldl_cons, List.foldl_cons, ← hdb]
    exact insertRows_of_closed rt t schema rows hopened

/-- A command outside transactions changes the database, whoever else has a transaction open. -/
theorem next_of_closed (rt : Runtime) (hclosed : s.opened conn = none) (hinside : ¬ command.Delimits) :
    (s.next rt conn command).db = s.db.next rt command ∧
      (s.next rt conn command).opened conn = none := by
  unfold TableSessions.next
  split
  · exact absurd trivial hinside
  · exact absurd trivial hinside
  · exact absurd trivial hinside
  · rename_i t rows _
    show (s.insert rt conn t rows).db = s.db.insert rt t rows ∧ (s.insert rt conn t rows).opened conn = none
    rw [TableSessions.insert, Database.insert]
    rcases s.db.tables t with - | schema
    · exact ⟨rfl, hclosed⟩
    · obtain ⟨hdb, hopened⟩ := insertRows_of_closed rt t schema rows.zipIdx hclosed
      dsimp only
      rw [hdb]
      exact ⟨rfl, hopened⟩
  · rw [TableSessions.change, hclosed, view, hclosed]
    exact ⟨s.db.place_changes rt _ _ _, congrArg (Option.map _) hclosed⟩
  · rw [TableSessions.change, hclosed, view, hclosed]
    exact ⟨s.db.place_changes rt _ _ _, congrArg (Option.map _) hclosed⟩
  · exact ⟨rfl, hclosed⟩

theorem db_foldl_of_closed : ∀ {commands : List Command} {s : TableSessions}, s.opened conn = none →
    (∀ command ∈ commands, ¬ command.Delimits) →
      (commands.foldl (fun s command ↦ s.next rt conn command) s).db =
        commands.foldl (Database.next rt) s.db
  | [], _, _, _ => rfl
  | command :: commands, s, hclosed, hinside => by
    obtain ⟨hdb, hopened⟩ := next_of_closed rt hclosed (hinside command List.mem_cons_self)
    rw [List.foldl_cons, List.foldl_cons, ← hdb]
    exact db_foldl_of_closed hopened fun c hc ↦ hinside c (List.mem_cons_of_mem command hc)

end TableSessions

/-- **A transaction equals its statements.** From a state that a run reaches, a run of one connection's
statements in a transaction and a run of them outside transactions, each with any steps of the threads in
between, end with the same tables, if each statement changes the rows that it would have changed at first. -/
theorem transaction_eq_statements [Bincode (WalEntry Bytes Data)] {rt : Runtime}
    {before inside outside : List Action} {conn : Nat} (commands : List Command) {s s₁ s₂ : System}
    (hinside : inside.filterMap Action.call? =
      (conn, .begin) :: (commands.map (conn, ·) ++ [(conn, .commit)]))
    (houtside : outside.filterMap Action.call? = commands.map (conn, ·))
    (hdelimits : ∀ command ∈ commands, ¬ command.Delimits)
    (hactions₁ : ∀ a ∈ before ++ inside, a.OnTables) (hactions₂ : ∀ a ∈ before ++ outside, a.OnTables)
    (hsteady₁ : System.start.Along rt System.Steady (before ++ inside))
    (hsteady₂ : System.start.Along rt System.Steady (before ++ outside))
    (hbefore : System.start.run rt before = some s)
    (hclosed : s.engine.activeTransactions.lookup conn = none)
    (hind : s.engine.database.Independent rt s.engine.database commands)
    (hrun₁ : s.run rt inside = some s₁) (hrun₂ : s.run rt outside = some s₂)
    (hcalm₁ : s₁.engine.Calm) (hcalm₂ : s₂.engine.Calm) : s₁.engine.database = s₂.engine.database := by
  obtain ⟨-, -, h₁⟩ := System.run_on_tables_after hactions₁ hsteady₁ hbefore hrun₁ hcalm₁
  obtain ⟨-, -, h₂⟩ := System.run_on_tables_after hactions₂ hsteady₂ hbefore hrun₂ hcalm₂
  rw [hinside, List.foldl_cons, List.foldl_append, List.foldl_map] at h₁
  rw [houtside, List.foldl_map] at h₂
  have hopened : s.engine.sessions.opened conn = none := by
    rw [opened_sessions, hclosed]
    rfl
  calc s₁.engine.database = s₁.engine.sessions.db := rfl
    _ = commands.foldl (Database.next rt) s.engine.database := by
      rw [h₁]
      exact TableSessions.db_transaction _ hdelimits hind
    _ = s₂.engine.sessions.db := by
      rw [h₂]
      exact (TableSessions.db_foldl_of_closed hopened hdelimits).symm
    _ = s₂.engine.database := rfl

/-- A row is changed, and another one inserted. -/
def updateAndInsert : List Command :=
  [updateOf "u" "id" "3" (some (whereIs "id" "2")), insertOf "u" ["7"]]

/-- In a transaction. -/
def updateAndInsertInside : List Action :=
  [.call 1 .begin, .call 1 (updateOf "u" "id" "3" (some (whereIs "id" "2"))), .call 1 (insertOf "u" ["7"]),
    .call 1 .commit, .flushRound, .flushRound, .flushRound]

/-- Outside transactions. -/
def updateAndInsertOutside : List Action :=
  [.call 1 (updateOf "u" "id" "3" (some (whereIs "id" "2"))), .flushRound, .flushRound,
    .call 1 (insertOf "u" ["7"]), .flushRound, .flushRound]

/-- The transaction leaves the same rows. -/
theorem transaction_eq_statements_updateAndInsert : let _ := plainBincode []
    ∃ s s₁ s₂, System.start.run .plain twoRows = some s ∧
      s.run .plain updateAndInsertInside = some s₁ ∧ s.run .plain updateAndInsertOutside = some s₂ ∧
        s₁.engine.database = s₂.engine.database := by
  let _ := plainBincode []
  obtain ⟨s₁, hwhole₁, hcalm₁⟩ := exists_calm .plain (twoRows ++ updateAndInsertInside) (by decide +kernel)
  obtain ⟨s₂, hwhole₂, hcalm₂⟩ := exists_calm .plain (twoRows ++ updateAndInsertOutside) (by decide +kernel)
  rw [System.run_append] at hwhole₁ hwhole₂
  obtain ⟨s, hs, hs₁⟩ := Option.bind_eq_some_iff.1 hwhole₁
  obtain ⟨s', hs', hs₂⟩ := Option.bind_eq_some_iff.1 hwhole₂
  obtain rfl := Option.some.inj (hs.symm.trans hs')
  have hall : (System.start.run .plain twoRows).all
      (fun s ↦ (s.engine.activeTransactions.lookup 1).isNone) = true := by decide +kernel
  rw [hs, Option.all_some] at hall
  exact ⟨s, s₁, s₂, hs, hs₁, hs₂, transaction_eq_statements updateAndInsert (by decide +kernel)
    (by decide +kernel) (by decide +kernel) (by decide +kernel) (by decide +kernel) (by decide +kernel)
    (by decide +kernel) hs (Option.isNone_iff_eq_none.1 hall) ⟨rfl, rfl, trivial⟩ hs₁ hs₂ hcalm₁ hcalm₂⟩

/-- Outside transactions the second `UPDATE` would change the row again. In the transaction it does not
find it. -/
example : let _ := plainBincode []
    (System.start.exchanged .plain (twoRows ++ [.call 1 .begin,
      .call 1 (updateOf "u" "id" "3" (some (whereIs "id" "2"))),
      .call 1 (updateOf "u" "id" "4" (some (whereIs "id" "3"))), .call 1 .commit, .flushRound, .flushRound,
      .call 1 (.statement (.query (selectOf "u" none)))])).getLast?.map (fun x ↦ x.2.2) =
        some (.ok (bytes "u.id\n-----\n3\n5\n")) := by
  decide +kernel

end KsSql
