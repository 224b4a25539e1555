import KsSql.Parser.TableRuns

/-!
# What a transaction sees

A transaction that is open sees the rows that were committed when it began, except those that others have
changed since, and never what it writes itself (`Since`), besides rows that were inserted later. A row does
not change while the transaction is open: it stays, or disappears.

So a scan in the transaction returns a row that was there if and only if nobody else has changed it
(`scan_in_transaction`), whatever the other connections and the threads did since.
-/

namespace KsSql

open Engine

/-- The command begins or ends a transaction. -/
def Command.Delimits : Command → Prop
  | .begin => True
  | .commit => True
  | .rollback => True
  | _ => False

instance : DecidablePred Command.Delimits := fun command ↦
  match command with
  | .begin => .isTrue trivial
  | .commit => .isTrue trivial
  | .rollback => .isTrue trivial
  | .flush => .isFalse id
  | .statement _ => .isFalse id

/-- Elsewhere a function of two arguments is not changed. -/
theorem update_update_of_not {α β γ : Type} [DecidableEq α] [DecidableEq β] {f : α → β → γ} {a a' : α}
    {b b' : β} {c : γ} (h : ¬ (a' = a ∧ b' = b)) :
    Function.update f a (Function.update (f a) b c) a' b' = f a' b' := by
  rcases eq_or_ne a' a with rfl | hne
  · rw [Function.update_self, Function.update_of_ne fun hb ↦ h ⟨rfl, hb⟩]
  · rw [Function.update_of_ne hne]

namespace TableSessions

variable {rt : Runtime} {conn c : Nat} {db : Database} {s : TableSessions}

/-- The key was generated for a row that was inserted into the table since. -/
def Drawn (rt : Runtime) (db : Database) (s : TableSessions) (t key : Bytes) : Prop :=
  ∃ n, db.inserted ≤ n ∧ n < s.db.inserted ∧ key = rowKey t (rt.random n)

/-- The transaction of the connection began on the tables: the rows that others have not changed are
still there. -/
structure Since (rt : Runtime) (conn : Nat) (db : Database) (s : TableSessions) : Prop where
  inserted : db.inserted ≤ s.db.inserted
  opened : ∃ tx, s.opened conn = some tx ∧ ∀ t key, ¬ tx.overtaken t key →
    s.db.rows t key = db.rows t key ∨ Drawn rt db s t key

theorem since_begin (rt : Runtime) (conn : Nat) (s : TableSessions) :
    Since rt conn s.db (s.setOpened conn (some .fresh)) where
  inserted := le_rfl
  opened := ⟨.fresh, Function.update_self conn _ s.opened, fun _ _ _ ↦ Or.inl rfl⟩

namespace Since

variable (h : Since rt conn db s)

include h

/-- Other tables do not matter. -/
theorem of_db {db' : Database} (hrows : db'.rows = s.db.rows) (hinserted : db'.inserted = s.db.inserted) :
    Since rt conn db { s with db := db' } := by
  obtain ⟨tx, htx, hkept⟩ := h.opened
  refine ⟨hinserted ▸ h.inserted, tx, htx, fun t key hover ↦ ?_⟩
  rcases hkept t key hover with hsame | ⟨n, hle, hlt, hkey⟩
  · exact Or.inl ((congrFun (congrFun hrows t) key).trans hsame)
  · exact Or.inr ⟨n, hle, hinserted ▸ hlt, hkey⟩

theorem setOpened (hne : c ≠ conn) (tx : Option Snapshot) : Since rt conn db (s.setOpened c tx) := by
  obtain ⟨tx', htx', hkept⟩ := h.opened
  exact ⟨h.inserted, tx', (Function.update_of_ne hne.symm _ s.opened).trans htx', hkept⟩

/-- A transaction does not see what it writes. -/
theorem note {tx : Snapshot} (htx : s.opened c = some tx) (new : RowChanges) :
    Since rt conn db (s.setOpened c (some (tx.note new))) := by
  rcases eq_or_ne c conn with rfl | hne
  · obtain ⟨tx', htx', hkept⟩ := h.opened
    obtain rfl := Option.some.inj (htx.symm.trans htx')
    exact ⟨h.inserted, tx.note new, Function.update_self c _ s.opened, hkept⟩
  · exact h.setOpened hne _

/-- What others commit is overtaken. -/
theorem place (new : RowChanges) (moved : Prop) : Since rt conn db (s.place new moved) := by
  obtain ⟨tx, htx, hkept⟩ := h.opened
  refine ⟨h.inserted, tx.overtake new moved, congrArg (Option.map _) htx, fun t key hover ↦ ?_⟩
  obtain ⟨hbefore, hnew⟩ := not_or.1 hover
  have hrows : (s.place new moved).db.rows t key = s.db.rows t key := by
    show (new t key).getD (s.db.rows t key) = _
    rw [Option.not_isSome_iff_eq_none.1 hnew]
    rfl
  exact (hkept t key hbefore).imp hrows.trans id

/-- Another key is drawn. -/
theorem draw : Since rt conn db { s with db := { s.db with inserted := s.db.inserted + 1 } } := by
  obtain ⟨tx, htx, hkept⟩ := h.opened
  refine ⟨h.inserted.trans (Nat.le_succ _), tx, htx, fun t key hover ↦ (hkept t key hover).imp id ?_⟩
  rintro ⟨n, hle, hlt, hkey⟩
  exact ⟨n, hle, hlt.trans (Nat.lt_succ_self _), hkey⟩

theorem insertRow (t : Bytes) (schema : TableSchema) (x : List Expr × Nat) :
    Since rt conn db (s.insertRow rt c t schema x) := by
  rw [TableSessions.insertRow]
  rcases hc : s.opened c with - | tx
  · obtain ⟨tx, htx, hkept⟩ := h.opened
    refine ⟨h.inserted.trans (Nat.le_succ _), tx.meet t (rowKey t (rt.random s.db.inserted)),
      congrArg (Option.map _) htx, fun t' key hover ↦ ?_⟩
    by_cases hnew : t' = t ∧ key = rowKey t (rt.random s.db.inserted)
    · obtain ⟨rfl, rfl⟩ := hnew
      exact Or.inr ⟨s.db.inserted, h.inserted, Nat.lt_succ_self _, rfl⟩
    · have hovertaken : (tx.meet t (rowKey t (rt.random s.db.inserted))).overtaken t' key =
          tx.overtaken t' key := update_update_of_not hnew
      have hrows : (s.db.insertRow rt t schema x).rows t' key = s.db.rows t' key :=
        update_update_of_not hnew
      rcases hkept t' key (hovertaken ▸ hover) with hsame | ⟨n, hle, hlt, hkey⟩
      · exact Or.inl (hrows.trans hsame)
      · exact Or.inr ⟨n, hle, hlt.trans (Nat.lt_succ_self _), hkey⟩
  · exact (h.note hc _).draw

end Since

theorem Since.insertRows (t : Bytes) (schema : TableSchema) :
    ∀ (rows : List (List Expr × Nat)) {s : TableSessions}, Since rt conn db s →
      Since rt conn db (rows.foldl (TableSessions.insertRow rt c t schema) s)
  | [], _, h => h
  | x :: rows, _, h => Since.insertRows t schema rows (h.insertRow t schema x)

namespace Since

variable (h : Since rt conn db s)

include h

theorem insert (t : Bytes) (rows : List (List Expr)) : Since rt conn db (s.insert rt c t rows) := by
  rw [TableSessions.insert]
  rcases s.db.tables t with - | schema
  · exact h
  · exact (h.insertRows t schema rows.zipIdx).of_db rfl rfl

theorem change (t : Bytes) (selection : Option Expr) (f : Row → Option Row) :
    Since rt conn db (s.change rt c t selection f) := by
  rw [TableSessions.change]
  rcases hc : s.opened c with - | tx
  · exact h.place _ _
  · exact h.note hc _

theorem commit (hne : c ≠ conn) : Since rt conn db (s.commit c) := by
  rw [TableSessions.commit]
  rcases s.opened c with - | tx
  · exact h
  · dsimp only
    split
    · exact h.setOpened hne none
    · exact (h.setOpened hne none).place _ _

/-- **A command** changes no row that the transaction sees, if it does not end the transaction. -/
theorem next {command : Command} (hc : c = conn → ¬ command.Delimits) :
    Since rt conn db (s.next rt c command) := by
  have hne : command.Delimits → c ≠ conn := fun hdelimits heq ↦ hc heq hdelimits
  unfold TableSessions.next
  split
  · exact h.setOpened (hne trivial) _
  · exact h.commit (hne trivial)
  · exact h.setOpened (hne trivial) _
  · exact h.insert _ _
  · exact h.change _ _ _
  · exact h.change _ _ _
  · rename_i hinsert hupdate hdelete
    unfold Database.next
    split
    · exact h.of_db rfl rfl
    · exact absurd rfl (hinsert _ _ _)
    · exact absurd rfl (hupdate _ _ _)
    · exact absurd rfl (hdelete _ _ _)
    · exact h

/-- What the transaction sees, under the keys that are not new. -/
theorem rows_view : ∃ tx, s.opened conn = some tx ∧ ∀ t key, ¬ Drawn rt db s t key → ∀ columns,
    (s.view conn).rows t key = some columns ↔ db.rows t key = some columns ∧ ¬ tx.overtaken t key := by
  obtain ⟨tx, htx, hkept⟩ := h.opened
  refine ⟨tx, htx, fun t key hnew columns ↦ ?_⟩
  rw [TableSessions.view, htx]
  dsimp only [Snapshot.view]
  split
  · rename_i hover
    exact iff_of_false (Option.some_ne_none columns).symm fun hboth ↦ hboth.2 hover
  · rename_i hover
    rw [(hkept t key hover).resolve_right hnew]
    exact ⟨fun hrow ↦ ⟨hrow, hover⟩, And.left⟩

end Since

/-- **Commands** one after another. -/
theorem Since.foldl : ∀ {calls : List (Nat × Command)} {s : TableSessions}, Since rt conn db s →
    (∀ x ∈ calls, x.1 = conn → ¬ x.2.Delimits) →
      Since rt conn db (calls.foldl (fun s x ↦ s.next rt x.1 x.2) s)
  | [], _, h, _ => h
  | x :: calls, s, h, hcalls => by
    rw [List.foldl_cons]
    exact (h.next (hcalls x List.mem_cons_self)).foldl fun y hy ↦ hcalls y (List.mem_cons_of_mem x hy)

end TableSessions

/-! ### Scans -/

section

variable [Bincode (WalEntry Bytes Data)] {rt : Runtime}

/-- **A scan in a transaction** returns a row that was there when the transaction began, as it was then, if
and only if nobody else has changed it since. -/
theorem scan_in_transaction {before after : List Action} {conn : Nat} {s s' : System}
    (hactions : ∀ a ∈ before ++ .call conn .begin :: after, a.OnTables)
    (hopen : ∀ a ∈ after, ∀ x ∈ a.call?, x.1 = conn → ¬ x.2.Delimits)
    (hsteady : System.start.Along rt System.Steady (before ++ .call conn .begin :: after))
    (hbefore : System.start.run rt before = some s)
    (hrun : s.run rt (.call conn .begin :: after) = some s') (hcalm : s'.engine.Calm) {t : Bytes}
    (hstale : s'.engine.NothingStale (s'.engine.readVersion conn) t) (filter : Option Expr) :
    ∃ tx rows, ((after.filterMap Action.call?).foldl (fun t c ↦ t.next rt c.1 c.2)
        (s.engine.sessions.next rt conn .begin)).opened conn = some tx ∧
      s'.engine.scanTableWithFilter rt t (s'.engine.readVersion conn) filter = .ok (rowsOf rt t rows) ∧
      (rows.map Prod.fst).Nodup ∧
      ∀ key, ¬ TableSessions.Drawn rt s.engine.database s'.engine.sessions t key → ∀ columns,
        (key, columns) ∈ rows ↔ s.engine.database.rows t key = some columns ∧ ¬ tx.overtaken t key := by
  obtain ⟨hco, htab, hsessions⟩ :=
    System.run_on_tables_after hactions hsteady hbefore hrun hcalm
  have hsince : TableSessions.Since rt conn s.engine.database s'.engine.sessions := by
    rw [hsessions]
    refine (TableSessions.since_begin rt conn s.engine.sessions).foldl fun x hx ↦ ?_
    obtain ⟨a, ha, hcall⟩ := List.mem_filterMap.1 hx
    exact hopen a ha x hcall
  obtain ⟨tx, htx, hseen⟩ := hsince.rows_view
  have henum := htab.enumerates hco hcalm.evictions hstale
  refine ⟨tx, s'.engine.order rt conn t, hsessions ▸ htx, htab.scan_eq hco t _ filter, henum.nodup,
    fun key hnew columns ↦ ?_⟩
  rw [henum.mem_iff]
  exact hseen t key hnew columns

end

/-- A table of two rows. -/
def twoRows : List Action :=
  [.call 1 (createTableOf "u" ["id"]), .call 1 (insertOf "u" ["2"]), .flushRound, .flushRound, .flushRound,
    .call 1 (insertOf "u" ["5"]), .flushRound, .flushRound]

/-- One of the rows is changed. -/
def firstChanged : List Action :=
  [.call 1 (updateOf "u" "id" "3" (some (whereIs "id" "2"))), .flushRound, .flushRound]

/-- A transaction that began before sees the other row only. -/
theorem scan_in_transaction_changed : let _ := plainBincode []
    ∃ s s', System.start.run .plain twoRows = some s ∧
      s.run .plain (.call 2 .begin :: firstChanged) = some s' ∧
      (execute .plain (.statement (.query (selectOf "u" none))) 2 s'.engine).1.map Reply.output =
        .ok (bytes "u.id\n-----\n5\n") ∧
      ∃ tx rows, ((firstChanged.filterMap Action.call?).foldl (fun t c ↦ t.next .plain c.1 c.2)
          (s.engine.sessions.next .plain 2 .begin)).opened 2 = some tx ∧
        s'.engine.scanTableWithFilter .plain (bytes "u") (s'.engine.readVersion 2) none =
          .ok (rowsOf .plain (bytes "u") rows) ∧ (rows.map Prod.fst).Nodup ∧
        ∀ key, ¬ TableSessions.Drawn .plain s.engine.database s'.engine.sessions (bytes "u") key →
          ∀ columns, (key, columns) ∈ rows ↔
            s.engine.database.rows (bytes "u") key = some columns ∧ ¬ tx.overtaken (bytes "u") key := by
  let _ := plainBincode []
  obtain ⟨s', hwhole, hcalm⟩ :=
    exists_calm .plain (twoRows ++ .call 2 .begin :: firstChanged) (by decide +kernel)
  have hall : (System.start.run .plain (twoRows ++ .call 2 .begin :: firstChanged)).all (fun s ↦
      s.engine.NothingStale (s.engine.readVersion 2) (bytes "u") ∧
        (execute .plain (.statement (.query (selectOf "u" none))) 2 s.engine).1.map Reply.output =
          .ok (bytes "u.id\n-----\n5\n")) = true := by
    decide +kernel
  rw [hwhole, Option.all_some, decide_eq_true_iff] at hall
  rw [System.run_append] at hwhole
  obtain ⟨s, hs, hs'⟩ := Option.bind_eq_some_iff.1 hwhole
  exact ⟨s, s', hs, hs', hall.2, scan_in_transaction (by decide +kernel) (by decide +kernel)
    (by decide +kernel) hs hs' hcalm hall.1 none⟩

end KsSql
