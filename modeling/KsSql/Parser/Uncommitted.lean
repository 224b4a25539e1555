import KsSql.Parser.PlainRuntime
import KsSql.Parser.Runs

/-!
# Uncommitted writes

What a statement of an open transaction leaves untouched. An `INSERT`, `UPDATE` or `DELETE` of a
connection that has a transaction open writes to the transaction's buffer only, whether it succeeds or
fails, but for the numbers that an `INSERT` generates and the catalogue that carries them; a
`ROLLBACK`, and a `COMMIT` that fails with a conflict, close the transaction and do nothing else.
What a query returns is the same before and after each of them (`transaction_untouched`).
-/

namespace KsSql

namespace Engine

variable {rt : Runtime} {N : Bytes → Prop} {command : Command} {conn : Nat} {e e' : Engine}

/-- What every connection sees stays as it is, and only the catalogue is enqueued. -/
structure Untouched (conn : Nat) (e e' : Engine) : Prop where
  memoryTier : e'.btree.memoryTier = e.btree.memoryTier
  pager : e'.btree.pager = e.btree.pager
  currentVersion : e'.currentVersion = e.currentVersion
  indices : e'.indices = e.indices
  tables : SameTables e.schemas e'.schemas
  enqueued : ∃ new, e'.btree.wal.enqueued = e.btree.wal.enqueued ++ new ∧
    ∀ entry ∈ new, ∃ data, entry = .recordUpdate schemasKey data
  transactions : ∀ c, c ≠ conn → e'.activeTransactions.lookup c = e.activeTransactions.lookup c

theorem Untouched.refl (e : Engine) : Untouched conn e e :=
  ⟨rfl, rfl, rfl, rfl, fun _ ↦ rfl, ⟨[], (List.append_nil _).symm, nofun⟩, fun _ _ ↦ rfl⟩

theorem Untouched.trans {e₁ e₂ e₃ : Engine} (h₁ : Untouched conn e₁ e₂)
    (h₂ : Untouched conn e₂ e₃) : Untouched conn e₁ e₃ := by
  obtain ⟨new₁, heq₁, hnew₁⟩ := h₁.enqueued
  obtain ⟨new₂, heq₂, hnew₂⟩ := h₂.enqueued
  refine ⟨h₂.memoryTier.trans h₁.memoryTier, h₂.pager.trans h₁.pager,
    h₂.currentVersion.trans h₁.currentVersion, h₂.indices.trans h₁.indices,
    fun t ↦ (h₂.tables t).trans (h₁.tables t), ⟨new₁ ++ new₂, ?_, ?_⟩,
    fun c hc ↦ (h₂.transactions c hc).trans (h₁.transactions c hc)⟩
  · rw [heq₂, heq₁, List.append_assoc]
  · intro entry hentry
    exact (List.mem_append.1 hentry).elim (hnew₁ entry) (hnew₂ entry)

/-! ### Queries -/

section Query

variable (htier : e'.btree.memoryTier = e.btree.memoryTier) (hpager : e'.btree.pager = e.btree.pager)

include htier hpager

/-- A lookup depends on the memory tier and the page file only. -/
theorem fetch_congr (key : Bytes) : e'.fetch rt key = e.fetch rt key := by
  rw [fetch, fetch, BPlusTree.get, BPlusTree.get, htier, BPlusTree.getPages_congr rt.search hpager]

/-- A scan depends on the memory tier and the page file only. -/
theorem scanTable_congr (t : Bytes) (version : Nat) :
    e'.scanTable rt t version = e.scanTable rt t version := by
  have htree : e'.scanTree rt t version = e.scanTree rt t version := by
    funext acc
    rw [scanTree, scanTree, BPlusTree.scanLeaves_congr hpager]
  rw [scanTable, scanTable, scanTier, scanTier, htier, htree]

theorem scanTableWithFilter_congr (t : Bytes) (version : Nat) (filter : Option Expr) :
    e'.scanTableWithFilter rt t version filter = e.scanTableWithFilter rt t version filter := by
  have hprobe : e'.probeIndex rt t version = e.probeIndex rt t version := by
    funext column value
    rw [probeIndex, probeIndex, funext (fetch_congr htier hpager)]
  rw [scanTableWithFilter, scanTableWithFilter, scanTable_congr htier hpager, hprobe]

/-- A query depends on the memory tier, the page file, the columns of the tables, and the version that
its connection reads at. -/
theorem handleQuery_congr (htables : SameTables e.schemas e'.schemas) {c c' : Nat}
    (hversion : e'.readVersion c' = e.readVersion c) (query : Query) :
    e'.handleQuery rt query c' = e.handleQuery rt query c := by
  have hselect : ∀ select version,
      e'.selectRows rt version select = e.selectRows rt version select := by
    intro select version
    rcases hfrom : select.fromTables with - | ⟨⟨relation, joins⟩, rest⟩
    · rw [selectRows, selectRows, hfrom]
      rfl
    rcases relation with tableName | _
    · simp only [selectRows, hfrom, scanTableWithFilter_congr htier hpager,
        scanTable_congr htier hpager, Except.ok_bind]
      rcases htables.lookup tableName with ⟨hnone', hnone⟩ | ⟨schema, schema', hs', hs, hcolumns⟩
      · simp only [hnone', hnone]
        rfl
      · simp only [hs', hs, hcolumns]
        rcases joins with - | ⟨⟨relation, operator⟩, more⟩
        · rfl
        rcases relation with rightName | _
        · rcases htables.lookup rightName with ⟨hnone', hnone⟩ | ⟨right, right', hr', hr, hcolumns'⟩
          · simp only [hnone', hnone]
          · simp only [hr', hr, hcolumns']
        · rfl
    · rw [selectRows, selectRows, hfrom]
      rfl
  rw [handleQuery, handleQuery, hversion]
  simp only [hselect]

end Query

/-! ### Statements of an open transaction -/

/-- A change by an `INSERT`, `UPDATE` or `DELETE` in a transaction. -/
theorem Primitive.untouched (h : Primitive rt N command conn e e') {tx : Transaction}
    (htx : e.activeTransactions.lookup conn = some tx)
    (hkind : command.writeKind = some .insert ∨ command.writeKind = some .change) :
    Untouched conn e e' ∧ ∃ tx', e'.activeTransactions.lookup conn = some tx' ∧
      tx'.snapshotVersion = tx.snapshotVersion := by
  have hne : ∀ kind, command.writeKind = kind → kind ≠ some .insert → kind ≠ some .change → False := by
    rintro kind rfl h₁ h₂
    exact hkind.elim h₁ h₂
  -- a write to the transaction's buffer
  have hbuffer : ∀ (e : Engine) (key : Bytes) (data : Data),
      e.activeTransactions.lookup conn = some tx → Untouched conn e (e.buffer conn tx key data) ∧
        ∃ tx', (e.buffer conn tx key data).activeTransactions.lookup conn = some tx' ∧
          tx'.snapshotVersion = tx.snapshotVersion := by
    intro e key data htx
    refine ⟨⟨rfl, rfl, rfl, rfl, fun _ ↦ rfl, ⟨[], (List.append_nil _).symm, nofun⟩,
      fun c hc ↦ AList.lookup_insert_ne hc⟩, _, AList.lookup_insert _, rfl⟩
  cases h with
  | tick | refuse =>
    exact ⟨⟨rfl, rfl, rfl, rfl, fun _ ↦ rfl, ⟨[], (List.append_nil _).symm, nofun⟩, fun _ _ ↦ rfl⟩,
      tx, htx, rfl⟩
  | insertRow _ _ _ _ _ hnone => exact absurd (htx.symm.trans hnone) nofun
  | change _ _ _ hnone => exact absurd (htx.symm.trans hnone) nofun
  | bufferRow t source columns timestamp tx' _ htx' =>
    obtain rfl : tx = tx' := Option.some.inj (htx.symm.trans htx')
    obtain ⟨hsame, htx'⟩ := hbuffer (e.draw conn (e.nextKey rt t)) (e.nextKey rt t)
      (.record ⟨.row columns, e.currentVersion, false, timestamp⟩) htx
    exact ⟨⟨hsame.memoryTier, hsame.pager, hsame.currentVersion, hsame.indices, hsame.tables,
      hsame.enqueued, hsame.transactions⟩, htx'⟩
  | bufferChange key r tx' htx' _ =>
    obtain rfl : tx = tx' := Option.some.inj (htx.symm.trans htx')
    exact hbuffer e key _ htx
  | bump hcommand => exact (hne _ (congrArg _ hcommand) nofun nofun).elim
  | commitKey _ _ hcommand => exact (hne _ (congrArg _ hcommand) nofun nofun).elim
  | index _ _ hindex => exact (hne _ hindex nofun nofun).elim
  | push key data hkey =>
    rcases hkey with rfl | hnone | hindex
    · exact ⟨⟨rfl, rfl, rfl, rfl, fun _ ↦ rfl, ⟨[_], rfl, fun entry hentry ↦
        ⟨data, List.mem_singleton.1 hentry⟩⟩, fun _ _ ↦ rfl⟩, tx, htx, rfl⟩
    · exact absurd (htx.symm.trans hnone) nofun
    · exact (hne _ hindex nofun nofun).elim
  | schemas schemas htables =>
    rcases htables with htables | ⟨_, _, hcommand⟩
    · exact ⟨⟨rfl, rfl, rfl, rfl, htables, ⟨[], (List.append_nil _).symm, nofun⟩, fun _ _ ↦ rfl⟩,
        tx, htx, rfl⟩
    · exact (hne _ (congrArg _ hcommand) nofun nofun).elim
  | indices _ hcommand =>
    obtain ⟨_, _, _, hcommand⟩ := hcommand
    exact (hne _ (congrArg _ hcommand) nofun nofun).elim
  | storeSchemas _ _ hcommand =>
    obtain ⟨_, _, hcommand⟩ := hcommand
    exact (hne _ (congrArg _ hcommand) nofun nofun).elim
  | opened hcommand => exact (hne _ (congrArg _ hcommand) nofun nofun).elim
  | closed hcommand =>
    rcases hcommand with hcommand | hcommand <;>
      exact (hne _ (congrArg _ hcommand) nofun nofun).elim

theorem Progress.untouched (h : Progress rt N command conn e e') {tx : Transaction}
    (htx : e.activeTransactions.lookup conn = some tx)
    (hkind : command.writeKind = some .insert ∨ command.writeKind = some .change) :
    Untouched conn e e' ∧ ∃ tx', e'.activeTransactions.lookup conn = some tx' ∧
      tx'.snapshotVersion = tx.snapshotVersion := by
  induction h with
  | refl => exact ⟨.refl e, tx, htx, rfl⟩
  | tail _ hstep ih =>
    obtain ⟨hsame, tx', htx', hversion⟩ := ih
    obtain ⟨hsame', tx'', htx'', hversion'⟩ := hstep.untouched htx' hkind
    exact ⟨hsame.trans hsame', tx'', htx'', hversion'.trans hversion⟩

/-- Closing a transaction. -/
theorem untouched_closed (e : Engine) : Untouched conn e (e.closed conn) :=
  ⟨rfl, rfl, rfl, rfl, fun _ ↦ rfl, ⟨[], (List.append_nil _).symm, nofun⟩,
    fun _ hc ↦ AList.lookup_erase_ne hc⟩

/-- A `COMMIT` that fails with a conflict has only closed the transaction. -/
theorem commit_conflict (h : (commit rt conn e).1 = .error .conflict) :
    (commit rt conn e).2 = e.closed conn := by
  have hwp : Effect.wp (commit rt conn) (fun _ _ ↦ True)
      (fun err e' ↦ err = .conflict → e' = e.closed conn) e := by
    refine Effect.wp_bind (Effect.wp_get ?_)
    split
    · exact Effect.wp_throw nofun
    rename_i tx htx
    refine Effect.wp_bind (Effect.wp_modify (f := closed conn) (Effect.wp_bind
      (Effect.wp_forEach (fun _ t ↦ t = e.closed conn) rfl (fun _ key _ _ t ht ↦ ?_)
        fun t ht ↦ ?_)))
    · -- the validation changes nothing
      subst ht
      refine Effect.wp_bind ?_
      unfold Effect.wp fetchKey
      rcases (e.closed conn).fetch rt key with err | data
      · exact fun _ ↦ rfl
      · rcases data with - | data
        · exact rfl
        · refine Effect.wp_bind (Effect.wp_ofExcept (fun record _ ↦ ?_) fun _ _ _ ↦ rfl)
          split
          · exact Effect.wp_throw fun _ ↦ rfl
          · exact Effect.wp_pure rfl
    · -- the installation fails in other ways only
      refine Effect.wp_bind (Effect.wp_modify (Effect.wp_bind (Effect.wp_get (Effect.wp_bind
        (Effect.wp_forEach (fun _ _ ↦ True) trivial (fun _ update _ _ t _ ↦ ?_)
          fun _ _ ↦ Effect.wp_pure trivial)))))
      refine Effect.wp_bind (Effect.wp_ofExcept (fun record _ ↦ ?_) fun err herr hconflict ↦ ?_)
      · refine Effect.wp_bind (Effect.wp_modify ?_)
        unfold Effect.wp enqueue
        split
        · trivial
        · rename_i heq
          split at heq
          · cases heq
          · cases heq
            exact nofun
      · unfold Runtime.decodeRecord at herr
        split at herr
        · cases herr
        · split at herr
          · cases herr
          · cases herr
            cases hconflict
  unfold Effect.wp at hwp
  rcases hrun : commit rt conn e with ⟨err | reply, e'⟩
  · rw [hrun] at hwp h
    exact hwp (Except.error.inj h)
  · rw [hrun] at h
    cases h

end Engine

open Engine

/-- What a flush does to the log, nobody sees. -/
theorem System.untouched_flushRound [Bincode (WalEntry Bytes Data)] {rt : Runtime} {s s' : System}
    (hstep : s.step rt .flushRound = some s') (conn : Nat) :
    Untouched conn s.engine s'.engine ∧
      ∀ query c, s'.engine.handleQuery rt query c = s.engine.handleQuery rt query c := by
  have hwal : ∀ wal, s.engine.btree.wal.Consumes wal → Untouched conn s.engine (s.withWal wal).engine ∧
      ∀ query c, (s.withWal wal).engine.handleQuery rt query c =
        s.engine.handleQuery rt query c := by
    intro wal hwal
    have hsame : Untouched conn s.engine (s.withWal wal).engine :=
      ⟨rfl, rfl, rfl, rfl, fun _ ↦ rfl, ⟨[], hwal.enqueued.trans (List.append_nil _).symm, nofun⟩,
        fun _ _ ↦ rfl⟩
    have hversion : ∀ c, (s.withWal wal).engine.readVersion c = s.engine.readVersion c := fun _ ↦ rfl
    exact ⟨hsame, fun query c ↦
      handleQuery_congr hsame.memoryTier hsame.pager hsame.tables (hversion c) query⟩
  rw [System.step] at hstep
  split at hstep
  · rename_i f discard _
    have hsame := hwal _ (Wal.consumes_flushRound f)
    split at hstep <;> rename_i heq <;> rw [heq] at hsame <;> cases hstep
    · exact hsame
    · exact hsame
  · cases hstep

/-- **A transaction leaves no trace before it commits.** In every run, each `INSERT`, `UPDATE` and
`DELETE` of a connection with an open transaction, a `ROLLBACK`, and a `COMMIT` that fails with a
conflict leave the memory tier, the version counter, the indexes and the pages as they were, and
enqueue nothing but the catalogue; so does the flush that such a statement ends with. Queries return
what they would have returned before, and after the end of the transaction those of its connection
return what they would have returned without it. -/
theorem transaction_untouched [Bincode (WalEntry Bytes Data)] {rt : Runtime} {actions : List Action}
    {s s' : System} (hrun : System.start.run rt actions = some s) {conn : Nat} {tx : Transaction}
    (htx : s.engine.activeTransactions.lookup conn = some tx) {command : Command}
    (hcommand : command.writeKind = some .insert ∨ command.writeKind = some .change ∨
      command = .rollback ∨
      command = .commit ∧ (execute rt .commit conn s.engine).1 = .error .conflict)
    (hstep : s.step rt (.call conn command) = some s') :
    Untouched conn s.engine s'.engine ∧
      (∀ query c, (c = conn → (s'.engine.activeTransactions.lookup conn).isSome) →
        s'.engine.handleQuery rt query c = s.engine.handleQuery rt query c) ∧
      (s'.engine.activeTransactions.lookup conn = none → ∀ query,
        s'.engine.handleQuery rt query conn = (s.engine.closed conn).handleQuery rt query conn) ∧
      ∀ t t' : System, t.step rt .flushRound = some t' → Untouched conn t.engine t'.engine ∧
        ∀ query c, t'.engine.handleQuery rt query c = t.engine.handleQuery rt query c := by
  obtain ⟨hprog, -⟩ : Progress rt (fun _ ↦ True) command conn s.engine
      (s.call rt conn command).engine ∧ _ :=
    System.inv_call (System.inv_of_run (fun a _ ↦ a.columnsIn_true) hrun) command.columnsIn_true
  have hs' : s' = s.call rt conn command := by
    rw [System.step] at hstep
    split at hstep
    · exact (Option.some.inj hstep).symm
    · cases hstep
  rw [← hs'] at hprog
  suffices h : Untouched conn s.engine s'.engine ∧
      ((∃ tx', s'.engine.activeTransactions.lookup conn = some tx' ∧
        tx'.snapshotVersion = tx.snapshotVersion) ∨ s'.engine = s.engine.closed conn) by
    obtain ⟨hsame, hend⟩ := h
    refine ⟨hsame, fun query c hc ↦ ?_, fun hnone query ↦ ?_, fun t t' ht ↦
      System.untouched_flushRound ht conn⟩
    · refine handleQuery_congr hsame.memoryTier hsame.pager hsame.tables ?_ query
      by_cases hconn : c = conn
      · subst hconn
        rcases hend with ⟨tx', htx', hversion⟩ | hclosed
        · rw [readVersion, readVersion, htx, htx']
          exact hversion
        · have hopen := hc rfl
          rw [hclosed, closed, AList.lookup_erase] at hopen
          cases hopen
      · rw [readVersion, readVersion, hsame.transactions c hconn, hsame.currentVersion]
    · rcases hend with ⟨tx', htx', -⟩ | hclosed
      · cases htx'.symm.trans hnone
      · rw [hclosed]
  rcases hcommand with hkind | hkind | rfl | ⟨rfl, hconflict⟩
  · exact (hprog.untouched htx (Or.inl hkind)).imp id Or.inl
  · exact (hprog.untouched htx (Or.inr hkind)).imp id Or.inl
  · have hengine : s'.engine = s.engine.closed conn := by rw [hs']; rfl
    exact ⟨hengine ▸ untouched_closed _, Or.inr hengine⟩
  · have hengine : s'.engine = s.engine.closed conn := by
      rw [hs', System.call_engine]
      exact commit_conflict hconflict
    exact ⟨hengine ▸ untouched_closed _, Or.inr hengine⟩

/-- A row inserted in a transaction. -/
theorem transaction_untouched_insert : let _ := plainBincode []
    ∃ s s', System.start.run .plain [.call 1 (createTableOf "u" ["id"]), .call 1 .begin] = some s ∧
      s.step .plain (.call 1 (insertOf "u" ["2"])) = some s' ∧ Untouched 1 s.engine s'.engine := by
  let _ := plainBincode []
  obtain ⟨s, hs⟩ : ∃ s, System.start.run .plain
      [.call 1 (createTableOf "u" ["id"]), .call 1 .begin] = some s :=
    Option.isSome_iff_exists.1 (by decide +kernel)
  have hall : (System.start.run .plain [.call 1 (createTableOf "u" ["id"]), .call 1 .begin]).all
      (fun s ↦ (s.engine.activeTransactions.lookup 1).isSome ∧
        (s.step .plain (.call 1 (insertOf "u" ["2"]))).isSome) = true := by decide +kernel
  rw [hs, Option.all_some, decide_eq_true_iff] at hall
  obtain ⟨tx, htx⟩ := Option.isSome_iff_exists.1 hall.1
  obtain ⟨s', hs'⟩ := Option.isSome_iff_exists.1 hall.2
  exact ⟨s, s', hs, hs', (transaction_untouched hs htx (Or.inl rfl) hs').1⟩

end KsSql
