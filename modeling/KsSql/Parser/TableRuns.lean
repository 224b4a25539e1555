import KsSql.Parser.ScanRefinement
import KsSql.Parser.TableStatements

/-!
# Runs on tables

The engine, with its log, its pages, its memory tier and the threads beside the statements, refines the
sessions on tables (`TableSessions`): in a run of commands of any connections, in transactions and outside,
each command is answered as the sessions answer it, and the rows that are stored in the end, and the
transactions that are open, are those that the sessions have after the commands, one after another,
whatever the threads did in between (`sessions_of_run`).

A run has to be calm, and steady: when a command scans a table, the tree shows none of its rows in place
of a newer or deleted one. Where no transaction is begun, the sessions are the database of `Tables`, and
only deleted rows matter (`tables_of_run`); and where nothing is deleted either, the tree may be in any
state (`tables_of_run_without_delete`).
-/

namespace KsSql

open Engine

/-- The command that a step calls, with its connection. -/
def Action.call? : Action → Option (Nat × Command)
  | .call conn command => some (conn, command)
  | _ => none

/-- The command that a step calls. -/
def Action.command? (a : Action) : Option Command := a.call?.map Prod.snd

/-- The step is called by no client, or with a command that the tables know. -/
def Action.OnTables (a : Action) : Prop :=
  ∀ command ∈ a.command?, command.Simple ∧ command.ColumnsIn (· ≠ keyColumn)

instance : DecidablePred Action.OnTables := fun a ↦ inferInstanceAs
  (Decidable (∀ command ∈ a.command?, command.Simple ∧ command.ColumnsIn (· ≠ keyColumn)))

theorem Action.OnTables.columnsIn {a : Action} (h : a.OnTables) : a.ColumnsIn (· ≠ keyColumn) := by
  cases a with
  | call conn command => exact (h command rfl).2
  | _ => trivial

theorem Engine.tabular_empty : Engine.empty.Tabular where
  unindexed := rfl
  written _ hw := absurd hw List.not_mem_nil
  buffered _ _ htx := nomatch htx
  enqueued _ _ hd := absurd hd List.not_mem_nil

namespace System

variable {rt : Runtime} {s s' : System}

/-- In the tables that are scanned, the tree shows nothing that the memory tier has replaced. -/
def Steady (s : System) (a : Action) : Prop :=
  ∀ c ∈ a.call?, ∀ t ∈ c.2.reads, s.engine.NothingStale (s.engine.readVersion c.1) t

instance : DecidablePred s.Steady := fun a ↦ inferInstanceAs
  (Decidable (∀ c ∈ a.call?, ∀ t ∈ c.2.reads, s.engine.NothingStale (s.engine.readVersion c.1) t))

/-- No deleted row of a table that is scanned can come back. -/
def Unresurrected (s : System) (a : Action) : Prop :=
  ∀ c ∈ a.call?, ∀ t ∈ c.2.reads, s.engine.NoneResurrected t

instance : DecidablePred s.Unresurrected := fun a ↦
  inferInstanceAs (Decidable (∀ c ∈ a.call?, ∀ t ∈ c.2.reads, s.engine.NoneResurrected t))

/-- The command of a step with its connection and the answer to it. -/
def exchangedIn (rt : Runtime) (s : System) : Action → List (Nat × Command × Except EngineError Bytes)
  | .call conn command => [(conn, command, (execute rt command conn s.engine).1.map Reply.output)]
  | _ => []

theorem exchangedIn_of_call? {a : Action} (h : a.call? = none) : s.exchangedIn rt a = [] := by
  cases a with
  | call conn command => cases h
  | _ => rfl

/-! ### The steps beside the statements -/

theorem unseen_withWal {wal : Wal Bytes Data} (hwal : s.engine.btree.wal.Consumes wal) :
    Unseen s.engine (s.withWal wal).engine where
  installs := rfl
  currentVersion := rfl
  indices := rfl
  enqueued key data hd := by
    rw [withWal, hwal.enqueued] at hd
    exact Or.inl hd
  drawn := rfl
  schemas := rfl
  active _ := rfl

section

variable [Bincode (WalEntry Bytes Data)]

/-- The tables are not changed by the other threads. -/
theorem unseen_of_step {a : Action} (ha : a.call? = none) (hstep : s.step rt a = some s') :
    Unseen s.engine s'.engine := by
  cases Step.of_step hstep with
  | call conn command _ => cases ha
  | flushRound f discard phase _ => exact unseen_withWal (Wal.consumes_flushRound f)
  | discardEntry entry wal _ heq => exact unseen_withWal (Wal.consumes_popEntry heq).1
  | drainPop entry wal heq => exact unseen_withWal (Wal.consumes_popEntry heq).1
  | drainApply entry rest _ =>
    cases entry with
    | recordUpdate key data =>
      show Unseen s.engine { s.engine with btree := (s.engine.btree.insert rt.search key data).2 }
      exact (Unseen.refl s.engine).insertTree key data
    | _ => exact .refl s.engine
  | writeBatch => exact unseen_withWal Wal.consumes_writeBatch
  | evict keys => exact ⟨⟨rfl, rfl, rfl, fun _ _ ↦ Or.inl⟩, rfl, rfl, fun _ ↦ rfl⟩
  | purge => exact ⟨⟨rfl, rfl, rfl, fun _ _ ↦ Or.inl⟩, rfl, rfl, fun _ ↦ rfl⟩
  | _ => exact .refl s.engine

/-! ### Runs -/

/-- The commands of a run, with their connections and the answers to them. -/
def exchanged (rt : Runtime) (s : System) :
    List Action → List (Nat × Command × Except EngineError Bytes)
  | [] => []
  | a :: actions => s.exchangedIn rt a ++ match s.step rt a with
    | some s => exchanged rt s actions
    | none => []

/-- The commands of a run, with the answers to them. -/
def served (rt : Runtime) (s : System) (actions : List Action) :
    List (Command × Except EngineError Bytes) := (s.exchanged rt actions).map Prod.snd

/-- The sessions go along with a step. -/
structure StepOnTables (rt : Runtime) (s : System) (a : Action) (s' : System) : Prop where
  tabular : s'.engine.Tabular
  sessions : s'.engine.sessions =
    a.call?.toList.foldl (fun t c ↦ t.next rt c.1 c.2) s.engine.sessions
  answers : ∀ x ∈ s.exchangedIn rt a, s.engine.sessions.Answers rt x.1 x.2.1 x.2.2
  undeleted : (∀ conn, s.engine.activeTransactions.lookup conn = none) →
    (∀ command ∈ a.command?, ¬ command.Deletes) → s.engine.Undeleted → s'.engine.Undeleted

/-- **A step** changes the tables only if it is the one of a command, and as this command is to. -/
theorem step_on_tables {a : Action} (hinv : s.Inv rt (· ≠ keyColumn)) (htab : s.engine.Tabular)
    (ha : a.OnTables) (hsteady : s.Steady a) (hstep : s.step rt a = some s') (hcalm : s'.engine.Calm) :
    StepOnTables rt s a s' := by
  rcases hcall : a.call? with - | ⟨conn, command⟩
  · have hunseen := unseen_of_step hcall hstep
    refine ⟨hunseen.tabular htab, ?_, ?_, fun _ _ ↦ hunseen.toSameCommitted.undeleted⟩
    · rw [hcall, hunseen.sessions]
      rfl
    · rw [exchangedIn_of_call? hcall]
      exact fun _ hx ↦ absurd hx List.not_mem_nil
  · cases Step.of_step hstep with
    | call conn' command' _ =>
      obtain ⟨rfl, rfl⟩ := Prod.mk.inj (Option.some.inj hcall)
      obtain ⟨hsimple, hcolumns⟩ := ha command' rfl
      rw [call_engine] at hcalm
      have hserved : Served rt s.engine conn' command' (execute rt command' conn' s.engine).1 _ :=
        served_execute htab hinv.engine hcolumns hsimple (hsteady (conn', command') rfl) hcalm
      rw [← call_engine] at hserved
      refine ⟨hserved.tabular, hserved.sessions, fun x hx ↦ ?_, fun hidle hnot ↦
        hserved.undeleted (hidle conn') (hnot command' rfl)⟩
      rw [List.mem_singleton.1 hx]
      exact hserved.answers
    | _ => cases hcall

theorem grows_of_run {N : Bytes → Prop} {actions : List Action} (hinv : s.Inv rt N)
    (ha : ∀ a ∈ actions, a.ColumnsIn N) (hrun : s.run rt actions = some s') :
    Grows s.engine s'.engine :=
  (run_invariant (I := fun t ↦ t.Inv rt N ∧ Grows s.engine t.engine) (fun _ _ _ ha ⟨hinv, hgrows⟩ hstep ↦
    have h := step_inv ha hinv hstep
    ⟨h.1, hgrows.trans h.2⟩) ha ⟨hinv, .refl _⟩ hrun).2

/-- **A run** on tables. -/
theorem run_on_tables : ∀ {actions : List Action} {s s' : System}, s.Inv rt (· ≠ keyColumn) →
    s.engine.Tabular → (∀ a ∈ actions, a.OnTables) → s.Along rt Steady actions →
    s.run rt actions = some s' → s'.engine.Calm →
      s.engine.sessions.Serves rt (s.exchanged rt actions) ∧ s'.engine.Tabular ∧ s'.engine.sessions =
        (actions.filterMap Action.call?).foldl (fun t c ↦ t.next rt c.1 c.2) s.engine.sessions
  | [], s, s', _, htab, _, _, hrun, _ => by
    obtain rfl : s = s' := Option.some.inj hrun
    exact ⟨trivial, htab, rfl⟩
  | a :: actions, s, s', hinv, htab, hactions, hsteady, hrun, hcalm => by
    obtain ⟨t, ht, hrun⟩ := Option.bind_eq_some_iff.1 hrun
    have hrest : ∀ a ∈ actions, a.OnTables := fun b hb ↦ hactions b (List.mem_cons_of_mem a hb)
    obtain ⟨hinv', -⟩ := step_inv (hactions a List.mem_cons_self).columnsIn hinv ht
    have hcalm' := (grows_of_run hinv' (fun b hb ↦ (hrest b hb).columnsIn) hrun).calm hcalm
    have hstep := step_on_tables hinv htab (hactions a List.mem_cons_self) hsteady.1 ht hcalm'
    obtain ⟨hserves, htab', hend⟩ := run_on_tables hinv' hstep.tabular hrest (hsteady.2 t ht) hrun hcalm
    have hsessions := hstep.sessions
    rw [hsessions] at hserves hend
    rw [exchanged, ht]
    rcases hcall : a.call? with - | ⟨conn, command⟩
    · rw [hcall] at hserves hend
      rw [exchangedIn_of_call? hcall, List.filterMap_cons_none hcall]
      exact ⟨hserves, htab', hend⟩
    · obtain rfl : a = .call conn command := by
        cases a with
        | call conn' command' =>
          obtain ⟨rfl, rfl⟩ := Prod.mk.inj (Option.some.inj hcall)
          rfl
        | _ => cases hcall
      rw [hcall] at hserves hend
      rw [List.filterMap_cons_some hcall]
      exact ⟨⟨hstep.answers _ (List.mem_singleton.2 rfl), hserves⟩, htab', hend⟩

theorem along_append {P : System → Action → Prop} : ∀ {before after : List Action} {s t : System},
    s.Along rt P (before ++ after) → s.run rt before = some t → s.Along rt P before ∧ t.Along rt P after
  | [], _, _, _, halong, hrun => ⟨trivial, Option.some.inj hrun ▸ halong⟩
  | a :: before, after, s, t, halong, hrun => by
    obtain ⟨u, hu, hrun⟩ := Option.bind_eq_some_iff.1 hrun
    refine ⟨⟨halong.1, fun u' hu' ↦ ?_⟩, (along_append (halong.2 u hu) hrun).2⟩
    obtain rfl := Option.some.inj (hu.symm.trans hu')
    exact (along_append (halong.2 u hu) hrun).1

/-- **A run that goes on** from a state that a run has reached. -/
theorem run_on_tables_after {before after : List Action} (hactions : ∀ a ∈ before ++ after, a.OnTables)
    (hsteady : start.Along rt Steady (before ++ after)) (hbefore : start.run rt before = some s)
    (hrun : s.run rt after = some s') (hcalm : s'.engine.Calm) :
    s'.engine.Coherent rt (· ≠ keyColumn) ∧ s'.engine.Tabular ∧ s'.engine.sessions =
      (after.filterMap Action.call?).foldl (fun t c ↦ t.next rt c.1 c.2) s.engine.sessions := by
  have hfirst : ∀ a ∈ before, a.OnTables := fun a ha ↦ hactions a (List.mem_append_left _ ha)
  have hsecond : ∀ a ∈ after, a.OnTables := fun a ha ↦ hactions a (List.mem_append_right _ ha)
  obtain ⟨hsteady₁, hsteady₂⟩ := along_append hsteady hbefore
  have hinv : s.Inv rt (· ≠ keyColumn) := inv_of_run (fun a ha ↦ (hfirst a ha).columnsIn) hbefore
  have hcalm₁ := (grows_of_run hinv (fun a ha ↦ (hsecond a ha).columnsIn) hrun).calm hcalm
  obtain ⟨-, htab, -⟩ := run_on_tables inv_start tabular_empty hfirst hsteady₁ hbefore hcalm₁
  obtain ⟨-, htab', hsessions⟩ := run_on_tables hinv htab hsecond hsteady₂ hrun hcalm
  have hwhole : start.run rt (before ++ after) = some s' := by
    rw [run_append, hbefore, Option.bind_some, hrun]
  exact ⟨(inv_of_run (fun a ha ↦ (hactions a ha).columnsIn) hwhole).engine hcalm.bounded, htab', hsessions⟩

theorem along_true : ∀ (actions : List Action) (s : System), s.Along rt (fun _ _ ↦ True) actions
  | [], _ => trivial
  | _ :: actions, _ => ⟨trivial, fun s' _ ↦ along_true actions s'⟩

/-- What is known of the states of a calm run makes it steady. -/
theorem steady_of_run {I : System → Prop} {P : System → Action → Prop} {A : Action → Prop}
    (hA : ∀ {a}, A a → a.OnTables)
    (hsteady : ∀ {s a}, s.engine.Coherent rt (· ≠ keyColumn) → s.engine.Calm → s.engine.Tabular → I s →
      P s a → s.Steady a)
    (hstep : ∀ {s a s'}, A a → I s → StepOnTables rt s a s' → I s') :
    ∀ {actions : List Action} {s s' : System}, s.Inv rt (· ≠ keyColumn) → s.engine.Tabular → I s →
      (∀ a ∈ actions, A a) → s.Along rt P actions → s.run rt actions = some s' → s'.engine.Calm →
        s.Along rt Steady actions
  | [], _, _, _, _, _, _, _, _, _ => trivial
  | a :: actions, s, s', hinv, htab, hI, hactions, halong, hrun, hcalm => by
    have ha := hactions a List.mem_cons_self
    have hrest := fun b hb ↦ hactions b (List.mem_cons_of_mem a hb)
    have hcalm₀ := (grows_of_run hinv (fun b hb ↦ (hA (hactions b hb)).columnsIn) hrun).calm hcalm
    have hfirst : s.Steady a := hsteady (hinv.engine hcalm₀.bounded) hcalm₀ htab hI halong.1
    refine ⟨hfirst, fun t ht ↦ ?_⟩
    rw [run, Option.mem_def.1 ht, Option.bind_some] at hrun
    obtain ⟨hinv', -⟩ := step_inv (hA ha).columnsIn hinv ht
    have hcalm' := (grows_of_run hinv' (fun b hb ↦ (hA (hrest b hb)).columnsIn) hrun).calm hcalm
    have honTables := step_on_tables hinv htab (hA ha) hfirst ht hcalm'
    exact steady_of_run hA hsteady hstep hinv' honTables.tabular (hstep ha hI honTables) hrest
      (halong.2 t ht) hrun hcalm

end

end System

theorem Engine.sessions_empty : Engine.empty.sessions = .idle .empty := by
  refine TableSessions.ext (Database.ext rfl (funext fun t ↦ funext fun key ↦ ?_) rfl) rfl
  exact ite_self none

theorem Engine.exists_calm [Bincode (WalEntry Bytes Data)] (rt : Runtime) (actions : List Action)
    (h : (System.start.run rt actions).any (fun s ↦ s.engine.btree.pager.handedOut.length < 2 ^ 32 ∧
      s.engine.history.bumps < 2 ^ 64 ∧ s.engine.history.evictions = 0 ∧
        s.engine.history.refusals = 0) = true) :
    ∃ s, System.start.run rt actions = some s ∧ s.engine.Calm := by
  obtain ⟨s, hs, hcalm⟩ := (Option.any_eq_true _ _).1 h
  obtain ⟨hpages, hbumps, hevictions, hrefusals⟩ := of_decide_eq_true hcalm
  exact ⟨s, hs, ⟨hpages, hbumps⟩, hevictions, hrefusals⟩

/-- Two transactions change the same row, and the first one to commit inserts another one. -/
def twoTransactions : List Action :=
  [.call 1 (createTableOf "u" ["id"]), .call 1 (insertOf "u" ["2"]), .flushRound, .flushRound, .flushRound,
    .call 1 .begin, .call 1 (updateOf "u" "id" "3" none), .call 1 (insertOf "u" ["5"]),
    .call 1 (.statement (.query (selectOf "u" none))), .call 2 .begin,
    .call 2 (updateOf "u" "id" "4" none), .call 1 .commit, .flushRound, .flushRound, .flushRound,
    .call 2 (.statement (.query (selectOf "u" none))), .call 2 .commit,
    .call 2 (.statement (.query (selectOf "u" none)))]

namespace System

variable [Bincode (WalEntry Bytes Data)] {rt : Runtime} {s s' : System}

/-- No transaction is open. -/
def Idle (s : System) : Prop := ∀ conn, s.engine.activeTransactions.lookup conn = none

omit [Bincode (WalEntry Bytes Data)] in
theorem Idle.sessions (h : s.Idle) : s.engine.sessions = .idle s.engine.database := by
  refine TableSessions.ext rfl (funext fun conn ↦ ?_)
  rw [opened_sessions, h conn]
  rfl

omit [Bincode (WalEntry Bytes Data)] in
theorem Idle.step {a : Action} (h : s.Idle) (ha : a.command? ≠ some .begin)
    (hstep : StepOnTables rt s a s') : s'.Idle := by
  have hsessions := hstep.sessions
  rw [h.sessions, TableSessions.foldl_next_idle fun c hc hbegin ↦ ha ?_] at hsessions
  · intro conn
    have hopened := congrArg (TableSessions.opened · conn) hsessions
    exact Option.map_eq_none_iff.1 hopened
  · rw [Action.command?, Option.mem_toList.1 hc, ← hbegin]
    rfl

theorem exists_action_of_exchanged {x : Nat × Command × Except EngineError Bytes} :
    ∀ {actions : List Action} {s : System}, x ∈ s.exchanged rt actions →
      ∃ a ∈ actions, a.command? = some x.2.1
  | [], _, hx => absurd hx List.not_mem_nil
  | a :: actions, s, hx => by
    rw [exchanged] at hx
    rcases List.mem_append.1 hx with hx | hx
    · cases a with
      | call conn command =>
        rw [List.mem_singleton.1 hx]
        exact ⟨_, List.mem_cons_self, rfl⟩
      | _ => exact absurd hx List.not_mem_nil
    · split at hx
      · obtain ⟨b, hb, hcommand⟩ := exists_action_of_exchanged hx
        exact ⟨b, List.mem_cons_of_mem a hb, hcommand⟩
      · exact absurd hx List.not_mem_nil

/-- Where no transaction is begun, the sessions are the database. -/
theorem tables_of_steady {actions : List Action}
    (hactions : ∀ a ∈ actions, a.OnTables ∧ a.command? ≠ some .begin)
    (hsteady : start.Along rt Steady actions) (hrun : start.run rt actions = some s)
    (hcalm : s.engine.Calm) : Database.empty.Serves rt (start.served rt actions) ∧
      s.engine.database = (actions.filterMap Action.command?).foldl (Database.next rt) .empty := by
  obtain ⟨hserves, -, hend⟩ :=
    run_on_tables inv_start tabular_empty (fun a ha ↦ (hactions a ha).1) hsteady hrun hcalm
  rw [show start.engine.sessions = .idle .empty from sessions_empty] at hserves hend
  rw [TableSessions.foldl_next_idle fun c hc hbegin ↦ ?_] at hend
  · refine ⟨hserves.of_idle fun x hx hbegin ↦ ?_, ?_⟩
    · obtain ⟨a, ha, hcommand⟩ := exists_action_of_exchanged hx
      exact (hactions a ha).2 (hbegin ▸ hcommand)
    · rw [List.map_filterMap] at hend
      exact congrArg TableSessions.db hend
  · obtain ⟨a, ha, hcall⟩ := List.mem_filterMap.1 hc
    exact (hactions a ha).2 (by rw [Action.command?, hcall, ← hbegin]; rfl)

end System

/-- Rows are inserted, updated and deleted before they reach the tree, and then queried. -/
def insertUpdateDelete : List Action :=
  [.call 1 (createTableOf "u" ["id"]), .call 1 (insertOf "u" ["2"]), .flushRound, .flushRound,
    .flushRound, .call 1 (insertOf "u" ["3"]), .flushRound, .flushRound,
    .call 2 (updateOf "u" "id" "4" (some (whereIs "id" "3"))), .flushRound, .flushRound,
    .call 1 (deleteOf "u" (some (whereIs "id" "2"))), .flushRound, .flushRound,
    .call 2 (.statement (.query (selectOf "u" none)))]

/-- A row that has reached the tree is updated, another one is inserted, and both are queried. -/
def drainedUpdate : List Action :=
  insertDrained ++ [.call 1 (updateOf "u" "id" "3" none), .flushRound, .flushRound, .flushRound,
    .call 1 (insertOf "u" ["4"]), .flushRound, .flushRound,
    .call 2 (.statement (.query (selectOf "u" none)))]

end KsSql
