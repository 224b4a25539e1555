import KsSql.Parser.Dispatch
import KsSql.Parser.Runs

/-!
# Whose transactions a request touches

Transactions are kept under connection numbers, and a request touches the one under its own number only:
it leaves those under other numbers as they are, and only a `BEGIN` opens one (`Touches`,
`touches_execute`). The threads beside the requests touch none (`activeTransactions_of_run`). No
invariant of the stored data is used, so this holds after an `undo` and after a hotswap too.
-/

namespace KsSql

namespace Engine

variable {rt : Runtime} {conn : Nat} {e e₁ e₂ : Engine} {command : Command}

/-- What a request of a connection does to the open transactions. -/
structure Touches (conn : Nat) (e e' : Engine) : Prop where
  others : ∀ i, i ≠ conn → e'.activeTransactions.lookup i = e.activeTransactions.lookup i
  opensNone : e.activeTransactions.lookup conn = none → e'.activeTransactions.lookup conn = none

theorem Touches.refl (e : Engine) : Touches conn e e := ⟨fun _ _ ↦ rfl, id⟩

theorem Touches.trans (h₁ : Touches conn e e₁) (h₂ : Touches conn e₁ e₂) : Touches conn e e₂ :=
  ⟨fun i hi ↦ (h₂.others i hi).trans (h₁.others i hi), fun hnone ↦ h₂.opensNone (h₁.opensNone hnone)⟩

theorem Touches.congr (h : Touches conn e e₁) (heq : e₂.activeTransactions = e₁.activeTransactions) :
    Touches conn e e₂ :=
  ⟨by rw [heq]; exact h.others, by rw [heq]; exact h.opensNone⟩

/-- A write to the transaction that is open under the number. -/
theorem Touches.buffer (h : Touches conn e e₁) {tx : Transaction}
    (htx : e₁.activeTransactions.lookup conn = some tx) (key : Bytes) (data : Data) :
    Touches conn e (e₁.buffer conn tx key data) where
  others i hi := (AList.lookup_insert_ne hi).trans (h.others i hi)
  opensNone hnone := absurd (htx.symm.trans (h.opensNone hnone)) nofun

theorem Touches.closed (h : Touches conn e e₁) : Touches conn e (e₁.closed conn) where
  others i hi := (AList.lookup_erase_ne hi).trans (h.others i hi)
  opensNone _ := AList.lookup_erase _ _

/-! ### The routines -/

/-- The property does not depend on what is stored: only the catalogue and the open transactions matter
to it, and it stays when the connection's transaction takes a write or is closed. -/
structure OffStore (conn : Nat) (I : Engine → Prop) : Prop where
  congr : ∀ {u u' : Engine}, I u → u'.schemas = u.schemas →
    u'.activeTransactions = u.activeTransactions → I u'
  buffer : ∀ {u : Engine} {tx : Transaction}, I u → u.activeTransactions.lookup conn = some tx →
    ∀ key data, I (u.buffer conn tx key data)
  closed : ∀ {u : Engine}, I u → I (u.closed conn)

section

open Effect (Maintains maintains_pure maintains_throw maintains_get maintains_ofExcept maintains_modify
  maintains_bind maintains_get_bind maintains_fold maintains_forEach maintains_of_state)

namespace OffStore

variable {I : Engine → Prop} (hI : OffStore conn I)

include hI

theorem modify {f : Engine → Engine} (hschemas : ∀ u, (f u).schemas = u.schemas)
    (hactive : ∀ u, (f u).activeTransactions = u.activeTransactions) :
    Maintains I (Effect.modify f : Routine Unit) :=
  maintains_modify fun u hu ↦ hI.congr hu (hschemas u) (hactive u)

theorem enqueue (key : Bytes) (data : Data) : Maintains I (enqueue key data) := fun u hu ↦ by
  unfold Effect.wp Engine.enqueue
  rcases u.btree.wal.enqueue (.recordUpdate key data) with err | wal
  · exact hI.congr hu rfl rfl
  · exact hI.congr hu rfl rfl

theorem insertTree (key : Bytes) (data : Data) : Maintains I (insertTree rt key data) :=
    fun u hu ↦ by
  unfold Effect.wp Engine.insertTree
  rcases u.btree.insert rt.search key data with ⟨err | _, btree⟩
  · exact hI.congr hu rfl rfl
  · exact hI.congr hu rfl rfl

theorem schemasRecord : Maintains I (schemasRecord rt) :=
  maintains_bind maintains_get fun _ ↦ maintains_bind (hI.modify (fun _ ↦ rfl) fun _ ↦ rfl) fun _ ↦
    maintains_pure _

theorem changeKey {version : Nat} {notFound : EngineError}
    {change : Record → Except EngineError Record} (key : Bytes) :
    Maintains I (changeKey rt conn version notFound change key) := by
  refine maintains_bind (maintains_of_state fun _ hu ↦ hu) fun data ↦ maintains_bind
    (maintains_ofExcept _) fun data ↦ maintains_bind (maintains_ofExcept _) fun record ↦
      maintains_bind (maintains_ofExcept _) fun record ↦ maintains_get_bind fun u hu ↦ ?_
  split
  · -- in a transaction the record goes to its buffer
    rename_i tx htx
    exact Effect.wp_modify (hI.buffer hu htx key _)
  · refine Effect.Maintains.wp ?_ hu
    exact maintains_bind (hI.modify (fun _ ↦ rfl) fun _ ↦ rfl) fun _ ↦ maintains_bind maintains_get
      fun v ↦ maintains_bind (hI.modify (fun _ ↦ rfl) fun _ ↦ rfl) fun _ ↦ hI.enqueue key _

theorem changeRows {verb : String} {notFound : EngineError}
    {change : Record → Except EngineError Record} {t : Bytes} {selection : Option Expr} :
    Maintains I (changeRows rt verb notFound change t selection conn) :=
  maintains_bind maintains_get fun _ ↦ maintains_bind (maintains_ofExcept _) fun _ ↦
    maintains_bind (maintains_forEach hI.changeKey) fun _ ↦
      maintains_bind maintains_get fun _ ↦ maintains_pure _

theorem insertRow {t : Bytes} {schema : TableSchema} (acc : Inserting) (row : List Expr) :
    Maintains I (insertRow rt t schema conn acc row) := by
  refine maintains_get_bind fun u hu ↦ Effect.wp_bind (Effect.wp_modify (Effect.wp_bind
    (Effect.wp_modify ?_)))
  have hdrawn : I ((u.draw conn (u.nextKey rt t)).tick) := hI.congr hu rfl rfl
  split
  · rename_i tx htx
    exact Effect.wp_bind (Effect.wp_modify (Effect.wp_pure (hI.buffer hdrawn htx _ _)))
  · exact Effect.wp_bind (Effect.wp_modify (Effect.wp_pure (hI.congr hdrawn rfl rfl)))

theorem createIndex {name : Option Bytes} {t : Bytes} {columns : List Expr} :
    Maintains I (createIndex rt name t columns conn) := by
  refine maintains_bind (maintains_ofExcept _) fun column ↦ maintains_bind
    (hI.modify (fun _ ↦ rfl) fun _ ↦ rfl) fun _ ↦ maintains_bind maintains_get fun _ ↦
      maintains_bind (maintains_ofExcept _) fun rows ↦ maintains_bind
        (maintains_forEach fun row ↦ ?_) fun _ ↦ maintains_pure _
  split
  · exact maintains_bind (hI.modify (fun _ ↦ rfl) fun _ ↦ rfl) fun _ ↦ hI.enqueue _ _
  · exact maintains_pure _

omit hI in
theorem validateKey {tx : Transaction} (key : Bytes) : Maintains I (validateKey rt tx key) := by
  refine maintains_bind (maintains_of_state fun _ hu ↦ hu) fun data ↦ ?_
  split
  · exact maintains_pure _
  · refine maintains_bind (maintains_ofExcept _) fun record ↦ ?_
    split
    · exact maintains_throw _
    · exact maintains_pure _

theorem commit : Maintains I (commit rt conn) := by
  refine maintains_get_bind fun u hu ↦ ?_
  split
  · exact Effect.wp_throw hu
  · -- the transaction is closed first, and nothing behind that opens one
    rename_i tx htx
    refine Effect.wp_bind (Effect.wp_modify (Effect.Maintains.wp ?_ (hI.closed hu)))
    refine maintains_bind (maintains_forEach validateKey) fun _ ↦ maintains_bind
      (hI.modify (fun _ ↦ rfl) fun _ ↦ rfl) fun _ ↦ maintains_bind maintains_get fun _ ↦
        maintains_bind (maintains_forEach fun update ↦ ?_) fun _ ↦ maintains_pure _
    exact maintains_bind (maintains_ofExcept _) fun _ ↦ maintains_bind
      (hI.modify (fun _ ↦ rfl) fun _ ↦ rfl) fun _ ↦ hI.enqueue _ _

/-- A statement keeps the property, if it does so where it writes to the catalogue. -/
theorem executeStatement (stmt : Statement)
    (hcreate : ∀ name columns, stmt = .createTable name columns →
      Maintains I (createTable rt name columns))
    (hinsert : ∀ t source, stmt = .insert t source →
      ∀ source, Maintains I (handleInsert rt t source conn)) :
    Maintains I (executeStatement rt stmt conn) := by
  cases stmt with
  | call modulePath => exact maintains_ofExcept _
  | createIndex name t columns => exact hI.createIndex
  | createTable name columns => exact hcreate name columns rfl
  | explain statement => exact maintains_pure _
  | insert t source => exact maintains_bind (maintains_ofExcept _) (hinsert t source rfl)
  | query query =>
    exact maintains_bind maintains_get fun _ ↦ maintains_bind (maintains_ofExcept _)
      fun _ ↦ maintains_pure _
  | update table assignments selection =>
    cases table with
    | table name => exact hI.changeRows
    | other => exact maintains_throw _
  | delete fromTables selection =>
    rcases fromTables with - | ⟨name | _, rest⟩
    · exact maintains_throw _
    · exact hI.changeRows
    · exact maintains_throw _
  | other => exact maintains_throw _

end OffStore

theorem offStore_touches : OffStore conn (Touches conn e) where
  congr hu _ hactive := hu.congr hactive
  buffer hu htx key data := hu.buffer htx key data
  closed hu := hu.closed

theorem touches_storeNextId {t : Bytes} {schema : TableSchema} (nextId : Nat) :
    Maintains (Touches conn e) (storeNextId rt t schema nextId) := by
  unfold storeNextId
  split
  · exact maintains_bind (maintains_modify fun _ hu ↦ hu.congr rfl) fun _ ↦
      maintains_bind offStore_touches.schemasRecord fun _ ↦ offStore_touches.enqueue _ _
  · exact maintains_pure _

theorem touches_handleInsert {t : Bytes} (source : Query) :
    Maintains (Touches conn e) (handleInsert rt t source conn) := by
  refine maintains_bind maintains_get fun _ ↦ maintains_bind (maintains_ofExcept _) fun schema ↦ ?_
  split
  · exact maintains_bind (maintains_fold _ offStore_touches.insertRow) fun acc ↦
      maintains_bind (maintains_forEach fun entry ↦ offStore_touches.enqueue _ _) fun _ ↦
        maintains_bind (touches_storeNextId _) fun _ ↦ maintains_pure _
  · exact maintains_throw _

theorem touches_createTable (name : Bytes) (columns : List ColumnDef) :
    Maintains (Touches conn e) (createTable rt name columns) :=
  maintains_bind (maintains_modify fun _ hu ↦ hu.congr rfl) fun _ ↦
    maintains_bind offStore_touches.schemasRecord fun _ ↦
      maintains_bind (offStore_touches.insertTree _ _) fun _ ↦ maintains_pure _

theorem touches_executeStatement (stmt : Statement) :
    Maintains (Touches conn e) (executeStatement rt stmt conn) :=
  offStore_touches.executeStatement stmt (fun name columns _ ↦ touches_createTable name columns)
    fun _ _ _ ↦ touches_handleInsert

end

/-- **A command other than `BEGIN`** touches the transaction under its own number only, and opens
none. -/
theorem touches_execute (h : command ≠ .begin) (e : Engine) :
    Touches conn e (execute rt command conn e).2 := by
  cases command with
  | flush => exact .refl e
  | begin => exact absurd rfl h
  | commit => exact offStore_touches.commit.state (.refl e)
  | rollback => exact (Touches.refl e).closed
  | statement stmt =>
    exact (maintains_executeRetrying (touches_executeStatement stmt) 5).state (.refl e)

end Engine

namespace System

variable [Bincode (WalEntry Bytes Data)] {rt : Runtime} {conn : Nat} {s s' : System}

/-- The threads beside the requests touch no transaction. -/
theorem activeTransactions_of_step {a : Action} (ha : a.isCall = false)
    (hstep : s.step rt a = some s') :
    s'.engine.activeTransactions = s.engine.activeTransactions := by
  cases Step.of_step hstep with
  | call conn command _ => cases ha
  | drainApply entry rest _ =>
    show (applyEntry rt s.engine entry).activeTransactions = _
    cases entry <;> rfl
  | _ => rfl

theorem activeTransactions_of_run {actions : List Action} (ha : ∀ a ∈ actions, a.isCall = false)
    (hrun : s.run rt actions = some s') :
    s'.engine.activeTransactions = s.engine.activeTransactions :=
  run_invariant (I := fun t ↦ t.engine.activeTransactions = s.engine.activeTransactions)
    (fun _ _ _ hb ht hstep ↦ (activeTransactions_of_step hb hstep).trans ht) ha rfl hrun

theorem Answered.activeTransactions (h : s.Answered rt s') :
    s'.engine.activeTransactions = s.engine.activeTransactions := by
  obtain ⟨actions, ha, hrun, -⟩ := h
  exact activeTransactions_of_run ha hrun

/-- Every command leaves the transactions under other numbers as they are. -/
theorem ExecutesCommand.others {command : Command} {r : Except EngineError Bytes}
    (h : s.ExecutesCommand rt conn command r s') {i : Nat} (hi : i ≠ conn) :
    s'.engine.activeTransactions.lookup i = s.engine.activeTransactions.lookup i := by
  obtain ⟨-, -, hanswered⟩ := h
  rw [hanswered.activeTransactions, call_engine]
  by_cases hcommand : command = .begin
  · rw [hcommand]
    exact AList.lookup_insert_ne hi
  · exact (Engine.touches_execute hcommand s.engine).others i hi

theorem ExecutesCommand.touches {command : Command} {r : Except EngineError Bytes}
    (h : s.ExecutesCommand rt conn command r s') (hcommand : command ≠ .begin) :
    Engine.Touches conn s.engine s'.engine := by
  obtain ⟨-, -, hanswered⟩ := h
  have htouches : Engine.Touches conn s.engine (s.call rt conn command).engine := by
    rw [call_engine]
    exact Engine.touches_execute hcommand s.engine
  exact htouches.congr hanswered.activeTransactions

theorem ExecutesStatements.touches : ∀ {stmts : List Statement} {s s' : System}
    {r : Except EngineError (List Bytes)}, s.ExecutesStatements rt conn stmts r s' →
      Engine.Touches conn s.engine s'.engine
  | [], _, _, _, ⟨_, hs⟩ => hs ▸ .refl _
  | stmt :: stmts, s, s', r, ⟨first, s₁, hfirst, hrest⟩ => by
    have htouches : Engine.Touches conn s.engine s₁.engine := hfirst.touches nofun
    rcases first with err | output
    · obtain ⟨-, rfl⟩ := hrest
      exact htouches
    · obtain ⟨rest, hrest, -⟩ := hrest
      have hothers := ExecutesStatements.touches hrest
      exact htouches.trans hothers

end System

namespace Frontend

variable [Bincode (WalEntry Bytes Data)] {f : Frontend} {rt : Runtime} {conn : Nat} {sql : Text}
  {s s' : System} {r : Except ExecuteError Bytes}

/-- The text is a `BEGIN`. -/
def IsBegin (f : Frontend) (sql : Text) : Prop :=
  f.upper sql.trim = "BEGIN".toList ∨ f.upper sql.trim = "BEGIN TRANSACTION".toList

instance (f : Frontend) (sql : Text) : Decidable (f.IsBegin sql) := instDecidableOr

omit [Bincode (WalEntry Bytes Data)] in
/-- No other text is taken for a `BEGIN`. -/
theorem isBegin_of_dispatch (h : f.dispatch sql = .command .begin) : f.IsBegin sql := by
  have hall : ∀ x ∈ commandTexts, x.2 = .begin →
      x.1 = "BEGIN".toList ∨ x.1 = "BEGIN TRANSACTION".toList := by decide
  unfold dispatch at h
  dsimp only at h
  split at h
  · rename_i c hc
    cases h
    obtain ⟨l₁, l₂, hsplit, -⟩ := List.lookup_eq_some_iff.1 hc
    exact hall _ (hsplit ▸ List.mem_append_right _ List.mem_cons_self) rfl
  · split at h
    · cases h
    · split at h <;> cases h

/-- **A request** is a `BEGIN`, or it touches the transaction under its own number only and opens
none. -/
theorem Executes.begins_or_touches (h : f.Executes rt conn sql s r s') :
    (f.IsBegin sql ∧ ∃ r, s.ExecutesCommand rt conn .begin r s') ∨
      Engine.Touches conn s.engine s'.engine := by
  have hanswers : s.Answered rt s' → Engine.Touches conn s.engine s'.engine := fun h ↦
    (Engine.Touches.refl s.engine).congr h.activeTransactions
  unfold Executes at h
  split at h
  · rename_i c hc
    obtain ⟨r, hexecutes, -⟩ := h
    by_cases hbegin : c = .begin
    · exact Or.inl ⟨isBegin_of_dispatch (hbegin ▸ hc), r, hbegin ▸ hexecutes⟩
    · exact Or.inr (hexecutes.touches hbegin)
  · exact Or.inr (hanswers h.2.2)
  · obtain ⟨-, _, s₁, hexecutes, -, hanswered⟩ := h
    exact Or.inr (hexecutes.touches.congr hanswered.activeTransactions)
  · exact Or.inr (hanswers h.2.2)

/-- Every request leaves the transactions under other numbers as they are. -/
theorem Executes.others (h : f.Executes rt conn sql s r s') {i : Nat} (hi : i ≠ conn) :
    s'.engine.activeTransactions.lookup i = s.engine.activeTransactions.lookup i := by
  rcases h.begins_or_touches with ⟨-, _, hexecutes⟩ | htouches
  · exact hexecutes.others hi
  · exact htouches.others i hi

end Frontend

end KsSql
