import KsSql.Parser.Isolation
import KsSql.Parser.OpenTransactions
import KsSql.Parser.Uncommitted

/-!
# Backup and hotswap

`backup_handler` of `network/server.rs` answers with the bytes of the page file, and `hotswap_handler`
puts such bytes in the place of the file: it calls `flush_pipeline`, renames the new file over the old
one and lets the pager open it. Nothing else is exchanged: the memory tier, the catalogue, the indexes,
the version counter, the open transactions and the queue stay.

So a query answers after the exchange as it did at the backup if nothing happened since then to what it
reads beside the pages (`KeepsReads`). `Quiet` says of a step that it leaves that alone, and
`hotswap_restores` that a run of such steps between the two does.
-/

namespace KsSql

open Engine

/-- Continue with another page file. -/
def Engine.withPager (e : Engine) (pager : Pager Bytes Data) : Engine :=
  { e with btree := { e.btree with pager := pager } }

/-- What `/api/backup` answers with: the page file. -/
def System.backup (s : System) : Pager Bytes Data := s.engine.btree.pager

/-- `/api/hotswap` begins, when the new file is there: its `flush_pipeline` is called. -/
def System.startSwap (s : System) : System :=
  { s with phase := phaseAfter s.engine.btree.wal { output := [], flush := true } }

/-- `/api/hotswap` ends: the pager opens the file that was renamed over the old one. -/
def System.reload (s : System) (image : Pager Bytes Data) : System :=
  { s with engine := s.engine.withPager image }

/-- The name of a table. -/
def TableFactor.name? : TableFactor → Option Bytes
  | .table name => some name
  | .other => none

namespace Engine

/-- What a query reads beside the pages stays as it is. -/
structure KeepsReads (e e' : Engine) : Prop where
  memoryTier : e'.btree.memoryTier = e.btree.memoryTier
  tables : SameTables e.schemas e'.schemas
  readVersion : ∀ conn, e'.readVersion conn = e.readVersion conn

theorem KeepsReads.refl (e : Engine) : KeepsReads e e := ⟨rfl, fun _ ↦ rfl, fun _ ↦ rfl⟩

variable {rt : Runtime} {N : Bytes → Prop} {e e₁ e₂ : Engine} {conn : Nat}

theorem KeepsReads.trans (h₁ : KeepsReads e e₁) (h₂ : KeepsReads e₁ e₂) : KeepsReads e e₂ :=
  ⟨h₂.memoryTier.trans h₁.memoryTier, fun t ↦ (h₂.tables t).trans (h₁.tables t),
    fun c ↦ (h₂.readVersion c).trans (h₁.readVersion c)⟩

/-- With the pages put back, a query answers as before. -/
theorem KeepsReads.handleQuery_withPager (h : KeepsReads e e₁) (query : Query) :
    (e₁.withPager e.btree.pager).handleQuery rt query conn = e.handleQuery rt query conn := by
  have hversion : (e₁.withPager e.btree.pager).readVersion conn = e.readVersion conn :=
    h.readVersion conn
  have htier : (e₁.withPager e.btree.pager).btree.memoryTier = e.btree.memoryTier := h.memoryTier
  exact handleQuery_congr htier rfl h.tables hversion query

/-- The command leaves alone what a query reads beside the pages: it writes to a transaction's buffer
or finds no row to write, defines a table as it is, and opens or closes no transaction with an older
snapshot. -/
def Quiet (rt : Runtime) (e : Engine) (conn : Nat) : Command → Prop
  | .flush => True
  | .begin => e.readVersion conn = e.currentVersion
  | .rollback => e.readVersion conn = e.currentVersion
  | .commit => (e.activeTransactions.lookup conn).isNone
  | .statement (.insert _ _) => (e.activeTransactions.lookup conn).isSome
  | .statement (.update table _ selection) => (e.activeTransactions.lookup conn).isSome ∨
      ∀ t ∈ table.name?, e.changedKeys rt conn t selection = []
  | .statement (.delete fromTables selection) => (e.activeTransactions.lookup conn).isSome ∨
      ∀ t ∈ fromTables.head?.bind TableFactor.name?, e.changedKeys rt conn t selection = []
  | .statement (.createTable name columns) =>
    (e.schemas.lookup name).map (fun s ↦ { s with nextId := 0 }) =
      some { newSchema rt name columns with nextId := 0 }
  | .statement (.createIndex _ t columns) =>
    ∀ column ∈ columns.head?, e.indexedKeys rt t (rt.display column) = []
  | .statement (.explain _) => True
  | .statement (.query _) => True
  | .statement (.call _) => True
  | .statement .other => True

instance : DecidablePred (Quiet rt e conn)
  | .flush => instDecidableTrue
  | .begin => Nat.decEq _ _
  | .rollback => Nat.decEq _ _
  | .commit => instDecidableEqBool _ _
  | .statement (.insert _ _) => instDecidableEqBool _ _
  | .statement (.update _ _ _) => instDecidableOr
  | .statement (.delete _ _) => instDecidableOr
  | .statement (.createTable _ _) => inferInstanceAs (Decidable (_ = _))
  | .statement (.createIndex _ t columns) => inferInstanceAs
      (Decidable (∀ column ∈ columns.head?, e.indexedKeys rt t (rt.display column) = []))
  | .statement (.explain _) => instDecidableTrue
  | .statement (.query _) => instDecidableTrue
  | .statement (.call _) => instDecidableTrue
  | .statement .other => instDecidableTrue

/-! ### What a command keeps -/

/-- An `UPDATE` or a `DELETE` that finds no row does nothing. -/
theorem changeRows_eq_of_changedKeys {verb : String} {notFound : EngineError}
    {change : Record → Except EngineError Record} {t : Bytes} {selection : Option Expr}
    (h : e.changedKeys rt conn t selection = []) :
    (changeRows rt verb notFound change t selection conn e).2 = e := by
  have hwp : Effect.wp (changeRows rt verb notFound change t selection conn) (fun _ u ↦ u = e)
      (fun _ u ↦ u = e) e := by
    refine Effect.wp_bind (Effect.wp_get (Effect.wp_bind (Effect.wp_ofExcept (fun rows hrows ↦ ?_)
      fun _ _ ↦ rfl)))
    rw [changedKeys, hrows] at h
    dsimp only at h
    simp only [h]
    exact Effect.wp_bind (Effect.wp_pure (Effect.wp_bind (Effect.wp_get (Effect.wp_pure rfl))))
  exact Effect.state_of_wp (I := (· = e)) hwp

/-- A `CREATE INDEX` that finds no row with the column changes the indexes only. -/
theorem createIndex_eq_of_indexedKeys {name : Option Bytes} {t : Bytes} {columns : List Expr}
    (h : ∀ column ∈ columns.head?, e.indexedKeys rt t (rt.display column) = []) :
    ∃ indices, (createIndex rt name t columns conn e).2 = { e with indices := indices } := by
  have hwp : Effect.wp (createIndex rt name t columns conn)
      (fun _ u ↦ ∃ indices, u = { e with indices := indices })
      (fun _ u ↦ ∃ indices, u = { e with indices := indices }) e := by
    refine Effect.wp_bind (Effect.wp_ofExcept (fun column hcolumn ↦ ?_) fun _ _ ↦ ⟨e.indices, rfl⟩)
    obtain ⟨first, rest, rfl, rfl⟩ :
        ∃ first rest, columns = first :: rest ∧ rt.display first = column := by
      rcases columns with - | ⟨first, rest⟩
      · cases hcolumn
      · exact ⟨first, rest, rfl, Except.ok.inj hcolumn⟩
    refine Effect.wp_bind (Effect.wp_modify (Effect.wp_bind (Effect.wp_get (Effect.wp_bind
      (Effect.wp_ofExcept (fun rows hrows ↦ ?_) fun _ _ ↦ ⟨_, rfl⟩)))))
    have hscan : e.scanTable rt t e.currentVersion = .ok rows := hrows
    have hnone := h first rfl
    rw [indexedKeys, hscan] at hnone
    refine Effect.wp_bind (Effect.wp_forEach
      (fun _ u ↦ ∃ indices, u = { e with indices := indices }) ⟨_, rfl⟩
      (fun done row rest' hsplit u hu ↦ ?_) fun u hu ↦ Effect.wp_pure hu)
    split
    · rename_i val key hval hkey
      have hmem : row ∈ rows := hsplit ▸ List.mem_append_right _ List.mem_cons_self
      have hindexed := List.filterMap_eq_nil_iff.1 hnone row hmem
      rw [indexedKey, hval, hkey] at hindexed
      cases hindexed
    · exact Effect.wp_pure hu
  exact Effect.state_of_wp (I := fun u ↦ ∃ indices, u = { e with indices := indices }) hwp

/-- An insertion into the tree. -/
theorem wp_insertTree_keeps (h : KeepsReads e e₁) (key : Bytes) (data : Data) :
    Effect.wp (insertTree rt key data) (fun _ ↦ KeepsReads e) (fun _ ↦ KeepsReads e) e₁ := by
  have hframe := (BPlusTree.insert_frame rt.search e₁.btree key data).memoryTier
  have hkeeps : ∀ btree, btree.memoryTier = e₁.btree.memoryTier →
      KeepsReads e { e₁ with btree := btree } := fun _ heq ↦
    ⟨heq.trans h.memoryTier, h.tables, h.readVersion⟩
  unfold Effect.wp insertTree
  rcases hrun : e₁.btree.insert rt.search key data with ⟨err | u, btree⟩
  · rw [hrun] at hframe
    exact hkeeps btree hframe
  · rw [hrun] at hframe
    exact hkeeps btree hframe

/-- A `CREATE TABLE` of a table that is there already, with the same columns. -/
theorem createTable_keeps {name : Bytes} {columns : List ColumnDef}
    (h : SameTables e.schemas (e.schemas.insert name (newSchema rt name columns))) :
    KeepsReads e (createTable rt name columns e).2 := by
  have hkeeps : KeepsReads e (tick { e with
      schemas := e.schemas.insert name (newSchema rt name columns) }) := ⟨rfl, h, fun _ ↦ rfl⟩
  have hwp : Effect.wp (createTable rt name columns) (fun _ ↦ KeepsReads e) (fun _ ↦ KeepsReads e)
      e := by
    refine Effect.wp_bind (Effect.wp_modify (Effect.wp_bind (Effect.wp_bind (Effect.wp_get
      (Effect.wp_bind (Effect.wp_modify (Effect.wp_pure (Effect.wp_bind ?_))))))))
    exact Effect.wp_mono (wp_insertTree_keeps hkeeps _ _) (fun _ _ hu ↦ Effect.wp_pure hu)
      fun _ _ hu ↦ hu
  exact Effect.state_of_wp hwp

/-- A table defined as it is. -/
theorem sameTables_insert {schemas schemas' : HashMap Bytes TableSchema} {name : Bytes}
    {schema : TableSchema} (h : (schemas.lookup name).map (fun s ↦ { s with nextId := 0 }) =
      some { schema with nextId := 0 }) (hsame : SameTables schemas schemas') :
    SameTables schemas' (schemas'.insert name schema) := by
  intro t
  by_cases ht : t = name
  · rw [ht, AList.lookup_insert, hsame name, h]
    rfl
  · rw [AList.lookup_insert_ne ht]

/-- **A quiet command** keeps what a query reads beside the pages. -/
theorem Quiet.keeps {command : Command} (h : e.Quiet rt conn command) (hinv : e.Inv rt N)
    (hcolumns : command.ColumnsIn N) : KeepsReads e (execute rt command conn e).2 := by
  have hprog : Progress rt N command conn e _ := progress_execute hinv hcolumns
  -- in a transaction the rows go to its buffer
  have hopen : (e.activeTransactions.lookup conn).isSome →
      command.writeKind = some .insert ∨ command.writeKind = some .change →
        KeepsReads e (execute rt command conn e).2 := by
    intro hsome hkind
    obtain ⟨tx, htx⟩ := Option.isSome_iff_exists.1 hsome
    obtain ⟨hsame, tx', htx', hversion⟩ := hprog.untouched htx hkind
    refine ⟨hsame.memoryTier, hsame.tables, fun c ↦ ?_⟩
    by_cases hc : c = conn
    · rw [hc, readVersion, readVersion, htx, htx']
      exact hversion
    · rw [readVersion, readVersion, hsame.transactions c hc, hsame.currentVersion]
  -- outside transactions, with no row selected
  have hfound : ∀ (stmt : Statement) {verb : String} {notFound : EngineError}
      {change : Record → Except EngineError Record} {t : Bytes} {selection : Option Expr},
      executeStatement rt stmt conn = changeRows rt verb notFound change t selection conn →
      e.changedKeys rt conn t selection = [] →
        (executeRetrying rt stmt conn 5 e).2 = e := by
    intro stmt verb notFound change t selection hstmt hnone
    refine executeRetrying_invariant (I := (· = e)) (fun u hu ↦ ?_) 5 rfl
    rw [hu, hstmt]
    exact changeRows_eq_of_changedKeys hnone
  -- a statement that changes nothing at all
  have hnothing : ∀ {stmt : Statement}, (∀ u, (executeStatement rt stmt conn u).2 = u) →
      KeepsReads e (executeRetrying rt stmt conn 5 e).2 := by
    intro stmt hstmt
    have heq : (executeRetrying rt stmt conn 5 e).2 = e :=
      executeRetrying_invariant (I := (· = e)) (fun u hu ↦ (hstmt u).trans hu) 5 rfl
    rw [heq]
    exact .refl e
  cases command with
  | flush => exact .refl e
  | begin =>
    refine ⟨rfl, fun _ ↦ rfl, fun c ↦ ?_⟩
    show (e.opened conn).readVersion c = _
    by_cases hc : c = conn
    · rw [hc, readVersion, opened, AList.lookup_insert]
      exact h.symm
    · rw [readVersion, readVersion, opened, AList.lookup_insert_ne hc]
  | commit =>
    have heq : execute rt .commit conn e = (.error .noActiveTransaction, e) := by
      rw [execute, commit, Effect.get_bind, Option.isNone_iff_eq_none.1 h]
      rfl
    rw [heq]
    exact .refl e
  | rollback =>
    refine ⟨rfl, fun _ ↦ rfl, fun c ↦ ?_⟩
    show (e.closed conn).readVersion c = _
    by_cases hc : c = conn
    · rw [hc, readVersion, closed, AList.lookup_erase]
      exact h.symm
    · rw [readVersion, readVersion, closed, AList.lookup_erase_ne hc]
  | statement stmt =>
    cases stmt with
    | insert t source => exact hopen h (Or.inl rfl)
    | update table assignments selection =>
      rcases h with h | h
      · exact hopen h (Or.inr rfl)
      · rcases table with t | _
        · have heq := hfound (.update (.table t) assignments selection) rfl (h t rfl)
          show KeepsReads e (executeRetrying rt _ conn 5 e).2
          rw [heq]
          exact .refl e
        · exact hnothing fun _ ↦ rfl
    | delete fromTables selection =>
      rcases h with h | h
      · exact hopen h (Or.inr rfl)
      · rcases fromTables with - | ⟨t | _, rest⟩
        · exact hnothing fun _ ↦ rfl
        · have heq := hfound (.delete (.table t :: rest) selection) rfl (h t rfl)
          show KeepsReads e (executeRetrying rt _ conn 5 e).2
          rw [heq]
          exact .refl e
        · exact hnothing fun _ ↦ rfl
    | createTable name columns =>
      refine executeRetrying_invariant (I := KeepsReads e) (fun u hu ↦ ?_) 5 (.refl e)
      exact hu.trans (createTable_keeps (sameTables_insert h hu.tables))
    | createIndex name t columns =>
      have hindices : ∃ indices, (executeRetrying rt (.createIndex name t columns) conn 5 e).2 =
          { e with indices := indices } := by
        refine executeRetrying_invariant (I := fun u ↦ ∃ indices, u = { e with indices := indices })
          (fun u hu ↦ ?_) 5 ⟨e.indices, rfl⟩
        obtain ⟨indices, rfl⟩ := hu
        exact createIndex_eq_of_indexedKeys (e := { e with indices := indices }) h
      obtain ⟨indices, heq⟩ := hindices
      show KeepsReads e (executeRetrying rt _ conn 5 e).2
      rw [heq]
      exact ⟨rfl, fun _ ↦ rfl, fun _ ↦ rfl⟩
    | explain statement => exact hnothing fun _ ↦ rfl
    | query q =>
      refine hnothing fun u ↦ Effect.state_of_wp (I := (· = u)) ?_
      exact Effect.wp_bind (Effect.wp_get (Effect.wp_bind (Effect.wp_ofExcept
        (fun _ _ ↦ Effect.wp_pure rfl) fun _ _ ↦ rfl)))
    | call modulePath =>
      exact hnothing fun u ↦ Effect.state_of_wp (I := (· = u)) (Effect.wp_ofExcept (fun _ _ ↦ rfl)
        fun _ _ ↦ rfl)
    | other => exact hnothing fun _ ↦ rfl

end Engine

namespace System

variable [Bincode (WalEntry Bytes Data)] {rt : Runtime} {N : Bytes → Prop} {s s₁ s' : System}

/-- The step leaves alone what a query reads beside the pages. -/
def Quiet (rt : Runtime) (s : System) : Action → Prop
  | .call conn command => s.engine.Quiet rt conn command
  | .evict keys => ∀ key ∈ keys,
      key ∉ s.engine.btree.memoryTier.cache ∧ key ∉ s.engine.btree.memoryTier.lru
  | .purge => s.engine.btree.memoryTier.cache = ∅ ∧ s.engine.btree.memoryTier.lru = ∅
  | _ => True

instance : DecidablePred (s.Quiet rt)
  | .call conn command => inferInstanceAs (Decidable (s.engine.Quiet rt conn command))
  | .evict keys => inferInstanceAs (Decidable (∀ key ∈ keys,
      key ∉ s.engine.btree.memoryTier.cache ∧ key ∉ s.engine.btree.memoryTier.lru))
  | .purge => instDecidableAnd
  | .flushRound | .discardRound | .drainPop | .drainStart | .drainApply | .writeBatch =>
    instDecidableTrue

/-- `/api/hotswap` with a new page file. Its `flush_pipeline` takes its steps, and the other threads
theirs, each of them with the property. -/
def Hotswaps (rt : Runtime) (P : System → Action → Prop) (s : System) (image : Pager Bytes Data)
    (s' : System) : Prop :=
  s.phase = .idle ∧ ∃ actions s₁, s.startSwap.run rt actions = some s₁ ∧ s.startSwap.Along rt P actions ∧
    s₁.phase = .idle ∧ s' = s₁.reload image

omit [Bincode (WalEntry Bytes Data)] in
/-- The drain thread changes pages only. -/
theorem keeps_applyEntry (e : Engine) : ∀ entry, Engine.KeepsReads e (applyEntry rt e entry)
  | .recordUpdate key data =>
    ⟨(BPlusTree.insert_frame rt.search e.btree key data).memoryTier, fun _ ↦ rfl, fun _ ↦ rfl⟩
  | .pageUpdate _ _ => .refl e
  | .transactionStart _ => .refl e
  | .transactionCommit _ _ _ => .refl e
  | .transactionRollback _ => .refl e

omit [Bincode (WalEntry Bytes Data)] in
/-- The removal of keys that are not there. -/
theorem foldl_remove_of_not_mem {tier : MemoryTier Bytes Data} : ∀ {keys : List Bytes},
    (∀ key ∈ keys, key ∉ tier.cache ∧ key ∉ tier.lru) →
      keys.foldl (fun tier key ↦ tier.remove key) tier = tier
  | [], _ => rfl
  | key :: keys, h => by
    obtain ⟨hcache, hlru⟩ := h key List.mem_cons_self
    have hremove : tier.remove key = tier := by
      rw [MemoryTier.remove, HashMap.erase_of_not_mem hcache, HashMap.erase_of_not_mem hlru]
    rw [List.foldl_cons, hremove]
    exact foldl_remove_of_not_mem fun k hk ↦ h k (List.mem_cons_of_mem key hk)

/-- **A quiet step** keeps what a query reads beside the pages. -/
theorem Quiet.keeps {a : Action} (h : s.Quiet rt a) (hinv : s.Inv rt N) (ha : a.ColumnsIn N)
    (hstep : s.step rt a = some s') : Engine.KeepsReads s.engine s'.engine := by
  cases Step.of_step hstep with
  | call conn command _ =>
    rw [call_engine]
    exact Engine.Quiet.keeps h hinv.engine ha
  | drainApply entry rest _ => exact keeps_applyEntry s.engine entry
  | evict keys => exact ⟨foldl_remove_of_not_mem h, fun _ ↦ rfl, fun _ ↦ rfl⟩
  | purge =>
    obtain ⟨hcache, hlru⟩ := h
    refine ⟨?_, fun _ ↦ rfl, fun _ ↦ rfl⟩
    show s.engine.btree.memoryTier.clear = s.engine.btree.memoryTier
    rw [MemoryTier.clear, ← hcache, ← hlru]
  | _ => exact ⟨rfl, fun _ ↦ rfl, fun _ ↦ rfl⟩

/-- **A run of quiet steps** keeps what a query reads beside the pages. -/
theorem keeps_of_run {actions : List Action} (hinv : s.Inv rt fun _ ↦ True)
    (hquiet : s.Along rt (Quiet rt) actions) (hrun : s.run rt actions = some s') :
    s'.Inv rt (fun _ ↦ True) ∧ Engine.KeepsReads s.engine s'.engine :=
  run_along (I := fun t ↦ t.Inv rt (fun _ ↦ True) ∧ Engine.KeepsReads s.engine t.engine)
    (P := fun _ ↦ True)
    (fun _ a _ _ hq ht hstep ↦ ⟨(step_inv a.columnsIn_true ht.1 hstep).1,
      ht.2.trans (hq.keeps ht.1 a.columnsIn_true hstep)⟩)
    (fun _ _ ↦ trivial) hquiet ⟨hinv, .refl s.engine⟩ hrun

/-- **A backup put back** makes every query answer as it did, if no step since the backup touched what
a query reads beside the pages. -/
theorem hotswap_restores {before after : List Action} (hbefore : start.run rt before = some s)
    (hafter : s.run rt after = some s₁) (hquiet : s.Along rt (Quiet rt) after)
    (hswap : s₁.Hotswaps rt (Quiet rt) s.backup s') (query : Query) (conn : Nat) :
    s'.engine.handleQuery rt query conn = s.engine.handleQuery rt query conn := by
  obtain ⟨-, actions, s₂, hrun, hquiet', -, rfl⟩ := hswap
  obtain ⟨hinv₁, hkeeps₁⟩ := keeps_of_run (inv_of_run (fun a _ ↦ a.columnsIn_true) hbefore) hquiet
    hafter
  have hinv : s₁.startSwap.Inv rt fun _ ↦ True := ⟨hinv₁.engine, hinv₁.drained⟩
  obtain ⟨-, hkeeps₂⟩ := keeps_of_run hinv hquiet' hrun
  exact (hkeeps₁.trans hkeeps₂).handleQuery_withPager query

/-- A row is inserted, and the drain thread takes it from the queue. -/
def insertedRow : List Action :=
  [.call 1 (createTableOf "u" ["id"]), .call 1 (insertOf "u" ["2"]), .drainPop, .drainPop, .flushRound]

/-- The row reaches the tree, and a transaction is rolled back. -/
def quietSteps : List Action :=
  [.drainStart, .drainApply, .drainApply, .drainApply, .call 2 .begin, .call 2 (insertOf "u" ["3"]),
    .flushRound, .flushRound, .call 2 .rollback]

omit [Bincode (WalEntry Bytes Data)] in
/-- The pages of the backup are put back, without the row, which is found in the memory tier. -/
theorem hotswap_restores_quietSteps : let _ := plainBincode []
    ∃ s s₁ s', start.run .plain insertedRow = some s ∧ s.run .plain quietSteps = some s₁ ∧
      s₁.Hotswaps .plain (Quiet .plain) s.backup s' ∧
      (s₁.engine.btree.pager.pages 0).keys ≠ (s.engine.btree.pager.pages 0).keys ∧
      ∀ query conn, s'.engine.handleQuery .plain query conn =
        s.engine.handleQuery .plain query conn := by
  let _ := plainBincode []
  obtain ⟨s, hs⟩ : ∃ s, start.run .plain insertedRow = some s :=
    Option.isSome_iff_exists.1 (by decide +kernel)
  have hall : (start.run .plain insertedRow).all (fun s ↦ (s.run .plain quietSteps).any fun s₁ ↦
      decide (s.Along .plain (Quiet .plain) quietSteps ∧ s₁.phase = .idle ∧
        s₁.startSwap.phase = .idle ∧ (s₁.engine.btree.pager.pages 0).keys ≠
          (s.engine.btree.pager.pages 0).keys)) = true := by decide +kernel
  rw [hs, Option.all_some] at hall
  obtain ⟨s₁, hs₁, hfacts⟩ := (Option.any_eq_true _ _).1 hall
  obtain ⟨hquiet, hidle, hidle', hdiffer⟩ := of_decide_eq_true hfacts
  have hswap : s₁.Hotswaps .plain (Quiet .plain) s.backup (s₁.startSwap.reload s.backup) :=
    ⟨hidle, [], s₁.startSwap, rfl, trivial, hidle', rfl⟩
  exact ⟨s, s₁, _, hs, hs₁, hswap, hdiffer, hotswap_restores hs hs₁ hquiet hswap⟩

omit [Bincode (WalEntry Bytes Data)] in
/-- **A backup put back leaves later rows.** A row that was inserted after the backup is found after the
hotswap: it is still in the memory tier. -/
theorem not_hotswap_restores : ¬ ∀ (_ : Bincode (WalEntry Bytes Data)) (rt : Runtime)
    (before after : List Action) (s s₁ s' : System), start.run rt before = some s → s.phase = .idle →
      s.run rt after = some s₁ → s₁.Hotswaps rt (fun _ _ ↦ True) s.backup s' →
      ∀ (query : Query) (conn : Nat),
        s'.engine.handleQuery rt query conn = s.engine.handleQuery rt query conn := by
  intro hclaim
  let _ := plainBincode []
  obtain ⟨s, hs⟩ : ∃ s, start.run .plain [.call 1 (createTableOf "u" ["id"])] = some s :=
    Option.isSome_iff_exists.1 (by decide +kernel)
  have hall : (start.run .plain [.call 1 (createTableOf "u" ["id"])]).all (fun s ↦ (s.run .plain
      [.call 1 (insertOf "u" ["2"]), .drainPop, .drainPop, .flushRound]).any fun s₁ ↦
        decide (s.phase = .idle ∧ s₁.phase = .idle ∧ s₁.startSwap.phase = .idle ∧
          ((s₁.startSwap.reload s.backup).engine.handleQuery .plain (selectOf "u" none) 1).toOption ≠
            (s.engine.handleQuery .plain (selectOf "u" none) 1).toOption)) = true := by
    decide +kernel
  rw [hs, Option.all_some] at hall
  obtain ⟨s₁, hs₁, hfacts⟩ := (Option.any_eq_true _ _).1 hall
  obtain ⟨hidle, hidle₁, hidle', hdiffer⟩ := of_decide_eq_true hfacts
  exact hdiffer (congrArg Except.toOption (hclaim _ .plain _ _ s s₁ _ hs hidle hs₁
    ⟨hidle₁, [], s₁.startSwap, rfl, trivial, hidle', rfl⟩ (selectOf "u" none) 1))

end System

end KsSql
