import KsSql.Parser.LiveRows
import KsSql.Parser.PlainRuntime

/-!
# A commit that fails

`COMMIT` checks the buffered keys, increments the version counter, and then installs the writes one by
one: each goes to the memory tier first and then to the queue, which may refuse it. A check that fails
leaves everything as it was (`wp_validate`), and a refusal leaves the write that was refused, and all
before it, in the memory tier (`wp_installKeys`). So a failing commit is without effect if and only if
it was rejected, or the queue had a place for every write (`commit_atomic_iff`).
-/

namespace KsSql

namespace Engine

variable {rt : Runtime} {N : Bytes → Prop} {e e' : Engine} {conn version : Nat} {tx : Transaction}

/-- The check of `COMMIT` fails on the key. -/
def RejectsKey (rt : Runtime) (e : Engine) (tx : Transaction) (key : Bytes) : Prop :=
  ∃ data, e.fetch rt key = .ok (some data) ∧
    ∀ record, rt.decodeRecord data = .ok record → tx.snapshotVersion < record.version

/-- The check of `COMMIT` fails on a buffered key. -/
def Rejects (rt : Runtime) (e : Engine) (tx : Transaction) : Prop :=
  ∃ key ∈ tx.updates.keys, e.RejectsKey rt tx key

/-- The queue has a place for each of the next `n` entries. -/
def FindsRoom (e : Engine) (n : Nat) : Prop := ∀ i < n, e.btree.wal.queue.length + i < queueCapacity

/-- No write of the transaction, with the version of a commit in the given state, is in the memory
tier, in the queue or on the leaf chain. -/
structure NoneWritten (e : Engine) (tx : Transaction) (e' : Engine) : Prop where
  tier : ∀ key r, tx.updates.lookup key = some (.record r) →
    e'.btree.memoryTier.get key ≠ some (.record { r with version := e.bump.currentVersion })
  queue : ∀ key r, tx.updates.lookup key = some (.record r) →
    .recordUpdate key (.record { r with version := e.bump.currentVersion }) ∉ e'.btree.wal.queue
  tree : ∀ key r, tx.updates.lookup key = some (.record r) →
    (key, .record { r with version := e.bump.currentVersion }) ∉ e'.btree.leafEntries

/-! ### The checks -/

/-- The checks change nothing. They fail if one of the keys is rejected. -/
theorem wp_validate (hfetch : ∀ key, ∃ data, e.fetch rt key = .ok data) (keys : List Bytes) :
    Effect.wp (Effect.forEach keys (validateKey rt tx))
      (fun _ t ↦ t = e ∧ ∀ key ∈ keys, ¬ e.RejectsKey rt tx key)
      (fun _ t ↦ t = e ∧ ∃ key ∈ keys, e.RejectsKey rt tx key) e := by
  refine Effect.wp_forEach (fun done t ↦ t = e ∧ ∀ key ∈ done, ¬ e.RejectsKey rt tx key)
    ⟨rfl, fun _ h ↦ (nomatch h)⟩ ?_ fun _ h ↦ h
  rintro done key rest hkeys t ⟨rfl, hdone⟩
  have hmem : key ∈ keys := hkeys ▸ List.mem_append_right _ List.mem_cons_self
  have hpass : ¬ t.RejectsKey rt tx key →
      t = t ∧ ∀ k ∈ done ++ [key], ¬ t.RejectsKey rt tx k := by
    refine fun hkey ↦ ⟨rfl, fun k hk ↦ ?_⟩
    rcases List.mem_append.1 hk with hk | hk
    · exact hdone k hk
    · exact List.mem_singleton.1 hk ▸ hkey
  obtain ⟨data, hdata⟩ := hfetch key
  refine Effect.wp_bind ?_
  unfold Effect.wp fetchKey
  rw [hdata]
  rcases data with - | data
  · refine hpass ?_
    rintro ⟨d, hd, -⟩
    rw [hdata] at hd
    cases hd
  · refine Effect.wp_bind (Effect.wp_ofExcept (fun record hrecord ↦ ?_) fun err herr ↦ ?_)
    · split
      · rename_i hnewer
        refine Effect.wp_throw ⟨rfl, key, hmem, data, hdata, fun record' hrecord' ↦ ?_⟩
        rw [hrecord] at hrecord'
        cases hrecord'
        exact hnewer
      · rename_i hnewer
        refine Effect.wp_pure (hpass ?_)
        rintro ⟨d, hd, hreject⟩
        rw [hdata] at hd
        cases hd
        exact hnewer (hreject record hrecord)
    · refine ⟨rfl, key, hmem, data, hdata, fun record' hrecord' ↦ ?_⟩
      rw [herr] at hrecord'
      cases hrecord'

/-! ### The installation -/

/-- The installation fails when the queue is full, and the write that it refuses is then in the memory
tier. -/
theorem wp_installKeys (updates : List (Bytes × Data))
    (hupdates : ∀ update ∈ updates, ∃ r, update.2 = .record r) :
    Effect.wp (Effect.forEach updates (installKey rt conn version))
      (fun _ _ ↦ e.FindsRoom updates.length)
      (fun _ t ↦ ¬ e.FindsRoom updates.length ∧ ∃ update ∈ updates, ∃ r, update.2 = .record r ∧
        t.btree.memoryTier.get update.1 = some (.record { r with version := version })) e := by
  refine Effect.wp_forEach
    (fun done t ↦ t.btree.wal.queue.length = e.btree.wal.queue.length + done.length ∧
      e.FindsRoom done.length) ⟨rfl, fun _ h ↦ absurd h (Nat.not_lt_zero _)⟩ ?_ fun _ h ↦ h.2
  rintro done update rest hsplit t ⟨hqueue, hroom⟩
  have hmem : update ∈ updates := hsplit ▸ List.mem_append_right _ List.mem_cons_self
  obtain ⟨r, hr⟩ := hupdates update hmem
  refine Effect.wp_bind (Effect.wp_ofExcept (fun record hrecord ↦ ?_) fun err herr ↦ ?_)
  · obtain rfl : r = record := by
      rw [hr] at hrecord
      exact Except.ok.inj hrecord
    refine Effect.wp_bind (Effect.wp_modify (wp_enqueue (fun hplace ↦ ?_) fun hfull ↦ ?_))
    · refine ⟨?_, fun i hi ↦ ?_⟩
      · show (t.btree.wal.queue ++ [_]).length = _
        rw [List.length_append, hqueue, List.length_append, Nat.add_assoc]
        rfl
      · rw [List.length_append, List.length_singleton] at hi
        rcases Nat.lt_succ_iff_lt_or_eq.1 hi with hi | rfl
        · exact hroom i hi
        · rwa [← hqueue]
    · refine ⟨fun hall ↦ hfull ?_, update, hmem, r, hr, AList.lookup_insert _⟩
      show t.btree.wal.queue.length < queueCapacity
      rw [hqueue]
      refine hall done.length ?_
      rw [hsplit, List.length_append, List.length_cons]
      omega
  · rw [hr] at herr
    cases herr

/-! ### The commit -/

/-- What is stored in a coherent state is not newer than its version. -/
theorem Coherent.noneWritten (h : e.Coherent rt N) (hversion : e.currentVersion + 1 < 2 ^ 64) :
    e.NoneWritten tx e := by
  have hbump : e.bump.currentVersion = e.currentVersion + 1 := Nat.mod_eq_of_lt hversion
  have hold : ∀ key (r : Record), ¬ e.Known N key (.record { r with version := e.bump.currentVersion }) := by
    intro key r hknown
    have hle : e.bump.currentVersion ≤ e.currentVersion := (h.legit_of_known hknown).1 _ rfl
    omega
  refine ⟨fun key r _ hget ↦ hold key r (h.known_of_tier hget), fun key r _ hmem ↦ ?_,
    fun key r _ hmem ↦ ?_⟩
  · exact hold key r (h.known _ _ (h.queued _ hmem))
  · exact hold key r (h.known_of_entries (List.mem_append_right _ hmem))

/-- **A commit fails** without effect on a rejected key, or with an effect when the queue is full. -/
theorem wp_commit (h : e.Coherent rt N) (hopen : e.activeTransactions.lookup conn = some tx) :
    Effect.wp (commit rt conn)
      (fun _ _ ↦ ¬ e.Rejects rt tx ∧ e.FindsRoom tx.updates.size)
      (fun _ t ↦ e.Rejects rt tx ∧ t = e.closed conn ∨
        ¬ e.Rejects rt tx ∧ ¬ e.FindsRoom tx.updates.size ∧ ¬ e.NoneWritten tx t) e := by
  have hfetch : ∀ key, ∃ data, (e.closed conn).fetch rt key = .ok data := by
    intro key
    obtain ⟨data, hdata, -⟩ := h.closed.fetch key
    exact ⟨data, hdata⟩
  have hperm := rt.iterate_perm tx.updates
  have hkeys : (∃ key ∈ (rt.iterate tx.updates).map Prod.fst, (e.closed conn).RejectsKey rt tx key) ↔
      e.Rejects rt tx := by
    refine exists_congr fun key ↦ and_congr_left fun _ ↦ ?_
    rw [(hperm.map Prod.fst).mem_iff, HashMap.map_fst_toList]
  have hsize : (rt.iterate tx.updates).length = tx.updates.size := by
    rw [hperm.length_eq, HashMap.toList, List.length_map]
    rfl
  refine Effect.wp_bind (Effect.wp_get ?_)
  rw [hopen]
  refine Effect.wp_bind (Effect.wp_modify (f := closed conn) (Effect.wp_bind
    (Effect.wp_mono (wp_validate hfetch _) ?_ ?_)))
  · rintro - t ⟨rfl, hpass⟩
    have hpass : ¬ e.Rejects rt tx := by
      intro hreject
      obtain ⟨key, hmem, hkey⟩ := hkeys.2 hreject
      exact hpass key hmem hkey
    refine Effect.wp_bind (Effect.wp_modify (Effect.wp_bind (Effect.wp_get (Effect.wp_bind
      (Effect.wp_mono (wp_installKeys (rt.iterate tx.updates) fun update hupdate ↦ ?_) ?_ ?_)))))
    · obtain ⟨⟨r, hr, -⟩, -⟩ := h.buffered conn tx hopen update.1 update.2 (mem_iterate_iff.1 hupdate)
      exact ⟨r, hr⟩
    · exact fun _ _ hroom ↦ Effect.wp_pure ⟨hpass, hsize ▸ hroom⟩
    · rintro err t ⟨hroom, update, hupdate, r, hr, hget⟩
      refine Or.inr ⟨hpass, fun hall ↦ hroom (hsize.symm ▸ hall), fun hnone ↦ ?_⟩
      exact hnone.tier update.1 r (hr ▸ mem_iterate_iff.1 hupdate) hget
  · rintro err t ⟨rfl, hreject⟩
    exact Or.inl ⟨hkeys.1 hreject, rfl⟩

end Engine

open Engine

/-- **A failing commit is without effect** in the memory tier, the queue and the tree if and only if
the commit is rejected by its checks, or the queue has a place for each of its writes. -/
theorem commit_atomic_iff [Bincode (WalEntry Bytes Data)] {rt : Runtime} {actions : List Action}
    {s : System} (hrun : System.start.run rt actions = some s) (hbounded : s.engine.Bounded)
    (hversion : s.engine.currentVersion + 1 < 2 ^ 64) {conn : Nat} {tx : Transaction}
    (hopen : s.engine.activeTransactions.lookup conn = some tx) :
    (∀ err e', execute rt .commit conn s.engine = (.error err, e') → s.engine.NoneWritten tx e') ↔
      s.engine.Rejects rt tx ∨ s.engine.FindsRoom tx.updates.size := by
  have h := System.coherent_of_run hrun hbounded
  have hwp := wp_commit h hopen
  unfold Effect.wp at hwp
  rw [execute]
  rcases hcommit : commit rt conn s.engine with ⟨err | reply, e'⟩ <;> rw [hcommit] at hwp
  · constructor
    · intro hnone
      rcases hwp with ⟨hreject, -⟩ | ⟨-, -, hwritten⟩
      · exact Or.inl hreject
      · exact absurd (hnone err e' rfl) hwritten
    · rintro hcond err' t heq
      cases heq
      rcases hwp with ⟨-, rfl⟩ | ⟨hpass, hroom, -⟩
      · have hnone : s.engine.NoneWritten tx s.engine := h.noneWritten hversion
        exact ⟨hnone.tier, hnone.queue, hnone.tree⟩
      · exact absurd hcond (not_or.2 ⟨hpass, hroom⟩)
  · exact ⟨fun _ ↦ Or.inr hwp.2, fun _ err t heq ↦ nomatch (Prod.mk.inj heq).1⟩

/-! ### A full queue -/

namespace Engine

variable {rt : Runtime} {e : Engine} {conn : Nat}

/-- What an `INSERT` that finds the queue full leaves as it was. -/
structure Filled (e t : Engine) : Prop where
  transactions : t.activeTransactions = e.activeTransactions
  currentVersion : t.currentVersion = e.currentVersion
  bumps : t.history.bumps = e.history.bumps
  pager : t.btree.pager = e.btree.pager

theorem wp_insertRows {t : Bytes} {schema : TableSchema} {rows : List (List Expr)} {acc : Inserting}
    (htx : e.activeTransactions.lookup conn = none) :
    Effect.wp (Effect.fold (insertRow rt t schema conn) rows acc)
      (fun acc' e' ↦ rows.length ≤ acc'.walEntries.length ∧ Filled e e' ∧
        e'.btree.wal = e.btree.wal)
      (fun _ _ ↦ False) e := by
  refine Effect.wp_fold (fun done acc' e' ↦ done.length ≤ acc'.walEntries.length ∧ Filled e e' ∧
    e'.btree.wal = e.btree.wal) ⟨Nat.zero_le _, ⟨rfl, rfl, rfl, rfl⟩, rfl⟩ ?_ fun _ _ h ↦ h
  rintro done row rest - acc' e' ⟨hlen, hsame, hwal⟩
  refine Effect.wp_bind (Effect.wp_get (Effect.wp_bind (Effect.wp_modify (Effect.wp_bind
    (Effect.wp_modify ?_)))))
  rw [hsame.transactions, htx]
  refine Effect.wp_bind (Effect.wp_modify (Effect.wp_pure ⟨?_, ⟨hsame.transactions,
    hsame.currentVersion, hsame.bumps, hsame.pager⟩, hwal⟩))
  rw [List.length_append, List.length_append, List.length_singleton, List.length_cons]
  omega

/-- More entries than the queue has places for: it is full in the end. -/
theorem wp_enqueueAll {entries : List (Bytes × Data)} (hlen : queueCapacity < entries.length) :
    Effect.wp (Effect.forEach entries fun entry ↦ enqueue entry.1 entry.2) (fun _ _ ↦ False)
      (fun err t ↦ err = .storage .walSaturated ∧ ¬ t.btree.wal.queue.length < queueCapacity ∧
        Filled e t) e := by
  refine Effect.wp_forEach (fun done t ↦ done.length ≤ t.btree.wal.queue.length ∧ Filled e t ∧
    (done ≠ [] → t.btree.wal.queue.length ≤ queueCapacity))
    ⟨Nat.zero_le _, ⟨rfl, rfl, rfl, rfl⟩, fun h ↦ absurd rfl h⟩ ?_ fun t ⟨hle, _, hcap⟩ ↦ ?_
  · rintro done entry rest - t ⟨hle, hsame, -⟩
    refine wp_enqueue (fun hroom ↦ ?_) fun hfull ↦ ?_
    · have hlength : (t.pushed entry.1 entry.2).btree.wal.queue.length =
          t.btree.wal.queue.length + 1 := List.length_append
      refine ⟨?_, ⟨hsame.transactions, hsame.currentVersion, hsame.bumps, hsame.pager⟩, fun _ ↦ ?_⟩
      · rw [hlength, List.length_append, List.length_singleton]
        omega
      · rw [hlength]
        exact hroom
    · exact ⟨rfl, hfull, hsame.transactions, hsame.currentVersion, hsame.bumps, hsame.pager⟩
  · have := hcap fun hnil ↦ by rw [hnil] at hlen; exact absurd hlen (Nat.not_lt_zero _)
    omega

/-- An `INSERT` of more rows than the queue has places for fills it. -/
theorem execute_insertMany {t : Bytes} {schema : TableSchema} {rows : List (List Expr)}
    (hschema : e.schemas.lookup t = some schema) (htx : e.activeTransactions.lookup conn = none)
    (hrows : queueCapacity < rows.length) :
    ∃ e', execute rt (.statement (.insert t (some ⟨.values rows, none⟩))) conn e =
        (.error (.storage .walSaturated), e') ∧
      ¬ e'.btree.wal.queue.length < queueCapacity ∧ Filled e e' := by
  have hwp : Effect.wp (executeStatement rt (.insert t (some ⟨.values rows, none⟩)) conn)
      (fun _ _ ↦ False) (fun err e' ↦ err = .storage .walSaturated ∧
        ¬ e'.btree.wal.queue.length < queueCapacity ∧ Filled e e') e := by
    refine Effect.wp_bind (Effect.wp_bind (Effect.wp_get (Effect.wp_bind (Effect.wp_ofExcept
      (fun schema' _ ↦ ?_) fun err herr ↦ ?_))))
    · refine Effect.wp_bind (Effect.wp_mono (wp_insertRows htx)
        (fun acc e₁ ⟨hlen, hsame, _⟩ ↦ ?_) fun _ _ h ↦ h.elim)
      refine Effect.wp_bind (Effect.wp_mono (wp_enqueueAll (hrows.trans_le hlen))
        (fun _ _ h ↦ h.elim) fun err e₂ ⟨herr, hfull, hsame₂⟩ ↦ ⟨herr, hfull, ?_⟩)
      exact ⟨hsame₂.transactions.trans hsame.transactions,
        hsame₂.currentVersion.trans hsame.currentVersion, hsame₂.bumps.trans hsame.bumps,
        hsame₂.pager.trans hsame.pager⟩
    · rw [hschema] at herr
      cases herr
  unfold Effect.wp at hwp
  rcases hstmt : executeStatement rt (.insert t (some ⟨.values rows, none⟩)) conn e with
    ⟨err | reply, e'⟩ <;> rw [hstmt] at hwp
  · obtain ⟨rfl, hfull, hsame⟩ := hwp
    refine ⟨e', ?_, hfull, hsame⟩
    have hmessage : occursIn (bytes "conflict")
        (EngineError.storage .walSaturated).message = false := by decide +kernel
    rw [execute, executeRetrying]
    dsimp only
    rw [hstmt]
    simp only [hmessage, Bool.false_eq_true, if_false]
  · exact hwp.elim

end Engine

/-- A row is inserted, and a transaction updates it. -/
def updateInTransaction : List Action :=
  [.call 1 (createTableOf "u" ["id"]), .call 1 (insertOf "u" ["2"]), .flushRound, .flushRound,
    .flushRound, .call 1 .begin, .call 1 (updateOf "u" "id" "3" none)]

/-- With places in the queue, a commit that another one has overtaken fails without effect. -/
theorem commit_atomic_conflict : let _ := plainBincode []
    ∃ s tx, System.start.run .plain (updateInTransaction ++ [.call 2 (updateOf "u" "id" "4" none),
        .flushRound, .flushRound]) = some s ∧
      s.engine.activeTransactions.lookup 1 = some tx ∧
      (execute .plain .commit 1 s.engine).1 = .error .conflict ∧
      ∀ err e', execute .plain .commit 1 s.engine = (.error err, e') → s.engine.NoneWritten tx e' := by
  let _ := plainBincode []
  have hany : (System.start.run .plain (updateInTransaction ++
      [.call 2 (updateOf "u" "id" "4" none), .flushRound, .flushRound])).any (fun s ↦
        (s.engine.activeTransactions.lookup 1).any fun tx ↦
          (execute .plain .commit 1 s.engine).1 = .error .conflict ∧ tx.updates.size = 1 ∧
            s.engine.btree.wal.queue.length = 0 ∧ s.engine.history.bumps = 1 ∧
            s.engine.currentVersion = 1 ∧ s.engine.btree.pager.handedOut.length = 0) = true := by
    decide +kernel
  obtain ⟨s, hs, hany⟩ := (Option.any_eq_true _ _).1 hany
  obtain ⟨tx, htx, hstate⟩ := (Option.any_eq_true _ _).1 hany
  obtain ⟨herr, hsize, hqueue, hbumps, hversion, hpages⟩ := of_decide_eq_true hstate
  have hbounded : s.engine.Bounded := ⟨by
    show s.engine.btree.pager.handedOut.length < _
    rw [hpages]
    decide, hbumps ▸ by decide⟩
  have hroom : s.engine.FindsRoom tx.updates.size := fun i hi ↦ by
    rw [hsize] at hi
    rw [hqueue, Nat.lt_one_iff.1 hi]
    decide
  exact ⟨s, tx, hs, htx, herr,
    (commit_atomic_iff hs hbounded (by rw [hversion]; decide) htx).2 (Or.inr hroom)⟩

/-- An `INSERT` of more rows than the queue has places for. -/
def insertMany : Command :=
  .statement (.insert (bytes "u") (some ⟨.values (List.replicate 1000001 []), none⟩))

/-- **A commit that finds the queue full** fails and leaves a write in the memory tier. The queue is
filled by an `INSERT` of another connection. -/
theorem not_commit_atomic_full : ¬ ∀ (_ : Bincode (WalEntry Bytes Data)) (rt : Runtime)
    (actions : List Action) (s : System), System.start.run rt actions = some s →
      s.engine.Bounded → s.engine.currentVersion + 1 < 2 ^ 64 → ∀ conn tx,
        s.engine.activeTransactions.lookup conn = some tx →
          ∀ err e', execute rt .commit conn s.engine = (.error err, e') →
            s.engine.NoneWritten tx e' := by
  intro h
  let _ := plainBincode []
  have hany : (System.start.run .plain updateInTransaction).any (fun s ↦
      (s.engine.activeTransactions.lookup 1).any fun tx ↦ s.phase = .idle ∧ tx.updates.size = 1 ∧
        (s.engine.schemas.lookup (bytes "u")).isSome ∧ (s.engine.activeTransactions.lookup 2).isNone ∧
        s.engine.history.bumps = 0 ∧ s.engine.currentVersion = 0 ∧
        s.engine.btree.pager.handedOut.length = 0 ∧
        ∀ key ∈ tx.updates.keys, PlainKey key ∧ key ≠ schemasKey) = true := by decide +kernel
  obtain ⟨s, hs, hany⟩ := (Option.any_eq_true _ _).1 hany
  obtain ⟨tx, htx, hstate⟩ := (Option.any_eq_true _ _).1 hany
  obtain ⟨hphase, hsize, hschemas, hnone, hbumps, hversion, hpages, hkeys⟩ := of_decide_eq_true hstate
  obtain ⟨schema, hschema⟩ := Option.isSome_iff_exists.1 hschemas
  obtain ⟨e', hexecute, hfull, hsame⟩ : ∃ e', execute .plain insertMany 2 s.engine =
      (.error (.storage .walSaturated), e') ∧ ¬ e'.btree.wal.queue.length < queueCapacity ∧
        Filled s.engine e' :=
    execute_insertMany hschema (Option.isNone_iff_eq_none.1 hnone)
      (by rw [List.length_replicate]; decide)
  have hrun : System.start.run .plain (updateInTransaction ++ [.call 2 insertMany]) =
      some { s with engine := e' } := by
    rw [System.run_append, hs, Option.bind_some]
    simp only [System.run, System.step, hphase, System.call, hexecute, Option.bind_some]
  have hbounded : e'.Bounded := ⟨by
    show e'.btree.pager.handedOut.length < _
    rw [hsame.pager, hpages]
    decide, by rw [hsame.bumps, hbumps]; decide⟩
  have hcurrent : e'.currentVersion = 0 := hsame.currentVersion.trans hversion
  have htx' : e'.activeTransactions.lookup 1 = some tx := hsame.transactions ▸ htx
  have hatomic := (commit_atomic_iff hrun hbounded (by rw [hcurrent]; decide) htx').1
    (h _ .plain _ _ hrun hbounded (by rw [hcurrent]; decide) 1 tx htx')
  rcases hatomic with ⟨key, hkey, data, hdata, hnewer⟩ | hroom
  · -- all records have version zero, so nothing is newer than the snapshot
    have hco := System.coherent_of_run hrun hbounded
    obtain ⟨data', hdata', hknown⟩ := hco.fetch key
    rw [hdata] at hdata'
    cases hdata'
    obtain ⟨r, columns, rfl, -, hle, -⟩ := hco.exists_row_of_known (hkeys key hkey).1
      (hkeys key hkey).2 (hknown data rfl)
    have hlt := hnewer r rfl
    have hle : r.version ≤ e'.currentVersion := hle
    omega
  · have := hroom 0 (by rw [hsize]; decide)
    exact hfull this

end KsSql
