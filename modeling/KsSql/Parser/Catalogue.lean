import KsSql.Parser.Reopening

/-!
# The catalogue across a restart

The catalogue is stored under the one key `__schemas__`. `CREATE TABLE` inserts its record into the tree
at once, while an `INSERT` that draws generated numbers puts one into the queue, from where the drain
thread takes it to the tree or a flush takes it to the log. A restart looks in the log first. So the
newest record is found if the records keep their order on the way, which is what `KeepsCatalogue` asks of
each step: then the newest one in the queue, in the log, with the drain thread or in the tree, in this
order, holds the catalogue in memory (`Catalogued`), and a restart from a settled state finds it
(`catalogue_survives`).

A `CREATE TABLE` after such an `INSERT` is behind the record in the log, and its table is lost
(`not_catalogue_survives`).
-/

namespace KsSql

open BPlusTree

namespace Engine

variable {rt : Runtime} {conn : Nat} {e u : Engine}

/-- Record updates were put into the queue, of which the newest one of the catalogue is the given one.
The pages are as they were. -/
structure Enqueued (e u : Engine) (data? : Option Data) : Prop where
  pager : u.btree.pager = e.btree.pager
  wal : ∃ new, (∀ x ∈ new, ∃ key data, x = .recordUpdate key data) ∧
    newestUpdate new schemasKey = data? ∧ u.btree.wal = { e.btree.wal with
      queue := e.btree.wal.queue ++ new, enqueued := e.btree.wal.enqueued ++ new }

theorem Enqueued.refl (e : Engine) : Enqueued e e none :=
  ⟨rfl, [], fun _ h ↦ (nomatch h), rfl, by simp only [List.append_nil]⟩

theorem Enqueued.congr {data? : Option Data} (h : Enqueued e u data?) {u' : Engine}
    (hpager : u'.btree.pager = u.btree.pager) (hwal : u'.btree.wal = u.btree.wal) :
    Enqueued e u' data? :=
  ⟨hpager.trans h.pager, hwal ▸ h.wal⟩

theorem Enqueued.pushed {data? : Option Data} (h : Enqueued e u data?) (key : Bytes) (data : Data) :
    Enqueued e (u.pushed key data) (if key = schemasKey then some data else data?) := by
  obtain ⟨new, hnew, hnewest, hwal⟩ := h.wal
  refine ⟨h.pager, new ++ [.recordUpdate key data], fun x hx ↦ ?_, ?_, ?_⟩
  · rcases List.mem_append.1 hx with hx | hx
    · exact hnew x hx
    · exact ⟨key, data, List.mem_singleton.1 hx⟩
  · rw [newestUpdate_append, newestUpdate_singleton, WalEntry.update, hnewest]
    split <;> rfl
  · rw [Engine.pushed, hwal]
    simp only [List.append_assoc]

/-- The catalogue is as it was, or its record is the newest one that was put into the queue. -/
def Catalogues (e u : Engine) : Prop :=
  (Enqueued e u none ∧ u.schemas = e.schemas) ∨
    ∃ data, Enqueued e u (some data) ∧ HoldsCatalogue u.schemas (some data)

/-! ### `INSERT` -/

theorem wp_insertRow_enqueued {t : Bytes} {schema : TableSchema} {acc : Inserting}
    (h : Enqueued e u none) (hacc : ∀ x ∈ acc.walEntries, x.1 ≠ schemasKey) (row : List Expr) :
    Effect.wp (insertRow rt t schema conn acc row)
      (fun acc' u' ↦ (Enqueued e u' none ∧ u'.schemas = u.schemas) ∧
        ∀ x ∈ acc'.walEntries, x.1 ≠ schemasKey) (fun _ _ ↦ False) u := by
  refine Effect.wp_bind (Effect.wp_get (Effect.wp_bind (Effect.wp_modify (Effect.wp_bind
    (Effect.wp_modify ?_)))))
  split
  · exact Effect.wp_bind (Effect.wp_modify (Effect.wp_pure ⟨⟨h.congr rfl rfl, rfl⟩, hacc⟩))
  · refine Effect.wp_bind (Effect.wp_modify (Effect.wp_pure ⟨⟨h.congr rfl rfl, rfl⟩,
      fun x hx ↦ ?_⟩))
    rcases List.mem_append.1 hx with hx | hx
    · exact hacc x hx
    rcases List.mem_cons.1 hx with rfl | hx
    · exact rowKey_ne_schemasKey _ _
    · obtain ⟨idx, -, hidx⟩ := List.mem_filterMap.1 hx
      split at hidx
      · obtain ⟨val, -, rfl⟩ := Option.map_eq_some_iff.1 hidx
        exact indexKey_ne_schemasKey _ _ _
      · cases hidx

theorem wp_storeNextId_catalogues {t : Bytes} {schema : TableSchema} {nextId : Nat}
    (h : Enqueued e u none) (hschemas : u.schemas = e.schemas) :
    Effect.wp (storeNextId rt t schema nextId) (fun _ u' ↦ Catalogues e u')
      (fun err u' ↦ Enqueued e u' none ∧ err = .storage .walSaturated) u := by
  rw [storeNextId]
  split
  · refine Effect.wp_bind (Effect.wp_modify (Effect.wp_bind (Effect.wp_bind (Effect.wp_get
      (Effect.wp_bind (Effect.wp_modify (Effect.wp_pure ?_)))))))
    let v : Engine := { u with schemas := u.schemas.insert t { schema with nextId := nextId } }
    have hv : Enqueued e v.tick none := h.congr rfl rfl
    have hpushed := hv.pushed schemasKey
      (.record ⟨.schemas v.schemas, v.currentVersion, false, rt.timestamp v.ticks⟩)
    rw [if_pos rfl] at hpushed
    exact wp_enqueue (fun _ ↦ .inr ⟨_, hpushed, _, rfl, rfl⟩) fun _ ↦ ⟨hv.congr rfl rfl, rfl⟩
  · exact Effect.wp_pure (.inl ⟨h, hschemas⟩)

/-- **`INSERT`** puts the catalogue into the queue if it changes it, unless it fails. -/
theorem wp_handleInsert_catalogues {t : Bytes} {source : Query} :
    Effect.wp (handleInsert rt t source conn) (fun _ u ↦ Catalogues e u)
      (fun err u ↦ Enqueued e u none ∧ occursIn (bytes "conflict") err.message = false) e := by
  refine Effect.wp_bind (Effect.wp_get (Effect.wp_bind (Effect.wp_ofExcept (fun schema _ ↦ ?_)
    fun err herr ↦ ⟨.refl e, ?_⟩)))
  · split
    · refine Effect.wp_bind (Effect.wp_fold
        (fun _ acc u ↦ (Enqueued e u none ∧ u.schemas = e.schemas) ∧
          ∀ x ∈ acc.walEntries, x.1 ≠ schemasKey) ⟨⟨.refl e, rfl⟩, fun x hx ↦ (nomatch hx)⟩
        (fun _ row _ _ acc u h ↦ ?_) fun acc u h ↦ ?_)
      · exact Effect.wp_mono (wp_insertRow_enqueued h.1.1 h.2 row)
          (fun acc' u' h' ↦ ⟨⟨h'.1.1, h'.1.2.trans h.1.2⟩, h'.2⟩) fun _ _ h ↦ h.elim
      · refine Effect.wp_bind (Effect.wp_forEach
          (fun _ u ↦ Enqueued e u none ∧ u.schemas = e.schemas) h.1 (fun _ x _ hx u hu ↦ ?_)
          fun u hu ↦ ?_)
        · have hkey : x.1 ≠ schemasKey := h.2 x (hx ▸ List.mem_append_right _ List.mem_cons_self)
          have hpushed := hu.1.pushed x.1 x.2
          rw [if_neg hkey] at hpushed
          exact wp_enqueue (fun _ ↦ ⟨hpushed, hu.2⟩) fun _ ↦ ⟨hu.1.congr rfl rfl, by decide⟩
        · exact Effect.wp_bind (Effect.wp_mono (wp_storeNextId_catalogues hu.1 hu.2)
            (fun _ u' h' ↦ Effect.wp_pure h') fun err u' h' ↦ ⟨h'.1, h'.2 ▸ by decide⟩)
    · exact Effect.wp_throw ⟨.refl e, by decide⟩
  · split at herr
    · cases herr
    · cases herr
      decide

/-- What an `INSERT` leaves that is done, or that does not change the catalogue. -/
theorem execute_insert_catalogues {t : Bytes} {source : Option Query}
    (hkept : (execute rt (.statement (.insert t source)) conn e).1.isOk = true ∨
      (execute rt (.statement (.insert t source)) conn e).2.schemas = e.schemas) :
    Catalogues e (execute rt (.statement (.insert t source)) conn e).2 := by
  have hwp : Effect.wp (executeStatement rt (.insert t source) conn) (fun _ u ↦ Catalogues e u)
      (fun err u ↦ Enqueued e u none ∧ occursIn (bytes "conflict") err.message = false) e := by
    refine Effect.wp_bind (Effect.wp_ofExcept (fun _ _ ↦ wp_handleInsert_catalogues)
      fun err herr ↦ ⟨.refl e, ?_⟩)
    split at herr <;> cases herr
    decide
  have hexecute : execute rt (.statement (.insert t source)) conn e =
      executeStatement rt (.insert t source) conn e :=
    executeRetrying_eq (fun err u hrun ↦ (Effect.of_wp_error hwp hrun).2) 5
  rw [hexecute] at hkept ⊢
  rcases hrun : executeStatement rt (.insert t source) conn e with ⟨err | reply, u⟩
  · rw [hrun] at hkept
    exact .inl ⟨(Effect.of_wp_error hwp hrun).1, hkept.resolve_left Bool.false_ne_true⟩
  · exact Effect.of_wp_ok hwp hrun

end Engine

/-! ### Runs -/

/-- The steps of a run of `CREATE TABLE` and `INSERT` statements. -/
def Action.OfTables : Action → Prop
  | .call _ (.statement (.createTable ..)) => True
  | .call _ (.statement (.insert ..)) => True
  | .flushRound => True
  | .drainPop => True
  | .drainStart => True
  | .drainApply => True
  | .writeBatch => True
  | _ => False

instance : DecidablePred Action.OfTables := fun a ↦ by
  unfold Action.OfTables
  rcases a with ⟨conn, - | - | - | - | stmt⟩ | _
  case call.statement => rcases stmt <;> infer_instance
  all_goals infer_instance

namespace System

open Engine

variable {rt : Runtime} {s s' : System}

/-- A step keeps the order of the catalogue's records, and leaves the catalogue as it was if it fails:
`CREATE TABLE`, which goes past the queue, finds no record of the catalogue in the queue, in the log or
with the drain thread. -/
def KeepsCatalogue (rt : Runtime) (s : System) (a : Action) : Prop :=
  s.KeepsOrder rt schemasKey a ∧ match a with
    | .call _ (.statement (.createTable ..)) =>
      newestUpdate s.engine.btree.wal.queue schemasKey = none ∧
        newestUpdate s.engine.btree.wal.logged schemasKey = none ∧
        newestUpdate s.drain.entries schemasKey = none
    | .call conn (.statement (.insert t source)) =>
      (execute rt (.statement (.insert t source)) conn s.engine).1.isOk = true ∨
        (execute rt (.statement (.insert t source)) conn s.engine).2.schemas = s.engine.schemas
    | _ => True

instance : DecidablePred (KeepsCatalogue rt s) := fun a ↦ by
  unfold KeepsCatalogue
  refine @instDecidableAnd _ _ inferInstance ?_
  rcases a with ⟨conn, - | - | - | - | stmt⟩ | _
  case call.statement => rcases stmt <;> infer_instance
  all_goals infer_instance

variable [Bincode (WalEntry Bytes Data)]

/-- **A step** that keeps the order of the catalogue's records leaves the newest one where it is looked
for first. -/
theorem traced_catalogue_step {a : Action} (ha : a.OfTables) (hkeeps : s.KeepsCatalogue rt a)
    (h : s.Traced rt schemasKey fun e data? ↦ HoldsCatalogue e.schemas data?)
    (hstep : s.step rt a = some s') :
    s'.Traced rt schemasKey fun e data? ↦ HoldsCatalogue e.schemas data? := by
  obtain ⟨horder, hkeeps⟩ := hkeeps
  have hbackground : a.Background → s'.Traced rt schemasKey _ := fun ha ↦
    h.background ha horder (fun e u _ hschemas _ hholds ↦ hschemas ▸ hholds) hstep
  cases a with
  | call conn command =>
    cases Step.of_step hstep with
    | call _ _ _ =>
      have hdrain : (s.call rt conn command).drain = s.drain := by
        rw [call]
        split <;> rfl
      have hengine := call_engine rt s conn command
      generalize s.call rt conn command = t at hdrain hengine
      obtain ⟨u, phase, drain⟩ := t
      obtain rfl : drain = s.drain := hdrain
      cases command with
      | statement stmt =>
        cases stmt with
        | createTable name columns =>
          obtain ⟨hqueue, hlogged, hdrained⟩ := hkeeps
          obtain ⟨data, hholds, hok, hbtree⟩ := execute_createTable_stores hengine.symm horder.1
          refine h.insertTree hok horder.2 hbtree fun inTree _ ↦ ?_
          rw [hqueue, hlogged, hdrained, WalEntry.update, if_pos rfl]
          exact hholds
        | insert t source =>
          have hcatalogues := execute_insert_catalogues hkeeps
          rw [← hengine] at hcatalogues
          rcases hcatalogues with ⟨⟨hpager, new, hnew, hnewest, hwal⟩, hschemas⟩ |
            ⟨data, ⟨hpager, new, hnew, hnewest, hwal⟩, hholds⟩
          · refine h.enqueue hnew hpager hwal fun data? hbefore ↦ ?_
            rw [hnewest, hschemas]
            exact hbefore
          · refine h.enqueue hnew hpager hwal fun data? _ ↦ ?_
            rw [hnewest]
            exact hholds
        | _ => exact ha.elim
      | _ => exact ha.elim
  | discardRound => exact ha.elim
  | _ => exact hbackground trivial

end System

/-- **The catalogue survives a restart** after every run of `CREATE TABLE` and `INSERT` statements whose
steps keep the order of its records. -/
theorem catalogue_survives {rt : Runtime} {rc : Recovery} [Bincode (WalEntry Bytes Data)]
    {actions : List Action} {s : System} (hrun : System.start.run rt actions = some s)
    (htables : ∀ a ∈ actions, a.OfTables)
    (hkeeps : System.start.Along rt (System.KeepsCatalogue rt) actions)
    (hsettled : s.Settled schemasKey) (hpages : s.engine.btree.PagesBelow)
    (hsmall : s.engine.btree.SmallFile) :
    ∃ e, s.engine.reopen rt rc = .ok e ∧ e.schemas = s.engine.schemas := by
  have htraced : s.Traced rt schemasKey fun e data? ↦ Engine.HoldsCatalogue e.schemas data? :=
    System.run_along (fun _ _ _ ha hkeeps h hstep ↦ System.traced_catalogue_step ha hkeeps h hstep)
      htables hkeeps (System.traced_start rfl) hrun
  obtain ⟨⟨data?, hfetch, hholds⟩, hread⟩ := htraced.fetch hsettled hpages hsmall
  -- the catalogue is the one in memory
  have hschemas : (s.engine.openFiles rt).recoverSchemas rt rc = .ok s.engine.schemas := by
    rw [Engine.recoverSchemas, hfetch]
    rcases data? with - | data
    · have hempty : s.engine.schemas = ∅ := hholds
      rw [hempty]
      rfl
    · obtain ⟨r, rfl, hvalue⟩ := hholds
      show rc.decodeSchemas r.value = _
      rw [hvalue]
      rfl
  -- and no version is found
  have hversion : (s.engine.openFiles rt).recoverVersion rt rc = .ok 0 := by
    have htimed : s.Timed := (⟨Engine.timed_empty, List.nil_subset _⟩ : System.start.Timed).run hrun
    have hopened : (s.engine.openFiles rt).Timed [] :=
      Engine.timed_openFiles htimed.engine fun x hx ↦ hsettled.recovered ▸ hx
    obtain ⟨data?, hfetch⟩ := hread versionKey
    rw [Engine.recoverVersion, hfetch]
    rcases data? with - | data
    · rfl
    · exact absurd rfl (hopened.fetch hfetch).1
  refine ⟨{ s.engine.openFiles rt with schemas := s.engine.schemas, currentVersion := 0 }, ?_, rfl⟩
  show ((s.engine.openFiles rt).recoverSchemas rt rc >>= fun _ ↦ _) = _
  rw [hschemas]
  show ((s.engine.openFiles rt).recoverVersion rt rc >>= fun _ ↦ _) = _
  rw [hversion]
  rfl

/-! ### Restarts to look at -/

/-- `CREATE TABLE`, with a generated column. -/
def createSerial (name : String) : Command :=
  .statement (.createTable (bytes name) [⟨bytes "id", [bytes "SERIAL"]⟩, ⟨bytes "v", []⟩])

/-- A table with a generated column, and a row in it. -/
def serialTable : List Action :=
  [.call 1 (createSerial "u"), .call 1 (insertOf "u" ["a"]), .flushRound, .flushRound, .flushRound,
    .flushRound, .writeBatch]

/-- Another row. -/
def serialRows : List Action :=
  serialTable ++ [.call 1 (insertOf "u" ["b"]), .flushRound, .flushRound, .flushRound, .writeBatch]

/-- Another table. -/
def lateTable : List Action :=
  serialTable ++
    [.call 1 (createTableOf "w" ["id"]), .drainPop, .drainStart, .drainApply, .drainApply]

/-- The next generated number survives. -/
theorem catalogue_survives_insert : let _ := encodingOf serialRows
    ∃ s e, System.start.run .plain serialRows = some s ∧
      s.engine.reopen .plain .plain = .ok e ∧ e.schemas = s.engine.schemas ∧
        (e.schemas.lookup (bytes "u")).map TableSchema.nextId = some 3 := by
  let _ := encodingOf serialRows
  obtain ⟨s, hs⟩ : ∃ s, System.start.run .plain serialRows = some s :=
    Option.isSome_iff_exists.1 (by decide +kernel)
  have htables : ∀ a ∈ serialRows, a.OfTables := by decide
  have hkeeps : System.start.Along .plain (System.KeepsCatalogue .plain) serialRows := by
    decide +kernel
  have hall : (System.start.run .plain serialRows).all (fun s ↦
      decide (s.engine.btree.wal.queue = [] ∧ newestUpdate s.drain.entries schemasKey = none ∧
        Wal.recover s.engine.btree.wal.file = s.engine.btree.wal.logged ∧
        s.engine.btree.wal.enqueued = s.engine.btree.wal.logged ∧
        s.engine.btree.wal.logged.length = 5 ∧ s.engine.btree.pager.handedOut.length < 2 ^ 32 ∧
        s.engine.btree.pager.fileLength = pageSize ∧
        (s.engine.schemas.lookup (bytes "u")).map TableSchema.nextId = some 3)) = true := by
    decide +kernel
  rw [hs, Option.all_some, decide_eq_true_iff] at hall
  obtain ⟨hqueue, hdrained, hrecovered, hlogged, hlength, hpages, hfile, hnext⟩ := hall
  have hroom : (MemoryTier.new 1024 : MemoryTier Bytes Data).HasRoom
      s.engine.btree.wal.logged.length := by
    rw [hlength]
    decide
  have hsmall : s.engine.btree.SmallFile := by
    rw [SmallFile, hfile]
    decide
  have hsettled : s.Settled schemasKey :=
    ⟨hqueue, hdrained, hrecovered, fun p n hn ↦ hlogged ▸ hn, hroom⟩
  obtain ⟨e, he, hschemas⟩ : ∃ e, s.engine.reopen .plain .plain = .ok e ∧
      e.schemas = s.engine.schemas := catalogue_survives hs htables hkeeps hsettled hpages hsmall
  exact ⟨s, e, hs, he, hschemas, hschemas ▸ hnext⟩

/-- **A table is lost.** The catalogue in the log, from an `INSERT`, hides the newer one that
`CREATE TABLE` has put into the tree. -/
theorem not_catalogue_survives : ¬ ∀ (_ : Bincode (WalEntry Bytes Data)) (rt : Runtime)
    (rc : Recovery) (actions : List Action) (s : System), System.start.run rt actions = some s →
      (∀ a ∈ actions, a.OfTables) → s.phase = .idle → s.engine.btree.wal.queue = [] →
        s.engine.btree.wal.sent = [] → s.drain.entries = [] →
          Wal.recover s.engine.btree.wal.file = s.engine.btree.wal.logged →
            s.engine.btree.PagesBelow → s.engine.btree.SmallFile →
              ∃ e, s.engine.reopen rt rc = .ok e ∧ e.schemas = s.engine.schemas := by
  intro h
  let _ := encodingOf lateTable
  obtain ⟨s, hs⟩ : ∃ s, System.start.run .plain lateTable = some s :=
    Option.isSome_iff_exists.1 (by decide +kernel)
  have hall : (System.start.run .plain lateTable).all (fun s ↦
      decide (s.phase = .idle ∧ s.engine.btree.wal.queue = [] ∧ s.engine.btree.wal.sent = [] ∧
        s.drain.entries = [] ∧ Wal.recover s.engine.btree.wal.file = s.engine.btree.wal.logged ∧
        s.engine.btree.pager.handedOut.length < 2 ^ 32 ∧
        s.engine.btree.pager.fileLength = pageSize ∧ s.engine.schemas.size = 2 ∧
        (s.engine.reopen .plain .plain).toOption.map (fun e ↦ e.schemas.size) = some 1)) = true := by
    decide +kernel
  rw [hs, Option.all_some, decide_eq_true_iff] at hall
  obtain ⟨hphase, hqueue, hsent, hdrain, hrecovered, hpages, hfile, hsize, hfound⟩ := hall
  have hsmall : s.engine.btree.SmallFile := by
    rw [SmallFile, hfile]
    decide
  obtain ⟨e, he, hschemas⟩ := h _ .plain .plain lateTable s hs (by decide) hphase hqueue hsent hdrain
    hrecovered hpages hsmall
  rw [he] at hfound
  have hone : e.schemas.size = 1 := Option.some.inj hfound
  rw [hschemas, hsize] at hone
  cases hone

end KsSql
