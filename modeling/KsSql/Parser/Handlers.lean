import KsSql.Parser.Coherence

/-!
# Statements make progress

Every command, whether it succeeds or fails, changes the engine by `Progress` only
(`progress_execute`). `Does p Q e` says so of a routine `p` run from `e`, with `Q` on its result, and
has one rule for each way to build a routine; the handlers are then gone through once, in the order of
the source.
-/

namespace KsSql

/-- The columns that a command gives a name to lie in `N`. -/
def Command.ColumnsIn (N : Bytes → Prop) : Command → Prop
  | .statement (.createTable _ columns) => ∀ c ∈ columns, N c.name
  | .statement (.update _ assignments _) => ∀ a ∈ assignments, ∀ col ∈ a.id.head?, N col
  | _ => True

namespace Engine

variable {rt : Runtime} {N : Bytes → Prop} {command : Command} {conn : Nat} {α β : Type}

/-- Run from `e`, the routine makes progress, and ends in a result satisfying `Q` or in an error. -/
def Does (rt : Runtime) (N : Bytes → Prop) (command : Command) (conn : Nat) (p : Routine α)
    (Q : α → Engine → Prop) (e : Engine) : Prop :=
  Effect.wp p (fun a e' ↦ Progress rt N command conn e e' ∧ Q a e')
    (fun _ e' ↦ Progress rt N command conn e e') e

section Rules

variable {Q Q' : α → Engine → Prop} {e : Engine}

theorem does_pure {a : α} (h : Q a e) : Does rt N command conn (pure a) Q e :=
  Effect.wp_pure ⟨.refl, h⟩

theorem does_throw {err : EngineError} : Does rt N command conn (Effect.throw err) Q e :=
  Effect.wp_throw .refl

theorem does_ofExcept {x : Except EngineError α} (h : ∀ a, x = .ok a → Q a e) :
    Does rt N command conn (Effect.ofExcept x) Q e :=
  Effect.wp_ofExcept (fun a ha ↦ ⟨.refl, h a ha⟩) fun _ _ ↦ .refl

theorem does_get {Q : Engine → Engine → Prop} (h : Q e e) :
    Does rt N command conn Effect.get Q e :=
  Effect.wp_get ⟨.refl, h⟩

theorem does_modify {Q : Unit → Engine → Prop} {f : Engine → Engine}
    (hstep : Primitive rt N command conn e (f e)) (h : Q () (f e)) :
    Does rt N command conn (Effect.modify f) Q e :=
  Effect.wp_modify ⟨.single hstep, h⟩

theorem does_mono {p : Routine α} (h : Does rt N command conn p Q e)
    (hQ : ∀ a t, Progress rt N command conn e t → Q a t → Q' a t) :
    Does rt N command conn p Q' e :=
  Effect.wp_mono h (fun a t ⟨hprog, hq⟩ ↦ ⟨hprog, hQ a t hprog hq⟩) fun _ _ h ↦ h

theorem does_bind {p : Routine β} {f : β → Routine α}
    (h : Does rt N command conn p (fun b t ↦ Does rt N command conn (f b) Q t) e) :
    Does rt N command conn (p >>= f) Q e := by
  refine Effect.wp_bind (Effect.wp_mono h (fun b t ⟨hprog, hf⟩ ↦ ?_) fun _ _ h ↦ h)
  exact Effect.wp_mono hf (fun a t' ⟨hprog', hq⟩ ↦ ⟨hprog.trans hprog', hq⟩)
    fun _ t' hprog' ↦ hprog.trans hprog'

/-- A loop, with an invariant on the value carried along and the state. -/
theorem does_fold {f : β → α → Routine β} {l : List α} {b : β} {I : β → Engine → Prop}
    (hinit : I b e)
    (hstep : ∀ a ∈ l, ∀ b t, Progress rt N command conn e t → I b t →
      Does rt N command conn (f b a) I t) :
    Does rt N command conn (Effect.fold f l b) I e := by
  induction l generalizing b e with
  | nil => exact does_pure hinit
  | cons a l ih =>
    refine does_bind (does_mono (hstep a List.mem_cons_self b e .refl hinit) fun b' t hprog hI ↦ ?_)
    exact ih hI fun a' ha' b'' t' hprog' ↦
      hstep a' (List.mem_cons_of_mem _ ha') b'' t' (hprog.trans hprog')

theorem does_forEach {f : α → Routine Unit} {l : List α} {I : Engine → Prop} (hinit : I e)
    (hstep : ∀ a ∈ l, ∀ t, Progress rt N command conn e t → I t →
      Does rt N command conn (f a) (fun _ ↦ I) t) :
    Does rt N command conn (Effect.forEach l f) (fun _ ↦ I) e :=
  does_fold hinit fun a ha _ ↦ hstep a ha

end Rules

/-! ### What stays known along a statement -/

/-- The version counter has only gone up. -/
theorem Grows.version_le {e e' : Engine} (h : Grows e e') (he : e.Coherent rt N)
    (he' : e'.Coherent rt N) : e.currentVersion ≤ e'.currentVersion := by
  rw [he.version_eq, he'.version_eq]
  exact h.bumps

theorem SeenRow.mono {e e' : Engine} {t : Bytes} {version : Nat} {row : Row}
    (h : e.SeenRow rt N t version row) (hi : e.history.installs ⊆ e'.history.installs)
    (hv : e.currentVersion ≤ e'.currentVersion) : e'.SeenRow rt N t version row := by
  rcases h with ⟨k, d, columns, hknown, hrest⟩ | ⟨c, v, target, d, columns, htarget, hknown, hrest⟩
  · exact Or.inl ⟨k, d, columns, hknown.mono hi hv, hrest⟩
  · exact Or.inr ⟨c, v, target, d, columns, htarget.mono hi hv, hknown.mono hi hv, hrest⟩

theorem SeenKey.mono {e e' : Engine} {version : Nat} {key : Bytes}
    (h : e.SeenKey rt N version key) (hi : e.history.installs ⊆ e'.history.installs)
    (hv : e.currentVersion ≤ e'.currentVersion) : e'.SeenKey rt N version key := by
  obtain ⟨t, row, hrow, hkey⟩ := h
  exact ⟨t, row, hrow.mono hi hv, hkey⟩

/-- What a scan shows is a row that it may show. -/
theorem Coherent.seenRow_of_scanTable {e : Engine} (h : e.Coherent rt N) {t : Bytes} {version : Nat}
    {rows : List Row} (hrows : e.scanTable rt t version = .ok rows) :
    ∀ row ∈ rows, e.SeenRow rt N t version row := by
  rw [scanTable_eq h.sound hrows]
  intro row hrow
  obtain ⟨⟨key, columns⟩, hmem, rfl⟩ := List.mem_map.1 hrow
  obtain ⟨data, hdata, hshown⟩ := exists_mem_of_firstHit (mem_scanned.1 hmem)
  exact Or.inl ⟨key, data, columns, h.known_of_entries hdata, hshown, rfl⟩

/-- What an index entry leads to is a row that a scan may show. -/
theorem Coherent.seenRow_of_probeIndex {e : Engine} (h : e.Coherent rt N) {t column value : Bytes}
    {version : Nat} {row : Row}
    (hrow : e.probeIndex rt t version column value = .ok (some row)) :
    e.SeenRow rt N t version row := by
  obtain ⟨target?, htarget, hknown⟩ := h.fetch (indexKey t column value)
  rw [probeIndex, htarget] at hrow
  rcases target? with - | target
  · cases hrow
  obtain ⟨data?, hdata, hknown'⟩ := h.fetch (rt.finalKey target)
  change (e.fetch rt (rt.finalKey target) >>= _) = _ at hrow
  rw [hdata] at hrow
  rcases data? with - | data
  · cases hrow
  change (rt.decodeRecord data >>= _) = _ at hrow
  rcases hrecord : rt.decodeRecord data with err | record
  · rw [hrecord] at hrow; cases hrow
  rw [hrecord] at hrow
  change (if _ then _ else _) = _ at hrow
  split at hrow
  · rename_i hcond
    rcases hcolumns : rt.decodeRow record.value with err | columns
    · rw [hcolumns] at hrow; cases hrow
    · rw [hcolumns] at hrow
      cases hrow
      exact Or.inr ⟨column, value, target, data, columns, hknown _ rfl, hknown' _ rfl,
        rt.shown_eq_some_iff.2 ⟨record, hrecord, hcond.1, hcond.2, hcolumns⟩, rfl⟩
  · cases hrow

theorem Coherent.seenRow_of_scan {e : Engine} (h : e.Coherent rt N) {t : Bytes} {version : Nat}
    {filter : Option Expr} {rows : List Row}
    (hrows : e.scanTableWithFilter rt t version filter = .ok rows) :
    ∀ row ∈ rows, e.SeenRow rt N t version row := by
  rw [scanTableWithFilter] at hrows
  split at hrows
  · exact h.seenRow_of_scanTable hrows
  · rename_i column value _
    rcases hprobe : e.probeIndex rt t version column value with err | row?
    · rw [hprobe] at hrows; cases hrows
    · rw [hprobe] at hrows
      rcases row? with - | row
      · exact h.seenRow_of_scanTable hrows
      · cases hrows
        intro row' hrow'
        rw [List.mem_singleton.1 hrow']
        exact h.seenRow_of_probeIndex hprobe

/-- What decodes as a record has a value that may stand under its key. -/
theorem Coherent.payloadOk {e : Engine} (h : e.Coherent rt N) {key : Bytes} {data : Data}
    {record : Record} (hknown : e.Known N key data) (hrecord : rt.decodeRecord data = .ok record) :
    PayloadOk N key record.value := by
  rcases (h.legit_of_known hknown).2 with hkey | hkey | ⟨r, rfl, hr⟩
  · exact Or.inl hkey
  · exact Or.inr (Or.inl hkey)
  · cases hrecord
    exact hr

/-! ### The parts of a write -/

/-- An entry is accepted if there is a place for it, and refused otherwise. -/
theorem wp_enqueue {e : Engine} {key : Bytes} {data : Data} {Q : Unit → Engine → Prop}
    {F : EngineError → Engine → Prop}
    (hroom : e.btree.wal.queue.length < queueCapacity → Q () (e.pushed key data))
    (hfull : ¬ e.btree.wal.queue.length < queueCapacity → F (.storage .walSaturated) e.refused) :
    Effect.wp (enqueue key data) Q F e := by
  unfold Effect.wp enqueue Wal.enqueue
  by_cases h : e.btree.wal.queue.length < queueCapacity
  · rw [if_pos h]
    exact hroom h
  · rw [if_neg h]
    exact hfull h

/-- What an insertion into the tree does, it also does when it fails. -/
theorem wp_insertTree {e : Engine} {key : Bytes} {data : Data} {Q : Unit → Engine → Prop}
    {F : EngineError → Engine → Prop}
    (hdone : (e.btree.insert rt.search key data).1 = .ok () →
      Q () { e with btree := (e.btree.insert rt.search key data).2 })
    (hfails : ∀ err, F (.storage err) { e with btree := (e.btree.insert rt.search key data).2 }) :
    Effect.wp (insertTree rt key data) Q F e := by
  unfold Effect.wp insertTree
  rcases hins : e.btree.insert rt.search key data with ⟨err | ⟨⟩, btree⟩
  · rw [hins] at hfails
    exact hfails err
  · rw [hins] at hdone
    exact hdone rfl

/-- The checks of a commit change nothing. -/
theorem wp_validateKeys {tx : Transaction} {e : Engine} (keys : List Bytes) :
    Effect.wp (Effect.forEach keys (validateKey rt tx)) (fun _ t ↦ t = e) (fun _ t ↦ t = e) e := by
  refine Effect.wp_forEach (fun _ t ↦ t = e) rfl ?_ fun _ h ↦ h
  rintro _ key _ - t rfl
  refine Effect.wp_bind ?_
  unfold Effect.wp fetchKey
  rcases t.fetch rt key with err | data
  · exact rfl
  · rcases data with - | data
    · exact rfl
    · refine Effect.wp_bind (Effect.wp_ofExcept (fun record _ ↦ ?_) fun _ _ ↦ rfl)
      split
      · exact Effect.wp_throw rfl
      · exact Effect.wp_pure rfl

section Handlers

variable {e : Engine}

theorem does_fetch (hinv : e.Inv rt N) (key : Bytes) :
    Does rt N command conn (fetchKey rt key)
      (fun data t ↦ t = e ∧ (e.Bounded → ∀ d, data = some d → e.Known N key d)) e := by
  unfold Does Effect.wp fetchKey
  rcases hfetch : e.fetch rt key with err | data
  · exact .refl
  · refine ⟨.refl, rfl, fun hb d hd ↦ ?_⟩
    obtain ⟨data', hdata', hknown⟩ := (hinv hb).fetch key
    rw [hfetch] at hdata'
    cases hdata'
    exact hknown d hd

theorem does_enqueue {Q : Unit → Engine → Prop} {key : Bytes} {data : Data}
    (hkey : key = schemasKey ∨ e.activeTransactions.lookup conn = none ∨
      command.writeKind = some .index) (hknown : e.Bounded → e.Known N key data)
    (horigin : e.Origin key data) (h : Q () (e.pushed key data)) :
    Does rt N command conn (enqueue key data) Q e :=
  wp_enqueue (fun _ ↦ ⟨.single (.push key data hkey hknown horigin), h⟩) fun _ ↦ .single .refuse

theorem does_schemasRecord :
    Does rt N command conn (schemasRecord rt)
      (fun data t ↦ t = e.tick ∧ ∃ timestamp,
        data = .record ⟨.schemas e.schemas, e.currentVersion, false, timestamp⟩) e :=
  does_bind (does_get (does_bind (does_modify .tick (does_pure ⟨rfl, _, rfl⟩))))

/-! ### `UPDATE` and `DELETE` -/

theorem does_changeKey (hinv : e.Inv rt N) (hcommand : command.writeKind = some .change)
    {version : Nat} {notFound : EngineError}
    {change : Record → Except EngineError Record} {key : Bytes}
    (hversion : ∀ tx, e.activeTransactions.lookup conn = some tx → tx.snapshotVersion = version)
    (hchange : ∀ record record', change record = .ok record' →
      PayloadOk N key record.value → PayloadOk N key record'.value)
    (hseen : e.Bounded → e.SeenKey rt N version key) :
    Does rt N command conn (changeKey rt conn version notFound change key)
      (fun _ t ↦ ∀ tx, t.activeTransactions.lookup conn = some tx → tx.snapshotVersion = version)
      e := by
  refine does_bind (does_mono (does_fetch hinv key) fun data? t _ ⟨heq, hknown⟩ ↦ ?_)
  subst heq
  refine does_bind (does_ofExcept fun data hdata ↦ ?_)
  obtain rfl : data? = some data := by
    split at hdata
    · cases hdata; rfl
    · cases hdata
  refine does_bind (does_ofExcept fun record hrecord ↦ ?_)
  refine does_bind (does_ofExcept fun record' hrecord' ↦ ?_)
  have hrec : t.Bounded → t.HasRecord rt N key ∧ PayloadOk N key record'.value := fun hb ↦
    have hk := hknown hb data rfl
    ⟨⟨data, record, hk, hrecord⟩, hchange _ _ hrecord' ((hinv hb).payloadOk hk hrecord)⟩
  refine does_bind (does_get ?_)
  split
  · rename_i tx htx
    refine does_modify (.bufferChange key { record' with version := (version + 1) % 2 ^ 64 } tx htx
      fun hb ↦ ⟨(hrec hb).1, (hrec hb).2, hversion tx htx ▸ hseen hb⟩) fun tx' htx' ↦ ?_
    rw [Engine.buffer, AList.lookup_insert] at htx'
    cases htx'
    exact hversion tx htx
  · rename_i htx
    have hprim : Primitive rt N command conn t _ := .change key record' hcommand htx hrec
    -- the increment and the installation are one change
    show Does rt N command conn (Effect.modify (fun t : Engine ↦ t.bump.install rt
      ⟨conn, .change, key, .record { record' with version := t.bump.currentVersion }⟩) >>=
      fun _ ↦ enqueue key (.record { record' with version := t.bump.currentVersion })) _ t
    refine does_bind (does_modify hprim (does_enqueue (Or.inr (Or.inl htx)) (fun hb ↦ ?_) ?_
      fun tx htx' ↦ ?_))
    · exact Or.inl ⟨_, List.mem_append_right _ (List.mem_singleton.2 rfl), rfl, rfl⟩
    · exact Or.inl ⟨_, List.mem_append_right _ (List.mem_singleton.2 rfl), rfl, rfl⟩
    · cases htx.symm.trans htx'

theorem does_changeRows (hinv : e.Inv rt N) (hcommand : command.writeKind = some .change)
    {verb : String} {notFound : EngineError}
    {change : Record → Except EngineError Record} {t : Bytes} {selection : Option Expr}
    (hchange : ∀ key record record', change record = .ok record' →
      PayloadOk N key record.value → PayloadOk N key record'.value) :
    Does rt N command conn (changeRows rt verb notFound change t selection conn)
      (fun _ _ ↦ True) e := by
  refine does_bind (does_get (does_bind (does_ofExcept fun rows hrows ↦ ?_)))
  have hversion : ∀ tx, e.activeTransactions.lookup conn = some tx →
      tx.snapshotVersion = e.readVersion conn := fun tx htx ↦ by rw [readVersion, htx]
  have hseen : e.Bounded → ∀ key ∈ selectedKeys rt selection rows,
      e.SeenKey rt N (e.readVersion conn) key := by
    intro hb key hkey
    obtain ⟨row, hrow, hselected⟩ := List.mem_filterMap.1 hkey
    split at hselected
    · exact ⟨t, row, (hinv hb).seenRow_of_scan hrows row hrow, hselected⟩
    · cases hselected
  refine does_bind (does_mono (does_forEach (I := fun t ↦ ∀ tx,
    t.activeTransactions.lookup conn = some tx → tx.snapshotVersion = e.readVersion conn)
    hversion fun key hkey t hprog hI ↦ ?_) fun _ _ _ _ ↦ does_bind (does_get (does_pure trivial)))
  have hinv' := hprog.inv hinv
  refine does_changeKey hinv' hcommand hI (hchange key) fun hb ↦ ?_
  have hb₀ := hprog.grows.bounded hb
  exact (hseen hb₀ key hkey).mono hprog.grows.installs.subset
    (hprog.grows.version_le (hinv hb₀) (hinv' hb))

theorem mem_keys_of_foldlM_assign {assignments : List Assignment} :
    ∀ {columns columns' : Row}, assignments.foldlM (assignColumn rt) columns = .ok columns' →
    (∀ a ∈ assignments, ∀ col ∈ a.id.head?, N col) → (∀ c ∈ columns.keys, N c) →
    ∀ c ∈ columns'.keys, N c := by
  induction assignments with
  | nil =>
    intro columns columns' h _ hcolumns
    cases h
    exact hcolumns
  | cons a l ih =>
    intro columns columns' h hN hcolumns
    rw [List.foldlM_cons, assignColumn] at h
    rcases hid : a.id with - | ⟨col, rest⟩
    · rw [hid] at h; cases h
    · rw [hid] at h
      refine ih h (fun a' ha' ↦ hN a' (List.mem_cons_of_mem _ ha')) fun c hc ↦ ?_
      rcases (AList.mem_insert _).1 hc with rfl | hc
      · exact hN a List.mem_cons_self c (by rw [hid]; rfl)
      · exact hcolumns c hc

/-- An `UPDATE` keeps rows rows, with columns in `N`. -/
theorem payloadOk_assign {assignments : List Assignment} {key : Bytes} {record record' : Record}
    (hN : ∀ a ∈ assignments, ∀ col ∈ a.id.head?, N col)
    (h : assign rt assignments record = .ok record') (hrecord : PayloadOk N key record.value) :
    PayloadOk N key record'.value := by
  rcases hrecord with hkey | hkey | ⟨columns, hvalue, hcolumns⟩
  · exact Or.inl hkey
  · exact Or.inr (Or.inl hkey)
  · rw [assign, hvalue] at h
    change (assignments.foldlM (assignColumn rt) columns >>= _) = _ at h
    rcases hfold : assignments.foldlM (assignColumn rt) columns with err | columns'
    · rw [hfold] at h; cases h
    · rw [hfold] at h
      cases h
      exact Or.inr (Or.inr ⟨columns', rfl, mem_keys_of_foldlM_assign hfold hN hcolumns⟩)

/-! ### `INSERT` -/

/-- An inserted row has columns of its table. -/
theorem mem_keys_insertedColumns {schema : TableSchema} {nextId : Nat} {row : List Expr}
    (hcolumns : ∀ c ∈ schema.columns, N c) (hauto : ∀ c, schema.autoIncrementCol = some c → N c) :
    ∀ c ∈ (insertedColumns schema nextId row).keys, N c := by
  have hfold : ∀ (l : List (Expr × Bytes)) (columns : Row), (∀ x ∈ l, N x.2) →
      (∀ c ∈ columns.keys, N c) →
      ∀ c ∈ (l.foldl (fun columns c ↦ columns.insert c.2 (insertedText c.1)) columns).keys, N c := by
    intro l
    induction l with
    | nil => exact fun columns _ h ↦ h
    | cons x l ih =>
      intro columns hl h
      refine ih _ (fun y hy ↦ hl y (List.mem_cons_of_mem _ hy)) fun c hc ↦ ?_
      rcases (AList.mem_insert _).1 hc with rfl | hc
      · exact hl x List.mem_cons_self
      · exact h c hc
  refine hfold _ _ (fun x hx ↦ hcolumns _ (List.mem_of_mem_drop (List.of_mem_zip hx).2)) ?_
  intro c hc
  split at hc
  · rename_i col hcol
    rcases (AList.mem_insert _).1 hc with rfl | hc
    · exact hauto _ hcol
    · cases hc
  · cases hc

theorem does_insertRow (hinv : e.Inv rt N) {t : Bytes} {source : Option Query}
    (hcommand : command = .statement (.insert t source)) {schema : TableSchema}
    (hschema : e.schemas.lookup t = some schema) {acc : Inserting}
    (hacc : ∀ x ∈ acc.walEntries, e.Origin x.1 x.2 ∧ (e.Bounded → e.Known N x.1 x.2))
    (hnone : acc.walEntries = [] ∨ e.activeTransactions.lookup conn = none) (row : List Expr) :
    Does rt N command conn (insertRow rt t schema conn acc row)
      (fun acc' e' ↦ e'.schemas = e.schemas ∧
        (∀ x ∈ acc'.walEntries, e'.Origin x.1 x.2 ∧ (e'.Bounded → e'.Known N x.1 x.2)) ∧
        (acc'.walEntries = [] ∨ e'.activeTransactions.lookup conn = none)) e := by
  refine does_bind (does_get ?_)
  have hcolumns : e.Bounded → ∀ c ∈ (insertedColumns schema acc.nextId row).keys, N c := fun hb ↦
    have h := (hinv hb).columns t schema hschema
    mem_keys_insertedColumns h.1 h.2
  -- the draw, the clock reading and the write are a clock reading and one change
  rcases htx : e.activeTransactions.lookup conn with - | tx
  · have htx' : (e.tick.draw conn (e.nextKey rt t)).activeTransactions.lookup conn = none := htx
    have hprim : Primitive rt N command conn e.tick _ :=
      .insertRow t source (insertedColumns schema acc.nextId row) (rt.timestamp e.ticks)
      hcommand htx fun hb ↦ hcolumns ⟨hb.pages, hb.bumps⟩
    show Does rt N command conn (Effect.modify (fun e ↦ e.tick) >>= fun _ ↦
      Effect.modify (fun e' ↦ (e'.draw conn (e.nextKey rt t)).install rt ⟨conn, .insert,
        e.nextKey rt t, .record ⟨.row (insertedColumns schema acc.nextId row), e.currentVersion,
          false, rt.timestamp e.ticks⟩⟩) >>= fun _ ↦ pure _) _ e
    refine does_bind (does_modify .tick (does_bind (does_modify hprim
      (does_pure ⟨rfl, fun x hx ↦ ?_, Or.inr htx⟩))))
    rcases List.mem_append.1 hx with hx | hx
    · obtain ⟨horigin, hknown⟩ := hacc x hx
      exact ⟨horigin.mono (List.subset_append_left _ _), fun hb ↦
        (hknown ⟨hb.pages, hb.bumps⟩).mono (List.subset_append_left _ _) le_rfl⟩
    rcases List.mem_cons.1 hx with rfl | hx
    · exact ⟨Or.inl ⟨_, List.mem_append_right _ (List.mem_singleton.2 rfl), rfl, rfl⟩,
        fun _ ↦ Or.inl ⟨_, List.mem_append_right _ (List.mem_singleton.2 rfl), rfl, rfl⟩⟩
    · obtain ⟨idx, -, hidx⟩ := List.mem_filterMap.1 hx
      split at hidx
      · obtain ⟨val, -, rfl⟩ := Option.map_eq_some_iff.1 hidx
        exact ⟨Or.inr (Or.inr ⟨_, rfl⟩), fun _ ↦ Or.inr ⟨⟨fun _ h ↦ (nomatch h),
          Or.inl ⟨_, _, _, rfl⟩⟩, Or.inr ⟨_, rfl, rowKey_ne_schemasKey _ _⟩⟩⟩
      · cases hidx
  · have hprim : Primitive rt N command conn e.tick _ :=
      .bufferRow t source (insertedColumns schema acc.nextId row) (rt.timestamp e.ticks) tx
      hcommand htx fun hb ↦ hcolumns ⟨hb.pages, hb.bumps⟩
    show Does rt N command conn (Effect.modify (fun e ↦ e.tick) >>= fun _ ↦
      Effect.modify (fun e' ↦ (e'.draw conn (e.nextKey rt t)).buffer conn tx (e.nextKey rt t)
        (.record ⟨.row (insertedColumns schema acc.nextId row), e.currentVersion, false,
          rt.timestamp e.ticks⟩)) >>= fun _ ↦ pure _) _ e
    exact does_bind (does_modify .tick (does_bind (does_modify hprim (does_pure ⟨rfl, fun x hx ↦
      ⟨(hacc x hx).1, fun hb ↦ (hacc x hx).2 ⟨hb.pages, hb.bumps⟩⟩,
        Or.inl (hnone.resolve_right (by rw [htx]; exact nofun))⟩))))

theorem does_storeNextId (hinv : e.Inv rt N) {t : Bytes} {schema : TableSchema}
    (hschema : e.schemas.lookup t = some schema) (nextId : Nat) :
    Does rt N command conn (storeNextId rt t schema nextId) (fun _ _ ↦ True) e := by
  rw [storeNextId]
  split
  · refine does_bind (does_modify (.schemas _ (Or.inl fun t' ↦ ?_) fun hb t' schema' h' ↦ ?_) ?_)
    · rw [HashMap.lookup_insert_eq_ite]
      split
      · rename_i ht
        rw [ht, hschema]
        rfl
      · rfl
    · rw [HashMap.lookup_insert_eq_ite] at h'
      split at h'
      · cases h'
        exact (hinv hb).columns t schema hschema
      · exact (hinv hb).columns t' schema' h'
    · refine does_bind (does_mono does_schemasRecord fun data e' _ ⟨heq, ts, hdata⟩ ↦ ?_)
      subst heq hdata
      refine does_enqueue (Or.inl rfl)
        (fun _ ↦ Or.inr ⟨⟨fun r hr ↦ ?_, Or.inr (Or.inl rfl)⟩, Or.inl rfl⟩)
        (Or.inr (Or.inl rfl)) trivial
      cases hr
      exact le_rfl
  · exact does_pure trivial

theorem does_handleInsert (hinv : e.Inv rt N) {t : Bytes} {source : Query}
    {source' : Option Query} (hcommand : command = .statement (.insert t source')) :
    Does rt N command conn (handleInsert rt t source conn) (fun _ _ ↦ True) e := by
  refine does_bind (does_get (does_bind (does_ofExcept fun schema hschema ↦ ?_)))
  have hlookup : e.schemas.lookup t = some schema := by
    split at hschema
    · cases hschema; assumption
    · cases hschema
  split
  · rename_i rows _
    refine does_bind (does_mono (does_fold (I := fun acc t ↦ t.schemas = e.schemas ∧
      (∀ x ∈ acc.walEntries, t.Origin x.1 x.2 ∧ (t.Bounded → t.Known N x.1 x.2)) ∧
      (acc.walEntries = [] ∨ t.activeTransactions.lookup conn = none))
      ⟨rfl, fun x hx ↦ (nomatch hx), Or.inl rfl⟩
      fun row _ acc e' hprog ⟨hschemas, hacc, hnone⟩ ↦ ?_)
      fun acc e₁ hprog₁ ⟨hschemas₁, hacc₁, hnone₁⟩ ↦ ?_)
    · have hlookup' : e'.schemas.lookup t = some schema := hschemas ▸ hlookup
      exact does_mono (does_insertRow (hprog.inv hinv) hcommand hlookup' hacc hnone row)
        fun acc' e'' _ ⟨hs, hk⟩ ↦ ⟨hs.trans hschemas, hk⟩
    · have hinv₁ := hprog₁.inv hinv
      refine does_bind (does_mono (does_forEach (I := fun e' ↦ e'.schemas = e.schemas ∧
        e'.activeTransactions = e₁.activeTransactions) ⟨hschemas₁, rfl⟩
        fun x hx e' hprog' hs ↦ ?_) fun _ e₂ hprog₂ ⟨hschemas₂, _⟩ ↦ ?_)
      · have hnone : e'.activeTransactions.lookup conn = none :=
          hs.2 ▸ hnone₁.resolve_left (List.ne_nil_of_mem hx)
        refine does_enqueue (Or.inr (Or.inl hnone)) (fun hb ↦ ?_)
          ((hacc₁ x hx).1.mono hprog'.grows.installs.subset) hs
        have hb₁ := hprog'.grows.bounded hb
        exact ((hacc₁ x hx).2 hb₁).mono hprog'.grows.installs.subset
          (hprog'.grows.version_le (hinv₁ hb₁) ((hprog'.inv hinv₁) hb))
      · exact does_bind (does_mono (does_storeNextId (hprog₂.inv hinv₁) (hschemas₂ ▸ hlookup) _)
          fun _ _ _ _ ↦ does_pure trivial)
  · exact does_throw

/-! ### Tables and indexes -/

theorem does_storeSchemas (tables : HashMap Bytes TableSchema) (timestamp : Int)
    (hcommand : ∃ name columns, command = .statement (.createTable name columns)) :
    Does rt N command conn (insertTree rt schemasKey
      (.record ⟨.schemas tables, e.currentVersion, false, timestamp⟩)) (fun _ _ ↦ True) e := by
  have hprim : Primitive rt N command conn e _ := .storeSchemas tables timestamp hcommand
  exact wp_insertTree (fun _ ↦ ⟨.single hprim, trivial⟩) fun _ ↦ .single hprim

theorem does_createTable (hinv : e.Inv rt N) {name : Bytes} {columns : List ColumnDef}
    (hcommand : command = .statement (.createTable name columns)) (hcolumns : ∀ c ∈ columns, N c.name) :
    Does rt N command conn (createTable rt name columns) (fun _ _ ↦ True) e := by
  refine does_bind (does_modify (.schemas _ (Or.inr ⟨name, columns, hcommand⟩)
    fun hb t schema h ↦ ?_) ?_)
  · rw [HashMap.lookup_insert_eq_ite] at h
    split at h
    · cases h
      refine ⟨fun c hc ↦ ?_, fun c hc ↦ ?_⟩
      · obtain ⟨column, hcolumn, rfl⟩ := List.mem_map.1 hc
        exact hcolumns column hcolumn
      · obtain ⟨column, hcolumn, rfl⟩ := Option.map_eq_some_iff.1 hc
        exact hcolumns column (List.mem_of_find?_eq_some hcolumn)
    · exact (hinv hb).columns t schema h
  · refine does_bind (does_mono does_schemasRecord fun data e' _ ⟨heq, ts, hdata⟩ ↦ ?_)
    subst heq hdata
    exact does_bind (does_mono (does_storeSchemas _ ts ⟨name, columns, hcommand⟩)
      fun _ _ _ _ ↦ does_pure trivial)

theorem does_createIndex (hinv : e.Inv rt N) {name : Option Bytes} {t : Bytes}
    {columns : List Expr} (hcommand : command = .statement (.createIndex name t columns)) :
    Does rt N command conn (createIndex rt name t columns conn) (fun _ _ ↦ True) e := by
  refine does_bind (does_ofExcept fun column _ ↦ ?_)
  have hprim : Primitive rt N command conn e _ :=
    .indices (e.indices.insert (name.getD (bytes "unnamed_idx"))
      ⟨name.getD (bytes "unnamed_idx"), t, column⟩) ⟨name, t, columns, hcommand⟩
  have hinv₁ := Primitive.inv hprim hinv
  refine does_bind (does_modify hprim ?_)
  have hindex : command.writeKind = some .index := by rw [hcommand]; rfl
  refine does_bind (does_get (does_bind (does_ofExcept fun rows hrows ↦ ?_)))
  refine does_bind (does_mono (does_forEach (I := fun _ ↦ True) trivial
    fun row hrow e' hprog _ ↦ ?_) fun _ _ _ _ ↦ does_pure trivial)
  split
  · rename_i val key _ hkey
    refine does_bind (does_modify (.index _ _ hindex ⟨_, _, _, rfl⟩ fun hb ↦ ?_)
      (does_enqueue (Or.inr (Or.inr hindex)) (fun _ ↦ ?_) (Or.inr (Or.inr ⟨_, rfl⟩)) trivial))
    · have hb₁ := hprog.grows.bounded hb
      have hseen := (hinv₁ hb₁).seenRow_of_scanTable hrows row hrow
      exact ⟨_, t, row, hseen.mono hprog.grows.installs.subset
        (hprog.grows.version_le (hinv₁ hb₁) (hprog.inv hinv₁ hb)), hkey⟩
    exact Or.inl ⟨_, List.mem_append_right _ (List.mem_singleton.2 rfl), rfl, rfl⟩
  · exact does_pure trivial

/-! ### Transactions -/

theorem does_validateKey (hinv : e.Inv rt N) {tx : Transaction} (key : Bytes) :
    Does rt N command conn (validateKey rt tx key) (fun _ t ↦ t = e) e := by
  refine does_bind (does_mono (does_fetch hinv key) fun data? t _ ⟨heq, _⟩ ↦ ?_)
  subst heq
  split
  · exact does_pure rfl
  · refine does_bind (does_ofExcept fun record _ ↦ ?_)
    split
    · exact does_throw
    · exact does_pure rfl

theorem does_commit (hinv : e.Inv rt N) (hcommand : command = .commit) :
    Does rt N command conn (commit rt conn) (fun _ _ ↦ True) e := by
  refine does_bind (does_get ?_)
  split
  · exact does_throw
  rename_i tx htx
  refine does_bind (does_modify (f := closed conn) (.closed (Or.inl hcommand)) ?_)
  have hprog₁ : Progress rt N command conn e (e.closed conn) := .single (.closed (Or.inl hcommand))
  have hinv₁ := hprog₁.inv hinv
  refine does_bind (does_mono (does_forEach (I := fun t ↦ t = e.closed conn) rfl
    fun key _ t _ heq ↦ ?_) fun _ t _ heq ↦ ?_)
  · subst heq
    exact does_validateKey hinv₁ key
  subst heq
  have hprim : Primitive rt N command conn (e.closed conn) (e.closed conn).bump := .bump hcommand
  refine does_bind (does_modify hprim (does_bind (does_get ?_)))
  -- what the writes rely on: the buffered records have an origin, and all snapshots are older
  refine does_bind (does_mono (does_forEach (I := fun t ↦
    t.activeTransactions = (e.closed conn).activeTransactions ∧
      t.currentVersion = (e.closed conn).bump.currentVersion) ⟨rfl, rfl⟩
    fun update hupdate t hprog ⟨hactive, hversion⟩ ↦ ?_) fun _ _ _ _ ↦ does_pure trivial)
  refine does_bind (does_ofExcept fun record hrecord ↦ ?_)
  rw [← hversion]
  have hkept : t.activeTransactions = (e.closed conn).activeTransactions ∧
    t.currentVersion = t.currentVersion := ⟨hactive, rfl⟩
  have hprog₀ : Progress rt N command conn e t :=
    (hprog₁.tail hprim).trans hprog
  have hnone : t.activeTransactions.lookup conn = none := by
    rw [hactive, Engine.closed, AList.lookup_erase]
  refine does_bind (does_modify (.commitKey update.1 record hcommand hnone fun hb ↦ ?_)
    (does_enqueue (Or.inr (Or.inl hnone)) (fun _ ↦ ?_) ?_ hkept))
  · have hb₀ := hprog₀.grows.bounded hb
    have hb₁ := hprog.grows.bounded hb
    have hco := hinv hb₀
    obtain ⟨⟨r, hr, hpayload⟩, horigin⟩ := hco.buffered conn tx htx update.1 update.2
      (mem_iterate_iff.1 hupdate)
    obtain rfl : r = record := by
      rw [hr] at hrecord
      exact Except.ok.inj hrecord
    refine ⟨horigin.imp (fun h ↦ h.mono hprog₀.grows.installs.subset
      (hprog₀.grows.version_le hco ((hprog₀.inv hinv) hb)))
      fun h ↦ hprog₀.grows.drawn.subset h, hpayload, fun c tx' htx' ↦ ?_⟩
    rw [hactive] at htx'
    have hle := hco.snapshot c tx' (lookup_of_lookup_closed htx').2
    have hnext : (e.closed conn).bump.currentVersion = e.currentVersion + 1 := by
      refine Nat.mod_eq_of_lt ?_
      rw [show (e.closed conn).currentVersion = e.history.bumps from hco.version_eq]
      exact hb₁.bumps
    rw [hversion, hnext]
    exact Nat.lt_succ_of_le hle
  · exact Or.inl ⟨_, List.mem_append_right _ (List.mem_singleton.2 rfl), rfl, rfl⟩
  · exact Or.inl ⟨_, List.mem_append_right _ (List.mem_singleton.2 rfl), rfl, rfl⟩

/-! ### Commands -/

theorem does_executeStatement (hinv : e.Inv rt N) {stmt : Statement}
    (hcommand : command = .statement stmt) (hcolumns : command.ColumnsIn N) :
    Does rt N command conn (executeStatement rt stmt conn) (fun _ _ ↦ True) e := by
  subst hcommand
  cases stmt with
  | call modulePath => exact does_ofExcept fun _ _ ↦ trivial
  | createIndex name t columns => exact does_createIndex hinv rfl
  | createTable name columns => exact does_createTable hinv rfl hcolumns
  | explain statement => exact does_pure trivial
  | insert t source => exact does_bind (does_ofExcept fun source' _ ↦ does_handleInsert hinv rfl)
  | query query =>
    exact does_bind (does_get (does_bind (does_ofExcept fun _ _ ↦ does_pure trivial)))
  | update table assignments selection =>
    cases table with
    | table name =>
      exact does_changeRows hinv rfl fun key record record' h ↦ payloadOk_assign hcolumns h
    | other => exact does_throw
  | delete fromTables selection =>
    rcases fromTables with - | ⟨_ | _, rest⟩
    · exact does_throw
    · refine does_changeRows hinv rfl fun key record record' h hrecord ↦ ?_
      cases h
      exact hrecord
    · exact does_throw
  | other => exact does_throw

/-- **The retry loop.** What every attempt ends in the loop ends in, if another attempt may follow an
error. -/
theorem wp_executeRetrying {stmt : Statement} {I : Engine → Prop} {Q : Reply → Engine → Prop}
    {F : EngineError → Engine → Prop}
    (hstep : ∀ u, I u → Effect.wp (executeStatement rt stmt conn) Q (fun err u' ↦ I u' ∧ F err u') u) :
    ∀ (retries : Nat) {e : Engine}, I e → Effect.wp (executeRetrying rt stmt conn retries) Q F e
  | 0, e, he => Effect.wp_mono (hstep e he) (fun _ _ h ↦ h) fun _ _ h ↦ h.2
  | retries + 1, e, he => by
    have hone := hstep e he
    unfold Effect.wp at hone ⊢
    unfold executeRetrying
    rcases hrun : executeStatement rt stmt conn e with ⟨err | reply, u⟩
    · rw [hrun] at hone
      by_cases hconflict : occursIn (bytes "conflict") err.message
      · have hrest := wp_executeRetrying hstep retries hone.1
        unfold Effect.wp at hrest
        dsimp only
        rw [if_pos hconflict]
        exact hrest
      · dsimp only
        rw [if_neg hconflict]
        exact hone.2
    · rw [hrun] at hone
      exact hone

/-- What each attempt keeps, all attempts keep. -/
theorem maintains_executeRetrying {stmt : Statement} {I : Engine → Prop}
    (h : Effect.Maintains I (executeStatement rt stmt conn)) (retries : Nat) :
    Effect.Maintains I (executeRetrying rt stmt conn retries) := fun _ he ↦
  wp_executeRetrying (fun u hu ↦ Effect.wp_mono (h u hu) (fun _ _ h ↦ h) fun _ _ h ↦ ⟨h, h⟩) retries he

theorem executeRetrying_invariant {stmt : Statement} {I : Engine → Prop}
    (h : ∀ u, I u → I (executeStatement rt stmt conn u).2) (retries : Nat) (he : I e) :
    I (executeRetrying rt stmt conn retries e).2 :=
  (maintains_executeRetrying (Effect.maintains_of_state h) retries).state he

/-- A statement that does not fail with a conflict is not run again. -/
theorem executeRetrying_eq {stmt : Statement} (h : ∀ err u,
    executeStatement rt stmt conn e = (.error err, u) →
      occursIn (bytes "conflict") err.message = false) :
    ∀ retries, executeRetrying rt stmt conn retries e = executeStatement rt stmt conn e
  | 0 => rfl
  | retries + 1 => by
    unfold executeRetrying
    rcases hrun : executeStatement rt stmt conn e with ⟨err | reply, u⟩
    · exact if_neg (by rw [h err u hrun]; exact Bool.false_ne_true)
    · rfl

theorem does_executeRetrying (hinv : e.Inv rt N) {stmt : Statement}
    (hcommand : command = .statement stmt) (hcolumns : command.ColumnsIn N) (retries : Nat) :
    Does rt N command conn (executeRetrying rt stmt conn retries) (fun _ _ ↦ True) e := by
  refine wp_executeRetrying (I := Progress rt N command conn e) (fun u hu ↦ ?_) retries .refl
  have hdoes : Does rt N command conn (executeStatement rt stmt conn) _ u :=
    does_executeStatement (hu.inv hinv) hcommand hcolumns
  exact Effect.wp_mono hdoes (fun _ _ h ↦ ⟨hu.trans h.1, trivial⟩)
    fun _ _ h ↦ ⟨hu.trans h, hu.trans h⟩

/-- **Every command makes progress**, and nothing else. -/
theorem does_execute (hinv : e.Inv rt N) (hcolumns : command.ColumnsIn N) :
    Does rt N command conn (execute rt command conn) (fun _ _ ↦ True) e := by
  cases command with
  | flush => exact does_pure trivial
  | begin => exact does_bind (does_modify (f := opened conn) (.opened rfl) (does_pure trivial))
  | commit => exact does_commit hinv rfl
  | rollback => exact does_bind (does_modify (f := closed conn) (.closed (Or.inr rfl)) (does_pure trivial))
  | statement stmt => exact does_executeRetrying hinv rfl hcolumns 5

theorem progress_execute (hinv : e.Inv rt N) (hcolumns : command.ColumnsIn N) :
    Progress rt N command conn e (execute rt command conn e).2 := by
  have h : Does rt N command conn (execute rt command conn) _ e := does_execute hinv hcolumns
  unfold Does Effect.wp at h
  rcases hrun : execute rt command conn e with ⟨err | reply, e'⟩
  · rw [hrun] at h; exact h
  · rw [hrun] at h; exact h.1

end Handlers

end Engine

end KsSql
