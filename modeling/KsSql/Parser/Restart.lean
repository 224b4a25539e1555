import KsSql.Parser.PlainRuntime
import KsSql.Parser.Stores

/-!
# Restarts

`Engine.reopen` is `Engine::new` on the files that an engine leaves: the entries recovered from the log
go to the page file and to the memory tier, the catalogue is read from `__schemas__`, and the version
counter from `__version__`. A run with restarts is a sequence of sessions (`Sessions`).

No statement writes the key `__version__` (`Timed`), so every session starts at version zero. The records
found are within the counter only where all of them have version zero (`clock_survives_iff`), as they have
when no session has incremented its counter.
-/

namespace KsSql

open BPlusTree

/-- The key under which the version counter is looked for. -/
def versionKey : Bytes := bytes "__version__"

theorem rowKey_ne_versionKey (t : Bytes) (id : UInt64) : rowKey t id ≠ versionKey := by
  intro h
  have hcolon : (58 : UInt8) ∈ rowKey t id :=
    List.mem_append_left _ (List.mem_append_right _ (by decide))
  rw [h] at hcolon
  exact absurd hcolon (by decide)

theorem indexKey_ne_versionKey (t column value : Bytes) : indexKey t column value ≠ versionKey := by
  intro h
  have hcolon : (58 : UInt8) ∈ indexKey t column value :=
    List.mem_append_left _ (List.mem_append_right _ (by decide))
  rw [h] at hcolon
  exact absurd hcolon (by decide)

theorem schemasKey_ne_versionKey : schemasKey ≠ versionKey := by decide

/-- What the decoders make of the value of a record on a restart. -/
structure Recovery where
  /-- What an encoded row decodes to, taken as a catalogue. -/
  rowSchemas : Row → Option (HashMap Bytes TableSchema)
  /-- What a value decodes to, taken as a 64-bit number. -/
  payloadVersion : Payload → Option Nat

/-- Decode the value of a record as a catalogue. -/
def Recovery.decodeSchemas (rc : Recovery) :
    Payload → Except EngineError (HashMap Bytes TableSchema)
  | .schemas tables => .ok tables
  | .row columns => match rc.rowSchemas columns with
    | some tables => .ok tables
    | none => .error .decode

/-- Decode the value of a record as a version. -/
def Recovery.decodeVersion (rc : Recovery) (value : Payload) : Except EngineError Nat :=
  match rc.payloadVersion value with
  | some version => .ok version
  | none => .error .decode

namespace Engine

variable [Bincode (WalEntry Bytes Data)]

/-- `BPlusTree::open` on the files that an engine leaves. Clock readings and the history go on. -/
def openFiles (rt : Runtime) (e : Engine) : Engine :=
  let entries : List (WalEntry Bytes Data) := Wal.recover e.btree.wal.file
  let btree := reopen (fun n ↦ rt.nanos (e.ticks + n)) entries e.btree.pager (MemoryTier.new 1024)
  { btree := { btree with wal :=
      { file := e.btree.wal.file
        enqueued := e.btree.wal.enqueued
        logged := e.btree.wal.logged } }
    ticks := e.ticks + entries.length
    history := { e.history with evictions := e.history.evictions + 1 } }

/-- The catalogue that `Engine::new` finds. -/
def recoverSchemas (rt : Runtime) (rc : Recovery) (e : Engine) :
    Except EngineError (HashMap Bytes TableSchema) := do
  match ← e.fetch rt schemasKey with
  | none => pure ∅
  | some data =>
    let record ← rt.decodeRecord data
    rc.decodeSchemas record.value

/-- The version that `Engine::new` finds. -/
def recoverVersion (rt : Runtime) (rc : Recovery) (e : Engine) : Except EngineError Nat := do
  match ← e.fetch rt versionKey with
  | none => pure 0
  | some data =>
    let record ← rt.decodeRecord data
    rc.decodeVersion record.value

/-- `Engine::new` on the files that an engine leaves. -/
def reopen (rt : Runtime) (rc : Recovery) (e : Engine) : Except EngineError Engine := do
  let e := e.openFiles rt
  let schemas ← e.recoverSchemas rt rc
  let version ← e.recoverVersion rt rc
  pure { e with schemas := schemas, currentVersion := version }

end Engine

/-- Sessions one after another, each on the files that the one before left. What a session recovers
from the log was logged. -/
inductive Sessions [Bincode (WalEntry Bytes Data)] (rt : Runtime) (rc : Recovery) : System → Prop
  | start : Sessions rt rc System.start
  | run {s s' : System} (actions : List Action) :
      Sessions rt rc s → s.run rt actions = some s' → Sessions rt rc s'
  | restart {s : System} {e : Engine} : Sessions rt rc s →
      (∀ x ∈ (Wal.recover s.engine.btree.wal.file : List (WalEntry Bytes Data)),
        x ∈ s.engine.btree.wal.logged) →
      s.engine.reopen rt rc = .ok e → Sessions rt rc { engine := e }

/-! ### What is never stored -/

namespace Engine

variable {rt : Runtime} {conn : Nat} {e e' : Engine}

/-- What may be stored: nothing under `__version__`, and before the first increment of a counter only
records of version zero. -/
def MayHold (e : Engine) (key : Bytes) (data : Data) : Prop :=
  key ≠ versionKey ∧ (e.history.bumps = 0 → ∀ r, data = .record r → r.version = 0)

/-- Everything stored may be stored, and the entries `held` were enqueued. -/
structure Timed (held : List (WalEntry Bytes Data)) (e : Engine) : Prop where
  held : held ⊆ e.btree.wal.enqueued
  version_eq : e.history.bumps = 0 → e.currentVersion = 0
  tier : ∀ key data, e.btree.memoryTier.get key = some data → e.MayHold key data
  stores : e.Stores e.MayHold
  buffered : ∀ conn tx, e.activeTransactions.lookup conn = some tx →
    ∀ key data, tx.updates.lookup key = some data → key ≠ versionKey

variable {held : List (WalEntry Bytes Data)}

theorem MayHold.of_bumps {key : Bytes} {data : Data} (h : e.MayHold key data)
    (hb : e'.history.bumps = 0 → e.history.bumps = 0) : e'.MayHold key data :=
  ⟨h.1, fun h0 ↦ h.2 (hb h0)⟩

theorem mayHold_index (t column value target : Bytes) :
    e.MayHold (indexKey t column value) (.raw target) :=
  ⟨indexKey_ne_versionKey t column value, fun _ _ hr ↦ nomatch hr⟩

theorem Timed.congr (h : e.Timed held) (hbumps : e'.history.bumps = e.history.bumps)
    (hversion : e'.currentVersion = e.currentVersion) (hbtree : e'.btree = e.btree)
    (hactive : e'.activeTransactions = e.activeTransactions) : e'.Timed held where
  held := hbtree ▸ h.held
  version_eq := by
    rw [hbumps, hversion]
    exact h.version_eq
  tier key data hd := (h.tier key data (hbtree ▸ hd)).of_bumps fun h0 ↦ hbumps ▸ h0
  stores := h.stores.congr (hbtree ▸ rfl) (hbtree ▸ rfl) fun _ _ hm ↦
    hm.of_bumps fun h0 ↦ hbumps ▸ h0
  buffered := by
    rw [hactive]
    exact h.buffered

theorem Timed.bump (h : e.Timed held) : e.bump.Timed held where
  held := h.held
  version_eq h0 := absurd h0 (Nat.succ_ne_zero _)
  tier key data hd := (h.tier key data hd).of_bumps fun h0 ↦ absurd h0 (Nat.succ_ne_zero _)
  stores := h.stores.congr rfl rfl fun _ _ hm ↦ hm.of_bumps fun h0 ↦ absurd h0 (Nat.succ_ne_zero _)
  buffered := h.buffered

theorem Timed.install (h : e.Timed held) {w : Install} (hw : e.MayHold w.key w.data) :
    (e.install rt w).Timed held where
  held := h.held
  version_eq := h.version_eq
  tier key data hd := by
    rcases MemoryTier.get_insert_cases hd with ⟨rfl, rfl⟩ | ⟨-, hd⟩
    · exact hw
    · exact h.tier key data hd
  stores := h.stores.congr rfl rfl fun _ _ hm ↦ hm
  buffered := h.buffered

theorem Timed.pushed (h : e.Timed held) {key : Bytes} {data : Data} (hm : e.MayHold key data) :
    (e.pushed key data).Timed held :=
  ⟨fun _ hx ↦ List.mem_append_left _ (h.held hx), h.version_eq, h.tier, h.stores.pushed hm,
    h.buffered⟩

theorem Timed.insertTree (h : e.Timed held) {key : Bytes} {data : Data} (hm : e.MayHold key data) :
    ({ e with btree := (e.btree.insert rt.search key data).2 } : Engine).Timed held where
  held := by
    obtain ⟨images, -, hwal⟩ := (insert_frame rt.search e.btree key data).wal
    rw [hwal]
    exact fun _ hx ↦ List.mem_append_left _ (h.held hx)
  version_eq := h.version_eq
  tier k d hd := h.tier k d (by rwa [(insert_frame rt.search e.btree key data).memoryTier] at hd)
  stores := h.stores.insertTree hm
  buffered := h.buffered

theorem Timed.buffer (h : e.Timed held) {tx : Transaction}
    (htx : e.activeTransactions.lookup conn = some tx) {key : Bytes} (hkey : key ≠ versionKey)
    (data : Data) : (e.buffer conn tx key data).Timed held where
  held := h.held
  version_eq := h.version_eq
  tier := h.tier
  stores := h.stores.congr rfl rfl fun _ _ hm ↦ hm
  buffered c tx' htx' k d hd := by
    rw [Engine.buffer, HashMap.lookup_insert_eq_ite] at htx'
    split at htx'
    · cases htx'
      rw [HashMap.lookup_insert_eq_ite] at hd
      split at hd
      · rename_i hk
        exact hk ▸ hkey
      · exact h.buffered conn tx htx k d hd
    · exact h.buffered c tx' htx' k d hd

theorem Timed.opened (h : e.Timed held) : (e.opened conn).Timed held where
  held := h.held
  version_eq := h.version_eq
  tier := h.tier
  stores := h.stores.congr rfl rfl fun _ _ hm ↦ hm
  buffered c tx htx k d hd := by
    rw [Engine.opened, HashMap.lookup_insert_eq_ite] at htx
    split at htx
    · cases htx; cases hd
    · exact h.buffered c tx htx k d hd

theorem Timed.closed (h : e.Timed held) : (e.closed conn).Timed held :=
  ⟨h.held, h.version_eq, h.tier, h.stores.congr rfl rfl fun _ _ hm ↦ hm,
    fun c tx htx ↦ h.buffered c tx (lookup_of_lookup_closed htx).2⟩

/-- What a lookup finds is stored. -/
theorem Timed.fetch (h : e.Timed held) {key : Bytes} {data : Data}
    (hfetch : e.fetch rt key = .ok (some data)) : e.MayHold key data := by
  rw [Engine.fetch, BPlusTree.get] at hfetch
  rcases htier : e.btree.memoryTier.get key with - | d
  · rw [htier] at hfetch
    rcases hpages : e.btree.getPages rt.search key with err | found
    · rw [hpages] at hfetch; cases hfetch
    · rw [hpages] at hfetch
      cases hfetch
      exact getPages_rel rt.search h.stores.pages hpages
  · rw [htier] at hfetch
    cases hfetch
    exact h.tier key data htier

/-! ### Statements -/

/-- Run from `e`, the routine stores only what may be stored, and ends in a result satisfying `Q` or in
an error. -/
def Keeps (held : List (WalEntry Bytes Data)) {α : Type} (p : Routine α) (Q : α → Engine → Prop)
    (e : Engine) : Prop :=
  Effect.wp p (fun a t ↦ t.Timed held ∧ Q a t) (fun _ t ↦ t.Timed held) e

section Rules

variable {α β : Type} {Q : α → Engine → Prop}

theorem keeps_pure {a : α} (he : e.Timed held) (h : Q a e) : Keeps held (pure a) Q e :=
  Effect.wp_pure ⟨he, h⟩

theorem keeps_throw {err : EngineError} (he : e.Timed held) : Keeps held (Effect.throw err) Q e :=
  Effect.wp_throw he

theorem keeps_ofExcept {x : Except EngineError α} (he : e.Timed held) (h : ∀ a, x = .ok a → Q a e) :
    Keeps held (Effect.ofExcept x) Q e :=
  Effect.wp_ofExcept (fun a ha ↦ ⟨he, h a ha⟩) fun _ _ ↦ he

theorem keeps_get {Q : Engine → Engine → Prop} (he : e.Timed held) (h : Q e e) :
    Keeps held Effect.get Q e :=
  Effect.wp_get ⟨he, h⟩

theorem keeps_modify {Q : Unit → Engine → Prop} {f : Engine → Engine} (he : (f e).Timed held)
    (h : Q () (f e)) : Keeps held (Effect.modify f) Q e :=
  Effect.wp_modify ⟨he, h⟩

theorem keeps_bind {p : Routine β} {f : β → Routine α} {P : β → Engine → Prop}
    (hp : Keeps held p P e) (hf : ∀ b t, t.Timed held → P b t → Keeps held (f b) Q t) :
    Keeps held (p >>= f) Q e :=
  Effect.wp_bind (Effect.wp_mono hp (fun b t h ↦ hf b t h.1 h.2) fun _ _ h ↦ h)

theorem keeps_fold {f : β → α → Routine β} {l : List α} {b : β} {I : β → Engine → Prop}
    (he : e.Timed held) (hinit : I b e)
    (hstep : ∀ a ∈ l, ∀ b t, t.Timed held → I b t → Keeps held (f b a) I t) :
    Keeps held (Effect.fold f l b) I e :=
  Effect.wp_fold (fun _ b t ↦ t.Timed held ∧ I b t) ⟨he, hinit⟩
    (fun _ a _ hl b t ht ↦
      hstep a (hl ▸ List.mem_append_right _ List.mem_cons_self) b t ht.1 ht.2) fun _ _ h ↦ h

theorem keeps_forEach {f : α → Routine Unit} {l : List α} {I : Engine → Prop} (he : e.Timed held)
    (hinit : I e) (hstep : ∀ a ∈ l, ∀ t, t.Timed held → I t → Keeps held (f a) (fun _ ↦ I) t) :
    Keeps held (Effect.forEach l f) (fun _ ↦ I) e :=
  keeps_fold he hinit fun a ha _ ↦ hstep a ha

end Rules

theorem keeps_fetchKey (he : e.Timed held) (key : Bytes) :
    Keeps held (fetchKey rt key) (fun data t ↦ e = t ∧ ∀ d, data = some d → e.MayHold key d) e := by
  unfold Keeps Effect.wp fetchKey
  rcases hfetch : e.fetch rt key with err | data
  · exact he
  · refine ⟨he, rfl, fun d hd ↦ ?_⟩
    cases hd
    exact he.fetch hfetch

theorem keeps_enqueue (he : e.Timed held) {key : Bytes} {data : Data} (hm : e.MayHold key data) :
    Keeps held (enqueue key data) (fun _ t ↦ t.history.bumps = e.history.bumps) e :=
  wp_enqueue (fun _ ↦ ⟨he.pushed hm, rfl⟩) fun _ ↦ he.congr rfl rfl rfl rfl

/-- The catalogue may be stored. -/
theorem mayHold_schemas (he : e.Timed held) (tables : HashMap Bytes TableSchema) (timestamp : Int) :
    e.MayHold schemasKey (.record ⟨.schemas tables, e.currentVersion, false, timestamp⟩) := by
  refine ⟨schemasKey_ne_versionKey, fun h0 r hr ↦ ?_⟩
  cases hr
  exact he.version_eq h0

theorem keeps_schemasRecord (he : e.Timed held) :
    Keeps held (schemasRecord rt) (fun data t ↦ t.MayHold schemasKey data) e := by
  refine keeps_bind (P := fun e' t ↦ e = e' ∧ e = t) (keeps_get he ⟨rfl, rfl⟩) ?_
  rintro _ _ - ⟨rfl, rfl⟩
  refine keeps_bind (P := fun _ t ↦ e.tick = t) (keeps_modify (he.congr rfl rfl rfl rfl) rfl) ?_
  rintro - _ ht rfl
  exact keeps_pure ht (mayHold_schemas he _ _)

theorem keeps_changeKey (he : e.Timed held) {version : Nat} {notFound : EngineError}
    {change : Record → Except EngineError Record} {key : Bytes} :
    Keeps held (changeKey rt conn version notFound change key) (fun _ _ ↦ True) e := by
  refine keeps_bind (keeps_fetchKey he key) ?_
  rintro data? _ - ⟨rfl, hfound⟩
  refine keeps_bind (P := fun data t ↦ e = t ∧ data? = some data) (keeps_ofExcept he ?_) ?_
  · intro data hdata
    split at hdata
    · cases hdata
      exact ⟨rfl, rfl⟩
    · cases hdata
  rintro data _ - ⟨rfl, hdata⟩
  have hkey := (hfound data hdata).1
  refine keeps_bind (P := fun _ t ↦ e = t) (keeps_ofExcept he fun _ _ ↦ rfl) ?_
  rintro record _ - rfl
  refine keeps_bind (P := fun _ t ↦ e = t) (keeps_ofExcept he fun _ _ ↦ rfl) ?_
  rintro record' _ - rfl
  refine keeps_bind (P := fun e' t ↦ e = e' ∧ e = t) (keeps_get he ⟨rfl, rfl⟩) ?_
  rintro _ _ - ⟨rfl, rfl⟩
  split
  · rename_i tx htx
    exact keeps_modify (he.buffer htx hkey _) trivial
  · have hm : ∀ data, e.bump.MayHold key data := fun data ↦
      ⟨hkey, fun h0 ↦ absurd h0 (Nat.succ_ne_zero _)⟩
    refine keeps_bind (P := fun _ t ↦ e.bump = t) (keeps_modify he.bump rfl) ?_
    rintro - _ ht rfl
    refine keeps_bind (P := fun e' t ↦ e.bump = e' ∧ e.bump = t) (keeps_get ht ⟨rfl, rfl⟩) ?_
    rintro _ _ - ⟨rfl, rfl⟩
    refine keeps_bind (P := fun _ t ↦ t.history.bumps = e.bump.history.bumps)
      (keeps_modify (ht.install (hm _)) rfl) fun _ t ht hbumps ↦ ?_
    exact Effect.wp_mono (keeps_enqueue ht ((hm _).of_bumps fun h0 ↦ hbumps ▸ h0))
      (fun _ _ h ↦ ⟨h.1, trivial⟩) fun _ _ h ↦ h

theorem keeps_changeRows (he : e.Timed held) {verb : String} {notFound : EngineError}
    {change : Record → Except EngineError Record} {t : Bytes} {selection : Option Expr} :
    Keeps held (changeRows rt verb notFound change t selection conn) (fun _ _ ↦ True) e := by
  refine keeps_bind (P := fun _ _ ↦ True) (keeps_get he trivial) fun e₁ t₁ ht₁ _ ↦ ?_
  refine keeps_bind (P := fun _ _ ↦ True) (keeps_ofExcept ht₁ fun _ _ ↦ trivial) fun rows t₂ ht₂ _ ↦ ?_
  refine keeps_bind (keeps_forEach (I := fun _ ↦ True) ht₂ trivial
    fun key _ t ht _ ↦ keeps_changeKey ht) fun _ t₃ ht₃ _ ↦ ?_
  exact keeps_bind (P := fun _ _ ↦ True) (keeps_get ht₃ trivial) fun _ _ ht₄ _ ↦
    keeps_pure ht₄ trivial

theorem keeps_insertRow (he : e.Timed held) {t : Bytes} {schema : TableSchema} {acc : Inserting}
    (hacc : ∀ x ∈ acc.walEntries, e.MayHold x.1 x.2) (row : List Expr) :
    Keeps held (insertRow rt t schema conn acc row)
      (fun acc' t ↦ ∀ x ∈ acc'.walEntries, t.MayHold x.1 x.2) e := by
  refine keeps_bind (P := fun e' t ↦ e = e' ∧ e = t) (keeps_get he ⟨rfl, rfl⟩) ?_
  rintro _ _ - ⟨rfl, rfl⟩
  have hkey : e.nextKey rt t ≠ versionKey := rowKey_ne_versionKey _ _
  refine keeps_bind (P := fun _ t' ↦ e.draw conn (e.nextKey rt t) = t')
    (keeps_modify (he.congr rfl rfl rfl rfl) rfl) ?_
  rintro - _ ht rfl
  refine keeps_bind (P := fun _ t' ↦ (e.draw conn (e.nextKey rt t)).tick = t')
    (keeps_modify (ht.congr rfl rfl rfl rfl) rfl) ?_
  rintro - _ ht rfl
  split
  · rename_i tx htx
    exact keeps_bind (P := fun _ t ↦ t.history.bumps = e.history.bumps)
      (keeps_modify (ht.buffer htx hkey _) rfl) fun _ t ht hbumps ↦
        keeps_pure ht fun x hx ↦ (hacc x hx).of_bumps fun h0 ↦ hbumps ▸ h0
  · have hm : ∀ timestamp, e.MayHold (e.nextKey rt t) (.record
        ⟨.row (insertedColumns schema acc.nextId row), e.currentVersion, false, timestamp⟩) := by
      refine fun timestamp ↦ ⟨hkey, fun h0 r hr ↦ ?_⟩
      cases hr
      exact he.version_eq h0
    refine keeps_bind (P := fun _ t ↦ t.history.bumps = e.history.bumps)
      (keeps_modify (ht.install (hm _)) rfl) fun _ t' ht hbumps ↦ keeps_pure ht fun x hx ↦ ?_
    refine MayHold.of_bumps (e := e) ?_ fun h0 ↦ hbumps ▸ h0
    rcases List.mem_append.1 hx with hx | hx
    · exact hacc x hx
    rcases List.mem_cons.1 hx with rfl | hx
    · exact hm _
    · obtain ⟨idx, -, hidx⟩ := List.mem_filterMap.1 hx
      split at hidx
      · obtain ⟨val, -, rfl⟩ := Option.map_eq_some_iff.1 hidx
        exact mayHold_index _ _ _ _
      · cases hidx

theorem keeps_storeNextId (he : e.Timed held) (t : Bytes) (schema : TableSchema) (nextId : Nat) :
    Keeps held (storeNextId rt t schema nextId) (fun _ _ ↦ True) e := by
  rw [storeNextId]
  split
  · refine keeps_bind (P := fun _ _ ↦ True) (keeps_modify (he.congr rfl rfl rfl rfl) trivial)
      fun _ t₁ ht₁ _ ↦ ?_
    refine keeps_bind (keeps_schemasRecord ht₁) fun data t₂ ht₂ hm ↦ ?_
    exact Effect.wp_mono (keeps_enqueue ht₂ hm) (fun _ _ h ↦ ⟨h.1, trivial⟩) fun _ _ h ↦ h
  · exact keeps_pure he trivial

theorem keeps_handleInsert (he : e.Timed held) {t : Bytes} {source : Query} :
    Keeps held (handleInsert rt t source conn) (fun _ _ ↦ True) e := by
  refine keeps_bind (P := fun _ _ ↦ True) (keeps_get he trivial) fun _ t₁ ht₁ _ ↦ ?_
  refine keeps_bind (P := fun _ _ ↦ True) (keeps_ofExcept ht₁ fun _ _ ↦ trivial) fun schema t₂ ht₂ _ ↦ ?_
  split
  · refine keeps_bind (keeps_fold (I := fun acc t ↦ ∀ x ∈ acc.walEntries, t.MayHold x.1 x.2) ht₂
      (fun x hx ↦ nomatch hx) fun row _ acc t ht hacc ↦ keeps_insertRow ht hacc row)
      fun acc t₃ ht₃ hacc ↦ ?_
    refine keeps_bind (keeps_forEach (I := fun t ↦ t.history.bumps = t₃.history.bumps) ht₃ rfl
      fun x hx t ht hbumps ↦ ?_) fun _ t₄ ht₄ _ ↦ ?_
    · exact Effect.wp_mono (keeps_enqueue ht ((hacc x hx).of_bumps fun h0 ↦ hbumps ▸ h0))
        (fun _ _ h ↦ ⟨h.1, h.2.trans hbumps⟩) fun _ _ h ↦ h
    · exact keeps_bind (keeps_storeNextId ht₄ _ _ _) fun _ _ ht _ ↦ keeps_pure ht trivial
  · exact keeps_throw ht₂

theorem keeps_createTable (he : e.Timed held) {name : Bytes} {columns : List ColumnDef} :
    Keeps held (createTable rt name columns) (fun _ _ ↦ True) e := by
  refine keeps_bind (P := fun _ _ ↦ True) (keeps_modify (he.congr rfl rfl rfl rfl) trivial)
    fun _ t₁ ht₁ _ ↦ ?_
  refine keeps_bind (keeps_schemasRecord ht₁) fun data t₂ ht₂ hm ↦ ?_
  refine keeps_bind (P := fun _ _ ↦ True) ?_ fun _ _ ht _ ↦ keeps_pure ht trivial
  have hinsert : Timed held { t₂ with btree := (t₂.btree.insert rt.search schemasKey data).2 } :=
    ht₂.insertTree hm
  exact wp_insertTree (fun _ ↦ ⟨hinsert, trivial⟩) fun _ ↦ hinsert

theorem keeps_createIndex (he : e.Timed held) {name : Option Bytes} {t : Bytes} {columns : List Expr} :
    Keeps held (createIndex rt name t columns conn) (fun _ _ ↦ True) e := by
  refine keeps_bind (P := fun _ _ ↦ True) (keeps_ofExcept he fun _ _ ↦ trivial) fun column t₁ ht₁ _ ↦ ?_
  refine keeps_bind (P := fun _ _ ↦ True) (keeps_modify (ht₁.congr rfl rfl rfl rfl) trivial)
    fun _ t₂ ht₂ _ ↦ ?_
  refine keeps_bind (P := fun _ _ ↦ True) (keeps_get ht₂ trivial) fun _ t₃ ht₃ _ ↦ ?_
  refine keeps_bind (P := fun _ _ ↦ True) (keeps_ofExcept ht₃ fun _ _ ↦ trivial) fun rows t₄ ht₄ _ ↦ ?_
  refine keeps_bind (keeps_forEach (I := fun _ ↦ True) ht₄ trivial fun row _ t ht _ ↦ ?_)
    fun _ _ ht _ ↦ keeps_pure ht trivial
  split
  · refine keeps_bind (P := fun _ _ ↦ True)
      (keeps_modify (ht.install (mayHold_index _ _ _ _)) trivial) fun _ t' ht' _ ↦ ?_
    exact Effect.wp_mono (keeps_enqueue ht' (mayHold_index _ _ _ _)) (fun _ _ h ↦ ⟨h.1, trivial⟩)
      fun _ _ h ↦ h
  · exact keeps_pure ht trivial

theorem keeps_validateKey (he : e.Timed held) {tx : Transaction} (key : Bytes) :
    Keeps held (validateKey rt tx key) (fun _ _ ↦ True) e := by
  refine keeps_bind (keeps_fetchKey he key) ?_
  rintro data? _ - ⟨rfl, -⟩
  split
  · exact keeps_pure he trivial
  · refine keeps_bind (P := fun _ _ ↦ True) (keeps_ofExcept he fun _ _ ↦ trivial) fun record t ht _ ↦ ?_
    split
    · exact keeps_throw ht
    · exact keeps_pure ht trivial

theorem keeps_commit (he : e.Timed held) : Keeps held (commit rt conn) (fun _ _ ↦ True) e := by
  refine keeps_bind (P := fun e' t ↦ e = e' ∧ e = t) (keeps_get he ⟨rfl, rfl⟩) ?_
  rintro _ _ - ⟨rfl, rfl⟩
  split
  · exact keeps_throw he
  rename_i tx htx
  refine keeps_bind (P := fun _ _ ↦ True) (keeps_modify (f := Engine.closed conn) he.closed trivial)
    fun _ t₁ ht₁ _ ↦ ?_
  refine keeps_bind (keeps_forEach (I := fun _ ↦ True) ht₁ trivial
    fun key _ t ht _ ↦ keeps_validateKey ht key) fun _ t₂ ht₂ _ ↦ ?_
  refine keeps_bind (P := fun _ t ↦ t.history.bumps ≠ 0) (keeps_modify ht₂.bump (Nat.succ_ne_zero _))
    fun _ t₃ ht₃ hbumps₃ ↦ ?_
  refine keeps_bind (P := fun _ t ↦ t.history.bumps ≠ 0) (keeps_get ht₃ hbumps₃)
    fun _ t₄ ht₄ hbumps₄ ↦ ?_
  refine keeps_bind (keeps_forEach (I := fun t ↦ t.history.bumps ≠ 0) ht₄ hbumps₄
    fun update hupdate t ht hbumps ↦ ?_) fun _ _ ht _ ↦ keeps_pure ht trivial
  have hkey := he.buffered conn tx htx update.1 update.2 (Engine.mem_iterate_iff.1 hupdate)
  refine keeps_bind (P := fun _ t ↦ t.history.bumps ≠ 0) (keeps_ofExcept ht fun _ _ ↦ hbumps)
    fun record t₅ ht₅ hbumps₅ ↦ ?_
  refine keeps_bind (P := fun _ t ↦ t.history.bumps ≠ 0)
    (keeps_modify (ht₅.install ⟨hkey, fun h0 ↦ absurd h0 hbumps₅⟩) hbumps₅) fun _ t₆ ht₆ hbumps₆ ↦ ?_
  exact Effect.wp_mono (keeps_enqueue ht₆ ⟨hkey, fun h0 ↦ absurd h0 hbumps₆⟩)
    (fun _ _ h ↦ ⟨h.1, fun h0 ↦ hbumps₆ (h.2 ▸ h0)⟩) fun _ _ h ↦ h

theorem keeps_executeStatement (he : e.Timed held) (stmt : Statement) :
    Keeps held (executeStatement rt stmt conn) (fun _ _ ↦ True) e := by
  cases stmt with
  | call modulePath => exact keeps_ofExcept he fun _ _ ↦ trivial
  | createIndex name t columns => exact keeps_createIndex he
  | createTable name columns => exact keeps_createTable he
  | explain statement => exact keeps_pure he trivial
  | insert t source =>
    exact keeps_bind (P := fun _ _ ↦ True) (keeps_ofExcept he fun _ _ ↦ trivial) fun _ _ ht _ ↦
      keeps_handleInsert ht
  | query query =>
    refine keeps_bind (P := fun _ _ ↦ True) (keeps_get he trivial) fun _ t₁ ht₁ _ ↦ ?_
    exact keeps_bind (P := fun _ _ ↦ True) (keeps_ofExcept ht₁ fun _ _ ↦ trivial) fun _ _ ht _ ↦
      keeps_pure ht trivial
  | update table assignments selection =>
    cases table with
    | table name => exact keeps_changeRows he
    | other => exact keeps_throw he
  | delete fromTables selection =>
    rcases fromTables with - | ⟨_ | _, rest⟩
    · exact keeps_throw he
    · exact keeps_changeRows he
    · exact keeps_throw he
  | other => exact keeps_throw he

/-- What a routine that keeps it leaves. -/
theorem Keeps.timed {α : Type} {p : Routine α} {Q : α → Engine → Prop} (h : Keeps held p Q e) :
    (p e).2.Timed held := by
  unfold Keeps Effect.wp at h
  rcases hp : p e with ⟨err | a, t⟩
  · rw [hp] at h
    exact h
  · rw [hp] at h
    exact h.1

theorem timed_executeRetrying (stmt : Statement) (he : e.Timed held) :
    (executeRetrying rt stmt conn 5 e).2.Timed held := by
  have hone : Effect.Maintains (Timed held) (executeStatement rt stmt conn) := fun u hu ↦
    Effect.wp_mono (keeps_executeStatement hu stmt) (fun _ _ h ↦ h.1) fun _ _ h ↦ h
  exact (maintains_executeRetrying hone 5).state he

/-- **Every command** stores only what may be stored. -/
theorem timed_execute (he : e.Timed held) (command : Command) :
    (execute rt command conn e).2.Timed held := by
  cases command with
  | flush => exact he
  | begin => exact he.opened
  | commit => exact (keeps_commit he).timed
  | rollback => exact he.closed
  | statement stmt => exact timed_executeRetrying stmt he

theorem timed_empty : Engine.empty.Timed [] where
  held := List.nil_subset _
  version_eq _ := rfl
  tier _ _ h := nomatch h
  stores := stores_empty
  buffered _ _ h := nomatch h

end Engine

/-! ### Steps and restarts -/

namespace System

open Engine

variable {rt : Runtime} {s s' : System}

theorem timed_applyEntry {e : Engine} {entry : WalEntry Bytes Data} (h : e.Timed [])
    (hentry : entry ∈ e.btree.wal.enqueued) : (applyEntry rt e entry).Timed [] := by
  cases entry with
  | recordUpdate key data => exact h.insertTree (h.stores.enqueued _ hentry)
  | _ => exact h

variable [Bincode (WalEntry Bytes Data)]

/-- The engine stores what may be stored, and the drain thread holds entries that were enqueued. -/
structure Timed (s : System) : Prop where
  engine : s.engine.Timed []
  drained : s.drain.entries ⊆ s.engine.btree.wal.enqueued

theorem Timed.step {a : Action} (h : s.Timed) (hstep : s.step rt a = some s') : s'.Timed := by
  have he := h.engine
  have hheld : s.engine.Timed s.engine.btree.wal.enqueued :=
    ⟨List.Subset.refl _, he.version_eq, he.tier, he.stores, he.buffered⟩
  obtain ⟨hengine, hdrained⟩ := step_parts (J := fun e ↦ e.Timed [])
    (fun conn command ↦ ⟨timed_execute he command, (timed_execute hheld command).held⟩)
    (fun wal hwal hlogged ↦ ⟨List.nil_subset _, he.version_eq, he.tier,
      stores_withWal he.stores hwal hlogged, he.buffered⟩)
    (fun tier htier ↦ ⟨List.nil_subset _, he.version_eq, fun k d hd ↦ he.tier k d (htier k d hd),
      he.stores.congr rfl rfl fun _ _ hm ↦ hm, he.buffered⟩)
    (fun entry hentry ↦ timed_applyEntry he hentry) he.stores.queue he h.drained hstep
  exact ⟨hengine, hdrained⟩

theorem Timed.run {actions : List Action} (h : s.Timed) (hrun : s.run rt actions = some s') :
    s'.Timed :=
  run_invariant (I := Timed) (P := fun _ ↦ True) (fun _ _ _ _ ht hstep ↦ ht.step hstep)
    (fun _ _ ↦ trivial) h hrun

end System

namespace Engine

variable {rt : Runtime} {rc : Recovery} {e e' : Engine} [Bincode (WalEntry Bytes Data)]

/-- The files hold what may be stored. -/
theorem timed_openFiles (h : e.Timed [])
    (hrecovered : ∀ x ∈ (Wal.recover e.btree.wal.file : List (WalEntry Bytes Data)),
      x ∈ e.btree.wal.logged) : (e.openFiles rt).Timed [] := by
  obtain ⟨hpages, htier⟩ := contents_reopen (R := e.MayHold) 1024
    (fun n ↦ rt.nanos (e.ticks + n))
    (fun x hx ↦ h.stores.enqueued x (h.stores.logged (hrecovered x hx))) h.stores.pages
  exact {
    held := List.nil_subset _
    version_eq := fun _ ↦ rfl
    tier := htier
    stores := ⟨hpages, h.stores.enqueued, List.nil_subset _, h.stores.logged⟩
    buffered := fun _ _ htx ↦ nomatch htx }

omit [Bincode (WalEntry Bytes Data)] in
/-- Where nothing is stored under `__version__`, no version is found. -/
theorem recoverVersion_eq (h : e.Timed []) {version : Nat}
    (hversion : e.recoverVersion rt rc = .ok version) : version = 0 := by
  rw [recoverVersion] at hversion
  rcases hfetch : e.fetch rt versionKey with err | - | data
  · rw [hfetch] at hversion; cases hversion
  · rw [hfetch] at hversion; cases hversion; rfl
  · exact absurd rfl (h.fetch hfetch).1

/-- **The counter starts at zero** in every session. -/
theorem reopen_eq (h : (e.openFiles rt).Timed []) (he : e.reopen rt rc = .ok e') :
    ∃ schemas, e' = { e.openFiles rt with schemas := schemas, currentVersion := 0 } := by
  rw [Engine.reopen] at he
  rcases hschemas : (e.openFiles rt).recoverSchemas rt rc with err | schemas
  · rw [hschemas] at he; cases he
  rcases hversion : (e.openFiles rt).recoverVersion rt rc with err | version
  · rw [hschemas, hversion] at he; cases he
  obtain rfl := recoverVersion_eq h hversion
  rw [hschemas, hversion] at he
  exact ⟨schemas, (Except.ok.inj he).symm⟩

/-- The records that the engine finds are within its counter. -/
def ClockSurvives (rt : Runtime) (e : Engine) : Prop :=
  ∀ x ∈ e.entries rt, ∀ r, x.2 = .record r → r.version ≤ e.currentVersion

end Engine

/-- Every session stores only what may be stored. -/
theorem Sessions.timed {rt : Runtime} {rc : Recovery} [Bincode (WalEntry Bytes Data)] {s : System}
    (h : Sessions rt rc s) : s.Timed := by
  induction h with
  | start => exact ⟨Engine.timed_empty, List.nil_subset _⟩
  | run actions _ hrun ih => exact ih.run hrun
  | restart hs hrecovered he ih =>
    have htimed : (Engine.openFiles rt _).Timed [] := Engine.timed_openFiles ih.engine hrecovered
    obtain ⟨schemas, rfl⟩ := Engine.reopen_eq htimed he
    exact ⟨htimed.congr rfl rfl rfl rfl, List.nil_subset _⟩

/-- **The clock does not survive a restart**, unless there is nothing to survive: the records found are
within the counter if and only if all of them have version zero, as they have when no session has
incremented its counter. -/
theorem clock_survives_iff {rt : Runtime} {rc : Recovery} [Bincode (WalEntry Bytes Data)]
    {s : System} {e : Engine} (hs : Sessions rt rc s)
    (hrecovered : ∀ x ∈ (Wal.recover s.engine.btree.wal.file : List (WalEntry Bytes Data)),
      x ∈ s.engine.btree.wal.logged)
    (he : s.engine.reopen rt rc = .ok e) :
    (e.ClockSurvives rt ↔
      ∀ x ∈ (s.engine.openFiles rt).entries rt, ∀ r, x.2 = .record r → r.version = 0) ∧
    (s.engine.history.bumps = 0 → e.ClockSurvives rt) := by
  have htimed : (s.engine.openFiles rt).Timed [] :=
    Engine.timed_openFiles hs.timed.engine hrecovered
  obtain ⟨schemas, rfl⟩ := Engine.reopen_eq htimed he
  have hiff : Engine.ClockSurvives rt
      { s.engine.openFiles rt with schemas := schemas, currentVersion := 0 } ↔
        ∀ x ∈ (s.engine.openFiles rt).entries rt, ∀ r, x.2 = .record r → r.version = 0 :=
    forall₄_congr fun _ _ _ _ ↦ Nat.le_zero
  refine ⟨hiff, fun hbumps ↦ hiff.2 fun x hx r hr ↦ ?_⟩
  rcases List.mem_append.1 hx with hx | hx
  · exact (htimed.tier x.1 x.2 (Engine.mem_iterate_iff.1 hx)).2 hbumps r hr
  · obtain ⟨q, -, hx⟩ := List.mem_flatMap.1 hx
    exact ((htimed.stores.pages q).rel x hx).2 hbumps r hr

/-! ### Sessions to look at -/

/-- A recovery to compute with: nothing is taken for what it is not. -/
def Recovery.plain : Recovery where
  rowSchemas _ := none
  payloadVersion _ := none

/-- A row is inserted and reaches the tree. -/
def insertAndDrain : List Action :=
  [.call 1 (createTableOf "u" ["id"]), .call 1 (insertOf "u" ["2"]), .drainPop, .drainPop, .flushRound,
    .drainStart, .drainApply, .drainApply, .drainApply]

/-- The row is updated, and that reaches the tree too. -/
def updateAndDrain : List Action :=
  insertAndDrain ++ [.call 1 (updateOf "u" "id" "3" none), .drainPop, .drainPop, .flushRound,
    .drainStart, .drainApply, .drainApply, .drainApply]

/-- The restarted engine finds a row and has the clock for it. -/
theorem clock_survives_insert : let _ := plainBincode []
    ∃ s e, Sessions .plain .plain s ∧ s.engine.reopen .plain .plain = .ok e ∧
      e.ClockSurvives .plain ∧ ∃ data, (rowKey (bytes "u") 0, data) ∈ e.entries .plain := by
  let _ := plainBincode []
  have hany : (System.start.run .plain insertAndDrain).any (fun s ↦
      (s.engine.reopen .plain .plain).toOption.any fun e ↦ s.engine.btree.wal.file.length = 0 ∧
        s.engine.history.bumps = 0 ∧ rowKey (bytes "u") 0 ∈ (e.entries .plain).map Prod.fst) = true := by
    decide +kernel
  obtain ⟨s, hs, hany⟩ := (Option.any_eq_true _ _).1 hany
  obtain ⟨e, he, hstate⟩ := (Option.any_eq_true _ _).1 hany
  replace he := Except.eq_ok_of_toOption he
  obtain ⟨hfile, hbumps, hkey⟩ := of_decide_eq_true hstate
  obtain ⟨⟨key, data⟩, hmem, rfl⟩ := List.mem_map.1 hkey
  have hrecovered : ∀ x ∈ (Wal.recover s.engine.btree.wal.file : List (WalEntry Bytes Data)),
      x ∈ s.engine.btree.wal.logged := by
    rw [List.eq_nil_of_length_eq_zero hfile]
    intro x hx
    cases hx
  have hsessions : Sessions .plain .plain s := .run insertAndDrain .start hs
  exact ⟨s, e, hsessions, he, (clock_survives_iff hsessions hrecovered he).2 hbumps, data, hmem⟩

/-- **The clock is lost.** After a restart the updated row is newer than the counter, and no scan shows
it. -/
theorem not_clock_survives_update : ¬ ∀ (_ : Bincode (WalEntry Bytes Data)) (rt : Runtime)
    (rc : Recovery) (s : System) (e : Engine), Sessions rt rc s →
      s.engine.reopen rt rc = .ok e → e.ClockSurvives rt := by
  intro h
  let _ := plainBincode []
  have hany : (System.start.run .plain updateAndDrain).any (fun s ↦
      (s.engine.reopen .plain .plain).toOption.any fun e ↦ (e.entries .plain).any fun x ↦
        x.2.record?.any fun r ↦ e.currentVersion < r.version) = true := by decide +kernel
  obtain ⟨s, hs, hany⟩ := (Option.any_eq_true _ _).1 hany
  obtain ⟨e, he, hany⟩ := (Option.any_eq_true _ _).1 hany
  obtain ⟨x, hx, hany⟩ := List.any_eq_true.1 hany
  obtain ⟨r, hr, hnewer⟩ := (Option.any_eq_true _ _).1 hany
  have hle := h _ .plain .plain s e (.run updateAndDrain .start hs) (Except.eq_ok_of_toOption he) x hx r
    (Data.record?_eq_some.1 hr)
  exact absurd hle (not_le.2 (of_decide_eq_true hnewer))

end KsSql
