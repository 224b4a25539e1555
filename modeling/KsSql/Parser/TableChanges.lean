import KsSql.Parser.FirstCommitter
import KsSql.Parser.TableViews

/-!
# Changes of tables

`UPDATE` and `DELETE` change the rows of a table that their connection sees and that satisfy the condition
(`wp_changeRows_sessions`), and `COMMIT` puts the rows that its transaction has noted into the tables,
unless one of them was changed by others (`wp_commit_sessions`): as `TableSessions.next` says.

Outside transactions, and in a `COMMIT`, records are written one by one to the memory tier and to the
queue (`Placing`). The loop of an `UPDATE` or a `DELETE` in a transaction changes nothing but its buffer
(`Noting`).
-/

namespace KsSql

namespace Engine

variable {rt : Runtime} {N : Bytes → Prop} {e u : Engine} {t key : Bytes} {columns : Row} {data : Data}
  {conn : Nat} {tx : Transaction} {row : Bytes → Option Row} {done keys : List Bytes}

/-! ### Records written one by one -/

/-- So long as nothing is evicted, the memory tier holds what was installed last. -/
def Full (e : Engine) : Prop :=
  e.history.evictions = 0 → ∀ key, e.btree.memoryTier.get key = e.lastInstalled key

theorem Full.install (h : e.Full) (w : Install) : (e.install rt w).Full := by
  intro hev key
  have hev : e.history.evictions + (if e.btree.memoryTier.overLimit then 1 else 0) = 0 := hev
  have hlimit : e.btree.memoryTier.overLimit = false := by
    by_contra hover
    rw [if_pos (by simpa using hover)] at hev
    omega
  rw [lastInstalled_install, ← h (by omega) key]
  exact MemoryTier.get_insert hlimit _ _ _ _

/-- The versions of the increments are all different, and nothing was evicted. -/
structure Steadfast (e : Engine) : Prop where
  evictions : e.history.evictions = 0
  bumps : e.history.bumps < 2 ^ 64

/-- From `e` to `u`, newer records were written under the keys, in which there are the given rows, and
nothing else has changed. -/
structure Placing (row : Bytes → Option Row) (e : Engine) (done : List Bytes) (u : Engine) : Prop where
  schemas : u.schemas = e.schemas
  indices : u.indices = e.indices
  active : u.activeTransactions = e.activeTransactions
  drawn : u.history.drawn = e.history.drawn
  refusals : u.history.refusals = e.history.refusals
  bumps : e.history.bumps ≤ u.history.bumps
  version_eq : u.history.bumps < 2 ^ 64 → u.currentVersion = u.history.bumps
  installs : e.history.installs ⊆ u.history.installs
  written : ∀ w ∈ u.history.installs,
    w ∈ e.history.installs ∨ w.key ∈ done ∧ ∃ r, w.data = .record r
  enqueued : ∀ key data, .recordUpdate key data ∈ u.btree.wal.enqueued →
    .recordUpdate key data ∈ e.btree.wal.enqueued ∨ u.Traced key data
  full : u.Full
  kept : ∀ key ∉ done, u.lastInstalled key = e.lastInstalled key
  placed : u.Steadfast → ∀ key ∈ done, ∃ r, u.lastInstalled key = some (.record r) ∧
    (Data.record r).liveRow = row key ∧ e.history.bumps < r.version

theorem Placing.refl (row : Bytes → Option Row) (hco : e.Coherent rt N) : Placing row e [] e where
  schemas := rfl
  indices := rfl
  active := rfl
  drawn := rfl
  refusals := rfl
  bumps := le_rfl
  version_eq _ := hco.version_eq
  installs := List.Subset.refl _
  written _ hw := Or.inl hw
  enqueued _ _ h := Or.inl h
  full := hco.full
  kept _ _ := rfl
  placed _ _ h := absurd h List.not_mem_nil

theorem Placing.bump (h : Placing row e done u) : Placing row e done u.bump where
  schemas := h.schemas
  indices := h.indices
  active := h.active
  drawn := h.drawn
  refusals := h.refusals
  bumps := h.bumps.trans (Nat.le_succ _)
  version_eq hb := by
    have hb : u.history.bumps + 1 < 2 ^ 64 := hb
    show (u.currentVersion + 1) % 2 ^ 64 = u.history.bumps + 1
    rw [h.version_eq (by omega)]
    exact Nat.mod_eq_of_lt hb
  installs := h.installs
  written := h.written
  enqueued := h.enqueued
  full := h.full
  kept := h.kept
  placed hu := h.placed ⟨hu.evictions, (Nat.le_succ _).trans_lt hu.bumps⟩

/-- One more record. -/
theorem Placing.snoc (h : Placing row e done u) (kind : WriteKind) {r : Record}
    (hr : u.Steadfast → (Data.record r).liveRow = row key ∧ e.history.bumps < r.version) :
    Placing row e (done ++ [key])
      ((u.install rt ⟨conn, kind, key, .record r⟩).pushed key (.record r)) where
  schemas := h.schemas
  indices := h.indices
  active := h.active
  drawn := h.drawn
  refusals := h.refusals
  bumps := h.bumps
  version_eq := h.version_eq
  installs := List.Subset.trans h.installs (List.subset_append_left _ _)
  written w hw := by
    rcases List.mem_append.1 hw with hw | hw
    · exact (h.written w hw).imp id fun ⟨hkey, hdata⟩ ↦ ⟨List.mem_append_left _ hkey, hdata⟩
    · rw [List.mem_singleton.1 hw]
      exact Or.inr ⟨List.mem_append_right _ (List.mem_singleton.2 rfl), r, rfl⟩
  enqueued k d hd := by
    rcases List.mem_append.1 hd with hd | hd
    · exact (h.enqueued k d hd).imp id fun ht ↦ ht.mono (List.subset_append_left _ _)
    · cases List.mem_singleton.1 hd
      exact Or.inr (Or.inl ⟨_, List.mem_append_right _ (List.mem_singleton.2 rfl), rfl, rfl⟩)
  full := by
    have hfull : (u.install rt ⟨conn, kind, key, .record r⟩).Full := h.full.install _
    exact hfull
  kept k hk := by
    rw [List.mem_append, not_or, List.mem_singleton] at hk
    have hlast : (u.install rt ⟨conn, kind, key, .record r⟩).lastInstalled k = _ :=
      lastInstalled_install ⟨conn, kind, key, .record r⟩ u k
    exact (hlast.trans (if_neg hk.2)).trans (h.kept k hk.1)
  placed hu k hk := by
    have hev : u.history.evictions + _ = 0 := hu.evictions
    have hsteadfast : u.Steadfast := ⟨by omega, hu.bumps⟩
    have hlast : (u.install rt ⟨conn, kind, key, .record r⟩).lastInstalled k = _ :=
      lastInstalled_install ⟨conn, kind, key, .record r⟩ u k
    show ∃ r', (u.install rt ⟨conn, kind, key, .record r⟩).lastInstalled k = some (.record r') ∧ _
    rw [hlast]
    split
    · rename_i heq
      exact ⟨r, rfl, heq ▸ hr hsteadfast⟩
    · rename_i hne
      exact h.placed hsteadfast k ((List.mem_append.1 hk).resolve_right
        fun hmem ↦ hne (List.mem_singleton.1 hmem))

theorem Placing.liveRow_eq (h : Placing row e keys u) (hu : u.Steadfast) (hkey : key ∈ keys) :
    u.liveRow key = row key := by
  obtain ⟨r, hr, hrow, -⟩ := h.placed hu key hkey
  rw [liveRow, hr, Option.bind_some, hrow]

theorem Placing.liveRow_kept (h : Placing row e keys u) (hkey : key ∉ keys) :
    u.liveRow key = e.liveRow key :=
  congrArg (·.bind Data.liveRow) (h.kept key hkey)

/-- **What the records make of the tables**, and of the transactions of others. -/
theorem Placing.sessions_eq (h : Placing row e keys u) (hco : e.Coherent rt N) (hu : u.Steadfast) :
    u.sessions = e.sessions.place (rowsUnder keys row) (e.history.bumps < u.history.bumps) := by
  refine TableSessions.ext (Database.ext ?_ (funext fun t ↦ funext fun key ↦ ?_)
    (congrArg List.length h.drawn)) (funext fun c ↦ ?_)
  · show (fun t ↦ u.schemas.lookup t) = fun t ↦ e.schemas.lookup t
    rw [h.schemas]
  · show (if (tablePrefix t).isPrefixOf key then u.liveRow key else none) =
      (rowsUnder keys row t key).getD (if (tablePrefix t).isPrefixOf key then e.liveRow key else none)
    rw [rowsUnder]
    by_cases hunder : (tablePrefix t).isPrefixOf key = true
    · rw [if_pos hunder, if_pos hunder]
      by_cases hkey : key ∈ keys
      · rw [if_pos ⟨hunder, hkey⟩, h.liveRow_eq hu hkey]
        rfl
      · rw [if_neg fun hboth ↦ hkey hboth.2, h.liveRow_kept hkey]
        rfl
    · rw [if_neg hunder, if_neg hunder, if_neg fun hboth ↦ hunder hboth.1]
      rfl
  · show (u.activeTransactions.lookup c).map u.snapshot =
      ((e.activeTransactions.lookup c).map e.snapshot).map (Snapshot.overtake _ _)
    rw [h.active]
    rcases htx : e.activeTransactions.lookup c with - | tx
    · rfl
    have hversion := hco.snapshot c tx htx
    rw [hco.version_eq] at hversion
    refine congrArg some (Snapshot.ext rfl (funext fun t ↦ funext fun key ↦ propext ?_) (propext ?_))
    · show _ ∧ (∃ r, u.lastInstalled key = some (.record r) ∧ _) ↔
        (_ ∧ ∃ r, e.lastInstalled key = some (.record r) ∧ _) ∨ (rowsUnder keys row t key).isSome
      rw [rowsUnder_isSome_iff]
      by_cases hkey : key ∈ keys
      · obtain ⟨r, hr, -, hnewer⟩ := h.placed hu key hkey
        constructor
        · exact fun hunder ↦ Or.inr ⟨hunder.1, hkey⟩
        · intro hover
          exact ⟨hover.elim And.left And.left, r, hr, hversion.trans_lt hnewer⟩
      · rw [h.kept key hkey]
        exact ⟨Or.inl, fun hover ↦ hover.resolve_right fun hboth ↦ hkey hboth.2⟩
    · show tx.snapshotVersion < u.currentVersion ↔ tx.snapshotVersion < e.currentVersion ∨ _
      have hbumps := h.bumps
      rw [h.version_eq hu.bumps, hco.version_eq]
      omega

theorem Placing.tabular (h : Placing row e keys u) (htab : e.Tabular) (hkeys : ∀ key ∈ keys, IsRowKey key) :
    u.Tabular where
  unindexed := h.indices.trans htab.unindexed
  written w hw := by
    rcases h.written w hw with hold | ⟨hkey, hdata⟩
    · exact htab.written w hold
    · exact ⟨hkeys w.key hkey, hdata⟩
  buffered conn tx htx := htab.buffered conn tx (h.active ▸ htx)
  enqueued key data hd := by
    rcases h.enqueued key data hd with hold | htraced
    · exact (htab.enqueued key data hold).mono h.installs
    · exact htraced

/-- Where no row disappears, none is deleted. -/
theorem Placing.undeleted (h : Placing row e keys u) (hu : u.Steadfast)
    (hrows : ∀ key ∈ keys, (row key).isSome) (he : e.Undeleted) : u.Undeleted := by
  intro key data hdata
  by_cases hkey : key ∈ keys
  · obtain ⟨r, hr, hrow, -⟩ := h.placed hu key hkey
    obtain ⟨columns, hcolumns⟩ := Option.isSome_iff_exists.1 (hrows key hkey)
    obtain ⟨r', heq, hdeleted, -⟩ := Data.liveRow_eq_some_iff.1 (hrow.trans hcolumns)
    rw [hr] at hdata
    obtain rfl := Option.some.inj hdata
    rw [heq]
    exact hdeleted
  · exact he key data ((h.kept key hkey).symm.trans hdata)

/-! ### Rows noted in a buffer -/

theorem writes_snapshot (e : Engine) (tx : Transaction) (t key : Bytes) : (e.snapshot tx).writes t key =
    if (tablePrefix t).isPrefixOf key then (tx.updates.lookup key).map Data.liveRow else none := by
  show rowsUnder tx.updates.keys tx.row t key = _
  rw [rowsUnder, Transaction.row]
  by_cases hunder : (tablePrefix t).isPrefixOf key = true
  · rw [if_pos hunder]
    rcases hdata : tx.updates.lookup key with - | data
    · exact if_neg fun hboth ↦ AList.lookup_eq_none.1 hdata (AList.mem_keys.2 hboth.2)
    · exact if_pos ⟨hunder, AList.mem_keys.1 (AList.lookup_isSome.1 (by rw [hdata]; rfl))⟩
  · rw [if_neg hunder, if_neg fun hboth ↦ hunder hboth.1]

/-- From `e` to `u`, the transaction of the connection has noted rows under the keys, and nothing else has
changed. -/
structure Noting (conn : Nat) (tx : Transaction) (row : Bytes → Option Row) (e : Engine)
    (done : List Bytes) (u : Engine) : Prop where
  rest : u = { e with activeTransactions := u.activeTransactions }
  others : ∀ c, c ≠ conn → u.activeTransactions.lookup c = e.activeTransactions.lookup c
  noted : ∃ tx', u.activeTransactions.lookup conn = some tx' ∧ tx'.snapshotVersion = tx.snapshotVersion ∧
    (∀ key ∉ done, tx'.updates.lookup key = tx.updates.lookup key) ∧
    ∀ key ∈ done, ∃ data, tx'.updates.lookup key = some data ∧ data.liveRow = row key

theorem Noting.refl (row : Bytes → Option Row) (htx : e.activeTransactions.lookup conn = some tx) :
    Noting conn tx row e [] e :=
  ⟨rfl, fun _ _ ↦ rfl, tx, htx, rfl, fun _ _ ↦ rfl, fun _ h ↦ absurd h List.not_mem_nil⟩

/-- One more row. -/
theorem Noting.snoc (h : Noting conn tx row e done u) {tx' : Transaction}
    (htx' : u.activeTransactions.lookup conn = some tx') (hrow : data.liveRow = row key) :
    Noting conn tx row e (done ++ [key]) (u.buffer conn tx' key data) := by
  obtain ⟨tx'', htx'', hversion, hkept, hnoted⟩ := h.noted
  obtain rfl := Option.some.inj (htx'.symm.trans htx'')
  refine ⟨?_, fun c hc ↦ (AList.lookup_insert_ne hc).trans (h.others c hc), _, AList.lookup_insert _,
    hversion, fun k hk ↦ ?_, fun k hk ↦ ?_⟩
  · exact congrArg (fun v : Engine ↦
      { v with activeTransactions := (u.buffer conn tx' key data).activeTransactions }) h.rest
  · rw [List.mem_append, not_or, List.mem_singleton] at hk
    exact (AList.lookup_insert_ne hk.2).trans (hkept k hk.1)
  · show ∃ d, (tx'.updates.insert key data).lookup k = some d ∧ _
    rw [HashMap.lookup_insert_eq_ite]
    split
    · rename_i heq
      exact ⟨data, rfl, heq ▸ hrow⟩
    · rename_i hne
      exact hnoted k ((List.mem_append.1 hk).resolve_right fun hmem ↦ hne (List.mem_singleton.1 hmem))

theorem noting_buffer (htx : e.activeTransactions.lookup conn = some tx) (key : Bytes) (data : Data) :
    Noting conn tx (fun _ ↦ data.liveRow) e [key] (e.buffer conn tx key data) :=
  (Noting.refl _ htx).snoc htx rfl

theorem Noting.same (h : Noting conn tx row e done u) : SameCommitted e u := by
  rw [h.rest]
  exact ⟨rfl, rfl, rfl, fun _ _ ↦ Or.inl⟩

theorem Noting.fetch_eq (h : Noting conn tx row e done u) (key : Bytes) : u.fetch rt key = e.fetch rt key := by
  rw [h.rest]
  rfl

/-- **What noting makes of the transaction.** -/
theorem Noting.sessions_eq (h : Noting conn tx row e keys u)
    (htx : e.activeTransactions.lookup conn = some tx) : u.sessions =
      e.sessions.setOpened conn (some ((e.snapshot tx).note (rowsUnder keys row))) := by
  obtain ⟨tx', htx', hversion, hkept, hnoted⟩ := h.noted
  refine TableSessions.ext ?_ (funext fun c ↦ ?_)
  · rw [h.rest]
    rfl
  · show (u.activeTransactions.lookup c).map u.snapshot = Function.update e.sessions.opened conn _ c
    rw [h.same.snapshot]
    rcases eq_or_ne c conn with rfl | hc
    · rw [htx', Function.update_self]
      refine congrArg some (Snapshot.ext (funext fun t ↦ funext fun key ↦ ?_) ?_ ?_)
      · show (e.snapshot tx').writes t key = (rowsUnder keys row t key).or ((e.snapshot tx).writes t key)
        rw [writes_snapshot, writes_snapshot, rowsUnder]
        by_cases hunder : (tablePrefix t).isPrefixOf key = true
        · rw [if_pos hunder, if_pos hunder]
          by_cases hkey : key ∈ keys
          · obtain ⟨data, hdata, hrow⟩ := hnoted key hkey
            rw [if_pos ⟨hunder, hkey⟩, hdata, Option.map_some, hrow, Option.some_or]
          · rw [if_neg fun hboth ↦ hkey hboth.2, hkept key hkey, Option.none_or]
        · rw [if_neg hunder, if_neg hunder, if_neg fun hboth ↦ hunder hboth.1]
          rfl
      · show (fun t key ↦ _ ∧ ∃ r, _ ∧ tx'.snapshotVersion < _) = _
        rw [hversion]
        rfl
      · show (tx'.snapshotVersion < _) = _
        rw [hversion]
        rfl
    · rw [h.others c hc, Function.update_of_ne hc]
      rfl

theorem Noting.tabular (h : Noting conn tx row e keys u) (htab : e.Tabular)
    (htx : e.activeTransactions.lookup conn = some tx) (hkeys : ∀ key ∈ keys, IsRowKey key) : u.Tabular := by
  refine h.same.tabular htab fun c tx' htx' key hkey ↦ ?_
  rcases eq_or_ne c conn with rfl | hc
  · obtain ⟨tx'', htx'', -, hkept, -⟩ := h.noted
    obtain rfl := Option.some.inj (htx'.symm.trans htx'')
    by_cases hmem : key ∈ keys
    · exact hkeys key hmem
    · refine htab.buffered c tx htx key (AList.mem_keys.1 (AList.lookup_isSome.1 ?_))
      rw [← hkept key hmem]
      exact AList.lookup_isSome.2 (AList.mem_keys.2 hkey)
  · exact htab.buffered c tx' (h.others c hc ▸ htx') key hkey

/-! ### `UPDATE` and `DELETE` -/

variable {f : Row → Option Row}

/-- A row that is seen is the one that was installed last. -/
theorem Tabular.of_seen (h : e.Tabular) (hco : e.Coherent rt N)
    (hrow : (e.sessions.view conn).rows t key = some columns) :
    (tablePrefix t).isPrefixOf key = true ∧ e.liveRow key = some columns ∧ IsRowKey key := by
  obtain ⟨hunder, r, hr, -, hdeleted, hvalue⟩ := (rows_view_eq_some_iff hco).1 hrow
  refine ⟨hunder, ?_, h.isRowKey_of_lastInstalled hr⟩
  rw [liveRow, hr, Option.bind_some]
  exact Data.liveRow_eq_some_iff.2 ⟨r, rfl, hdeleted, hvalue⟩

/-- The keys of the rows of the table that satisfy the condition, as a scan finds them. -/
def chosenKeys (rt : Runtime) (e : Engine) (conn : Nat) (t : Bytes) (selection : Option Expr) : List Bytes :=
  ((e.order rt conn t).filter (Database.selects rt t selection)).map Prod.fst

section Chosen

variable {selection : Option Expr} (h : e.Tabular) (hco : e.Coherent rt N)
  (henum : Enumerates ((e.sessions.view conn).rows t) (e.order rt conn t))

include henum

theorem nodup_chosenKeys : (e.chosenKeys rt conn t selection).Nodup :=
  henum.nodup.sublist (List.filter_sublist.map Prod.fst)

theorem mem_chosenKeys_iff : key ∈ e.chosenKeys rt conn t selection ↔
    ∃ columns, (e.sessions.view conn).rows t key = some columns ∧
      Database.selects rt t selection (key, columns) = true := by
  rw [chosenKeys, List.mem_map]
  constructor
  · rintro ⟨x, hx, rfl⟩
    obtain ⟨hmem, hselects⟩ := List.mem_filter.1 hx
    exact ⟨x.2, (henum.mem_iff x.1 x.2).1 hmem, hselects⟩
  · rintro ⟨columns, hcolumns, hselects⟩
    exact ⟨(key, columns), List.mem_filter.2 ⟨(henum.mem_iff key columns).2 hcolumns, hselects⟩, rfl⟩

include h hco

theorem of_mem_chosenKeys (hkey : key ∈ e.chosenKeys rt conn t selection) :
    IsRowKey key ∧ ∃ columns, e.liveRow key = some columns := by
  obtain ⟨columns, hcolumns, -⟩ := (mem_chosenKeys_iff henum).1 hkey
  obtain ⟨-, hlive, hrowKey⟩ := h.of_seen hco hcolumns
  exact ⟨hrowKey, columns, hlive⟩

/-- The rows under the keys of the chosen rows are what becomes of these. -/
theorem rowsUnder_chosenKeys (f : Row → Option Row) :
    rowsUnder (e.chosenKeys rt conn t selection) (fun key ↦ (e.liveRow key).bind f) =
      (e.sessions.view conn).changes rt t selection f := by
  funext t' key
  rw [rowsUnder, Database.changes]
  by_cases ht : t' = t
  · subst ht
    rw [if_pos rfl]
    rcases hrow : (e.sessions.view conn).rows t' key with - | columns
    · refine if_neg fun hboth ↦ ?_
      obtain ⟨columns, hcolumns, -⟩ := (mem_chosenKeys_iff henum).1 hboth.2
      cases hrow.symm.trans hcolumns
    obtain ⟨hunder, hcolumns, -⟩ := h.of_seen hco hrow
    rw [Option.filter_some, hcolumns, Option.bind_some]
    by_cases hselects : Database.selects rt t' selection (key, columns) = true
    · rw [if_pos ⟨hunder, (mem_chosenKeys_iff henum).2 ⟨columns, hrow, hselects⟩⟩, if_pos hselects]
      rfl
    · rw [if_neg hselects]
      refine if_neg fun hboth ↦ hselects ?_
      obtain ⟨columns', hcolumns', hselects'⟩ := (mem_chosenKeys_iff henum).1 hboth.2
      obtain rfl := Option.some.inj (hrow.symm.trans hcolumns')
      exact hselects'
  · rw [if_neg ht]
    refine if_neg fun hboth ↦ ht ?_
    -- a row of one table is no other table's
    obtain ⟨columns, hcolumns, -⟩ := (mem_chosenKeys_iff henum).1 hboth.2
    obtain ⟨hunder, -, hrowKey⟩ := h.of_seen hco hcolumns
    exact hrowKey.table_eq hunder hboth.1

end Chosen

theorem exists_rowsUnder_isSome_iff (hkeys : ∀ key ∈ keys, IsRowKey key) :
    (∃ t key, (rowsUnder keys row t key).isSome) ↔ 0 < keys.length := by
  constructor
  · rintro ⟨t, key, hsome⟩
    exact List.length_pos_of_mem (rowsUnder_isSome_iff.1 hsome).2
  · intro hpos
    obtain ⟨key, hkey⟩ := List.exists_mem_of_length_pos hpos
    obtain ⟨t, id, hname, heq⟩ := hkeys key hkey
    exact ⟨t, key, rowsUnder_isSome_iff.2 ⟨heq ▸ (isPrefixOf_rowKey_iff hname id).2 rfl, hkey⟩⟩

/-- The function makes the given row of a record with the columns, or deletes it. -/
def Turns (change : Record → Except EngineError Record) (columns : Row) (new : Option Row) : Prop :=
  ∀ r, r.isDeleted = false → r.value = .row columns → ∃ r', change r = .ok r' ∧
    ∀ version, (Data.record { r' with version := version }).liveRow = new

/-- The loop body outside transactions. It fails only if the log has no room. -/
theorem wp_changeKey_placing (h : Placing row e done u) (hidle : e.activeTransactions.lookup conn = none)
    {version : Nat} {notFound : EngineError} {change : Record → Except EngineError Record}
    (hkey : key ∉ done) (hlive : e.liveRow key = some columns) (hchange : Turns change columns (row key)) :
    Effect.wp (changeKey rt conn version notFound change key)
      (fun _ u' ↦ Placing row e (done ++ [key]) u' ∧ u'.history.bumps = u.history.bumps + 1)
      (fun _ u' ↦ u'.history.evictions = 0 → e.history.refusals < u'.history.refusals) u := by
  -- what is found, if nothing was evicted
  have hfound : u.history.evictions = 0 → ∃ r, u.fetch rt key = .ok (some (.record r)) ∧
      r.isDeleted = false ∧ r.value = .row columns := by
    intro hev
    obtain ⟨data, hdata, hrow⟩ := Option.bind_eq_some_iff.1 hlive
    obtain ⟨r, rfl, hdeleted, hvalue⟩ := Data.liveRow_eq_some_iff.1 hrow
    refine ⟨r, ?_, hdeleted, hvalue⟩
    simp only [Engine.fetch, BPlusTree.get, h.full hev key, h.kept key hkey, hdata]
  refine Effect.wp_bind ?_
  unfold Effect.wp fetchKey
  rcases hfetch : u.fetch rt key with err | data?
  · intro hev
    obtain ⟨r, hr, -⟩ := hfound hev
    cases hfetch.symm.trans hr
  refine Effect.wp_bind (Effect.wp_ofExcept (fun data hdata ↦ ?_) fun err herr hev ↦ ?_)
  case refine_2 =>
    obtain ⟨r, hr, -⟩ := hfound hev
    obtain rfl := Except.ok.inj (hfetch.symm.trans hr)
    cases herr
  obtain rfl : data? = some data := by
    split at hdata
    · rw [Except.ok.inj hdata]
    · cases hdata
  refine Effect.wp_bind (Effect.wp_ofExcept (fun r hr ↦ ?_) fun err herr hev ↦ ?_)
  case refine_2 =>
    obtain ⟨r, hr, -⟩ := hfound hev
    obtain rfl := Option.some.inj (Except.ok.inj (hfetch.symm.trans hr))
    cases herr
  have hrow : u.history.evictions = 0 → r.isDeleted = false ∧ r.value = .row columns := by
    intro hev
    obtain ⟨r', hr', hrow⟩ := hfound hev
    obtain rfl := Option.some.inj (Except.ok.inj (hfetch.symm.trans hr'))
    rwa [← Except.ok.inj hr]
  refine Effect.wp_bind (Effect.wp_ofExcept (fun r' hr' ↦ ?_) fun err herr hev ↦ ?_)
  case refine_2 =>
    obtain ⟨r', hr', -⟩ := hchange r (hrow hev).1 (hrow hev).2
    cases herr.symm.trans hr'
  refine Effect.wp_bind (Effect.wp_get ?_)
  rw [h.active, hidle]
  refine Effect.wp_bind (Effect.wp_modify (Effect.wp_bind (Effect.wp_get (Effect.wp_bind
    (Effect.wp_modify (wp_enqueue (fun _ ↦ ⟨h.bump.snoc .change fun hu ↦ ⟨?_, ?_⟩, rfl⟩) fun _ _ ↦ ?_))))))
  · obtain ⟨r'', hr'', hf⟩ := hchange r (hrow hu.evictions).1 (hrow hu.evictions).2
    obtain rfl := Except.ok.inj (hr'.symm.trans hr'')
    exact hf _
  · show e.history.bumps < u.bump.currentVersion
    rw [h.bump.version_eq hu.bumps]
    exact Nat.lt_succ_of_le h.bumps
  · show e.history.refusals < u.history.refusals + 1
    rw [h.refusals]
    exact Nat.lt_succ_self _

/-- The loop body in a transaction. It does not fail. -/
theorem wp_changeKey_noting (h : Noting conn tx row e done u) (hfull : e.Full)
    (hev : e.history.evictions = 0) {version : Nat} {notFound : EngineError}
    {change : Record → Except EngineError Record} (hlive : e.liveRow key = some columns)
    (hchange : Turns change columns (row key)) :
    Effect.wp (changeKey rt conn version notFound change key)
      (fun _ ↦ Noting conn tx row e (done ++ [key])) (fun _ _ ↦ False) u := by
  obtain ⟨data, hdata, hrow⟩ := Option.bind_eq_some_iff.1 hlive
  obtain ⟨r, rfl, hdeleted, hvalue⟩ := Data.liveRow_eq_some_iff.1 hrow
  obtain ⟨r', hr', hf⟩ := hchange r hdeleted hvalue
  have hfetch : u.fetch rt key = .ok (some (.record r)) := by
    rw [h.fetch_eq]
    simp only [Engine.fetch, BPlusTree.get, hfull hev key, hdata]
  obtain ⟨tx', htx', -⟩ := h.noted
  refine Effect.wp_bind ?_
  unfold Effect.wp fetchKey
  rw [hfetch]
  refine Effect.wp_bind (Effect.wp_ofExcept (fun data hdata ↦ ?_) fun _ herr ↦ by cases herr)
  obtain rfl := Except.ok.inj hdata
  refine Effect.wp_bind (Effect.wp_ofExcept (fun r'' hr'' ↦ ?_) fun _ herr ↦ by cases herr)
  obtain rfl := Except.ok.inj hr''
  refine Effect.wp_bind (Effect.wp_ofExcept (fun r'' hr'' ↦ ?_) fun _ herr ↦ by cases herr.symm.trans hr')
  obtain rfl := Except.ok.inj (hr'.symm.trans hr'')
  refine Effect.wp_bind (Effect.wp_get ?_)
  rw [htx']
  exact Effect.wp_modify (h.snoc htx' (hf _))

/-- The loop outside transactions. -/
theorem wp_changeKeys_placing (hco : e.Coherent rt N) (hidle : e.activeTransactions.lookup conn = none)
    {version : Nat} {notFound : EngineError} {change : Record → Except EngineError Record}
    (hnodup : keys.Nodup)
    (hlive : ∀ key ∈ keys, ∃ columns, e.liveRow key = some columns ∧ Turns change columns (row key)) :
    Effect.wp (Effect.forEach keys (changeKey rt conn version notFound change))
      (fun _ u ↦ Placing row e keys u ∧ u.history.bumps = e.history.bumps + keys.length)
      (fun _ u ↦ u.history.evictions = 0 → e.history.refusals < u.history.refusals) e := by
  refine Effect.wp_forEach
    (fun done u ↦ Placing row e done u ∧ u.history.bumps = e.history.bumps + done.length)
    ⟨.refl row hco, rfl⟩ (fun done key rest hsplit u hplacing ↦ ?_) fun u hplaced ↦ hplaced
  obtain ⟨h, hbumps⟩ := hplacing
  obtain ⟨columns, hcolumns, hchange⟩ :=
    hlive key (hsplit ▸ List.mem_append_right _ List.mem_cons_self)
  have hfresh : key ∉ done := by
    rw [hsplit, List.nodup_append] at hnodup
    exact fun hmem ↦ hnodup.2.2 key hmem key List.mem_cons_self rfl
  refine Effect.wp_mono (wp_changeKey_placing h hidle hfresh hcolumns hchange) (fun _ u' h' ↦ ⟨h'.1, ?_⟩)
    fun _ _ h ↦ h
  rw [h'.2, hbumps, List.length_append, List.length_singleton, Nat.add_assoc]

/-- The loop in a transaction. -/
theorem wp_changeKeys_noting (hfull : e.Full) (hev : e.history.evictions = 0)
    (htx : e.activeTransactions.lookup conn = some tx) {version : Nat} {notFound : EngineError}
    {change : Record → Except EngineError Record}
    (hlive : ∀ key ∈ keys, ∃ columns, e.liveRow key = some columns ∧ Turns change columns (row key)) :
    Effect.wp (Effect.forEach keys (changeKey rt conn version notFound change))
      (fun _ ↦ Noting conn tx row e keys) (fun _ _ ↦ False) e := by
  refine Effect.wp_forEach (Noting conn tx row e) (.refl row htx) (fun done key rest hsplit u h ↦ ?_)
    fun u h ↦ h
  obtain ⟨columns, hcolumns, hchange⟩ :=
    hlive key (hsplit ▸ List.mem_append_right _ List.mem_cons_self)
  exact wp_changeKey_noting h hfull hev hcolumns hchange

/-- **`UPDATE` and `DELETE`** change the rows of the table that are seen and satisfy the condition. -/
theorem wp_changeRows_sessions (htab : e.Tabular) (hco : e.Coherent rt (· ≠ keyColumn))
    (hev : e.history.evictions = 0) (hstale : e.NothingStale (e.readVersion conn) t) (verb : String)
    {notFound : EngineError} {change : Record → Except EngineError Record} (selection : Option Expr)
    (hchange : ∀ columns, Turns change columns (f columns)) :
    Effect.wp (changeRows rt verb notFound change t selection conn)
      (fun reply u ↦ (u.Steadfast → u.Tabular ∧ u.sessions = e.sessions.change rt conn t selection f ∧
          ((∀ columns, (f columns).isSome) → e.Undeleted → u.Undeleted)) ∧
        reply.output = Database.changedText rt (e.order rt conn) verb t selection)
      (fun _ u ↦ u.history.evictions = 0 → e.history.refusals < u.history.refusals) e := by
  have hscan := htab.scan_eq hco t (e.readVersion conn) selection
  have henum := htab.enumerates hco hev hstale
  have hrowKey : ∀ key ∈ e.chosenKeys rt conn t selection, IsRowKey key := fun key hkey ↦
    (of_mem_chosenKeys htab hco henum hkey).1
  have hlive : ∀ key ∈ e.chosenKeys rt conn t selection, ∃ columns, e.liveRow key = some columns ∧
      Turns change columns ((e.liveRow key).bind f) := by
    intro key hkey
    obtain ⟨-, columns, hcolumns⟩ := of_mem_chosenKeys htab hco henum hkey
    exact ⟨columns, hcolumns, hcolumns ▸ hchange columns⟩
  have hnew : rowsUnder (e.chosenKeys rt conn t selection) (fun key ↦ (e.liveRow key).bind f) =
      (e.sessions.view conn).changes rt t selection f := rowsUnder_chosenKeys htab hco henum f
  have htext : countText verb (e.chosenKeys rt conn t selection).length =
      Database.changedText rt (e.order rt conn) verb t selection :=
    congrArg (countText verb) (List.length_map Prod.fst)
  refine Effect.wp_bind (Effect.wp_get (Effect.wp_bind (Effect.wp_ofExcept (fun rows hrows ↦ ?_)
    fun _ herr ↦ ?_)))
  case refine_2 => cases hscan.symm.trans herr
  obtain rfl := Except.ok.inj (hscan.symm.trans hrows)
  rw [show selectedKeys rt selection (rowsOf rt t (e.scanned rt t (e.readVersion conn))) =
    e.chosenKeys rt conn t selection from htab.selectedKeys_eq hco hev hstale selection]
  rcases htx : e.activeTransactions.lookup conn with - | tx
  · -- at once
    refine Effect.wp_bind (Effect.wp_mono
      (wp_changeKeys_placing hco htx (nodup_chosenKeys henum) hlive) (fun _ u hplaced ↦
        Effect.wp_bind (Effect.wp_get (Effect.wp_pure ⟨fun hu ↦ ?_, htext⟩))) fun _ _ h ↦ h)
    obtain ⟨h, hbumps⟩ := hplaced
    refine ⟨h.tabular htab hrowKey, ?_, fun hf ↦ h.undeleted hu fun key hkey ↦ ?_⟩
    · rw [h.sessions_eq hco hu, hnew, TableSessions.change, opened_sessions, htx]
      refine congrArg (e.sessions.place _) (propext ?_)
      rw [← hnew, exists_rowsUnder_isSome_iff hrowKey]
      omega
    · obtain ⟨columns, hcolumns, -⟩ := hlive key hkey
      show ((e.liveRow key).bind f).isSome
      rw [hcolumns]
      exact hf columns
  · -- in the transaction
    refine Effect.wp_bind (Effect.wp_mono (wp_changeKeys_noting hco.full hev htx hlive) (fun _ u h ↦
      Effect.wp_bind (Effect.wp_get (Effect.wp_pure ⟨fun hu ↦
        ⟨h.tabular htab htx hrowKey, ?_, fun _ ↦ h.same.undeleted⟩, htext⟩))) fun _ _ h ↦ h.elim)
    rw [h.sessions_eq htx, hnew, TableSessions.change, opened_sessions, htx]
    rfl

/-! ### `COMMIT` -/

/-- A lookup of a row's key finds what was installed last under it. -/
theorem Tabular.fetch_eq (h : e.Tabular) (hco : e.Coherent rt N) (hev : e.history.evictions = 0)
    (hne : key ≠ schemasKey) : e.fetch rt key = .ok (e.lastInstalled key) := by
  rcases hlast : e.lastInstalled key with - | data
  · have htier : e.btree.memoryTier.get key = none := (hco.full hev key).trans hlast
    obtain ⟨r, hr, hrel⟩ := BPlusTree.getPages_sound rt.search hco.sound key
    rcases r with - | data
    · simp only [Engine.fetch, BPlusTree.get, htier, hr]
    · -- it would have been installed before
      obtain ⟨w, hw, rfl, -⟩ := (h.traced_of_stored (hrel data rfl)).resolve_right hne
      obtain ⟨data, hsome⟩ := exists_lastInstalled hw
      cases hlast.symm.trans hsome
  · simp only [Engine.fetch, BPlusTree.get, hco.full hev key, hlast]

theorem rowKey_ne {key : Bytes} (h : IsRowKey key) : key ≠ schemasKey := by
  obtain ⟨t, id, -, rfl⟩ := h
  exact rowKey_ne_schemasKey t id

/-- The checks of a `COMMIT` fail if there is a conflict. -/
theorem Tabular.rejects_iff (h : e.Tabular) (hco : e.Coherent rt N) (hev : e.history.evictions = 0)
    (htx : e.activeTransactions.lookup conn = some tx) :
    e.Rejects rt tx ↔ (e.snapshot tx).Conflicts := by
  have hkey : ∀ key ∈ tx.updates.keys, e.RejectsKey rt tx key ↔
      ∃ r, e.lastInstalled key = some (.record r) ∧ tx.snapshotVersion < r.version := by
    intro key hmem
    rw [RejectsKey, h.fetch_eq hco hev (rowKey_ne (h.buffered conn tx htx key hmem))]
    constructor
    · rintro ⟨data, hdata, hnewer⟩
      have hlast := Except.ok.inj hdata
      obtain ⟨w, hw, -, rfl⟩ := mem_installs_of_lastInstalled hlast
      obtain ⟨-, r, hr⟩ := h.written w hw
      rw [hr] at hlast hnewer
      exact ⟨r, hlast, hnewer r rfl⟩
    · rintro ⟨r, hlast, hnewer⟩
      exact ⟨.record r, by rw [hlast], fun r' hr' ↦ Except.ok.inj hr' ▸ hnewer⟩
  constructor
  · rintro ⟨key, hmem, hreject⟩
    obtain ⟨t, id, hname, heq⟩ := h.buffered conn tx htx key hmem
    have hunder : (tablePrefix t).isPrefixOf key = true := heq ▸ (isPrefixOf_rowKey_iff hname id).2 rfl
    exact ⟨t, key, rowsUnder_isSome_iff.2 ⟨hunder, hmem⟩, hunder, (hkey key hmem).1 hreject⟩
  · rintro ⟨t, key, hwrites, -, hnewer⟩
    have hmem := (rowsUnder_isSome_iff.1 hwrites).2
    exact ⟨key, hmem, (hkey key hmem).2 hnewer⟩

theorem sessions_closed (conn : Nat) (e : Engine) :
    (e.closed conn).sessions = e.sessions.setOpened conn none := by
  refine TableSessions.ext rfl (funext fun c ↦ ?_)
  show ((e.activeTransactions.erase conn).lookup c).map e.snapshot =
    Function.update e.sessions.opened conn none c
  rcases eq_or_ne c conn with rfl | hc
  · rw [AList.lookup_erase, Function.update_self]
    rfl
  · rw [AList.lookup_erase_ne hc, Function.update_of_ne hc]
    rfl

theorem Tabular.closed (h : e.Tabular) (conn : Nat) : (e.closed conn).Tabular :=
  ⟨h.unindexed, h.written, fun c tx htx ↦ h.buffered c tx (lookup_of_lookup_closed htx).2, h.enqueued⟩

theorem mem_updates_iff : key ∈ (rt.iterate tx.updates).map Prod.fst ↔ key ∈ tx.updates.keys := by
  rw [((rt.iterate_perm tx.updates).map Prod.fst).mem_iff, HashMap.map_fst_toList]

/-- The checks fail only if there is a conflict. -/
theorem wp_validateKeys_sessions (htab : e.Tabular) (hco : e.Coherent rt N) (hev : e.history.evictions = 0)
    (htx : e.activeTransactions.lookup conn = some tx) :
    Effect.wp (Effect.forEach ((rt.iterate tx.updates).map Prod.fst) (validateKey rt tx))
      (fun _ u ↦ u = e.closed conn ∧ ¬ (e.snapshot tx).Conflicts)
      (fun err u ↦ u = e.closed conn ∧ err = .conflict ∧ (e.snapshot tx).Conflicts) (e.closed conn) := by
  have hrejects := htab.rejects_iff hco hev htx
  refine Effect.wp_forEach (fun done u ↦ u = e.closed conn ∧ ∀ key ∈ done, ¬ e.RejectsKey rt tx key)
    ⟨rfl, fun _ h ↦ absurd h List.not_mem_nil⟩ ?_ fun u hpassed ↦ ⟨hpassed.1, ?_⟩
  · rintro done key rest hsplit u ⟨rfl, hdone⟩
    have hmem : key ∈ tx.updates.keys :=
      mem_updates_iff.1 (hsplit ▸ List.mem_append_right _ List.mem_cons_self)
    have hfetch := htab.fetch_eq hco hev (rowKey_ne (htab.buffered conn tx htx key hmem))
    refine Effect.wp_mono (wp_validateKey_of_record (e := e.closed conn) hfetch fun d hd ↦ ?_)
      (fun _ u hu ↦ ⟨hu.1, fun k hk ↦ ?_⟩)
      fun err u hu ↦ ⟨hu.1, hu.2.1, hrejects.1 ⟨key, hmem, hu.2.2⟩⟩
    · obtain ⟨w, hw, -, rfl⟩ := mem_installs_of_lastInstalled hd
      exact (htab.written w hw).2
    · rcases List.mem_append.1 hk with hk | hk
      · exact hdone k hk
      · exact List.mem_singleton.1 hk ▸ hu.2
  · rw [← hrejects]
    rintro ⟨key, hmem, hreject⟩
    exact hpassed.2 key (mem_updates_iff.2 hmem) hreject

/-- The installations put the rows that were noted into the tables. They fail only if the log has no
room. -/
theorem wp_installKeys_placing (hco : e.Coherent rt N) (htx : e.activeTransactions.lookup conn = some tx) :
    Effect.wp (Effect.forEach (rt.iterate tx.updates)
        (installKey rt conn (e.closed conn).bump.currentVersion))
      (fun _ u ↦ Placing tx.row (e.closed conn) ((rt.iterate tx.updates).map Prod.fst) u ∧
        u.history.bumps = e.history.bumps + 1)
      (fun _ u ↦ e.history.refusals < u.history.refusals) (e.closed conn).bump := by
  have hopening : Placing tx.row (e.closed conn) [] (e.closed conn).bump :=
    (Placing.refl tx.row hco.closed).bump
  refine Effect.wp_forEach (fun done u ↦ Placing tx.row (e.closed conn) (done.map Prod.fst) u ∧
    u.history.bumps = e.history.bumps + 1) ⟨hopening, rfl⟩
    (fun done update rest hsplit u hplacing ↦ ?_) fun u hplaced ↦ hplaced
  obtain ⟨h, hbumps⟩ := hplacing
  have hmem : update ∈ rt.iterate tx.updates := hsplit ▸ List.mem_append_right _ List.mem_cons_self
  obtain ⟨⟨r, hr, -⟩, -⟩ := hco.buffered conn tx htx update.1 update.2 (mem_iterate_iff.1 hmem)
  refine Effect.wp_bind (Effect.wp_ofExcept (fun r' hr' ↦ ?_) fun _ herr ↦ ?_)
  case refine_2 =>
    rw [hr] at herr
    cases herr
  obtain rfl : r = r' := by
    rw [hr] at hr'
    exact Except.ok.inj hr'
  refine Effect.wp_bind (Effect.wp_modify (wp_enqueue (fun _ ↦ ⟨?_, hbumps⟩) fun _ ↦ ?_))
  · rw [List.map_append]
    refine h.snoc .commit fun hu ↦ ⟨(Data.liveRow_version r _).trans ?_, ?_⟩
    · show _ = (tx.updates.lookup update.1).bind Data.liveRow
      rw [mem_iterate_iff.1 hmem, hr, Option.bind_some]
    · show e.history.bumps < (e.closed conn).bump.currentVersion
      have hb : e.history.bumps + 1 < 2 ^ 64 := hbumps ▸ hu.bumps
      rw [hopening.version_eq hb]
      exact Nat.lt_succ_self _
  · show e.history.refusals < u.history.refusals + 1
    rw [h.refusals]
    exact Nat.lt_succ_self _

/-- **`COMMIT`** puts the rows that were noted into the tables, unless there is a conflict or the log has
no room. -/
theorem wp_commit_sessions (htab : e.Tabular) (hco : e.Coherent rt N) (hev : e.history.evictions = 0) :
    Effect.wp (commit rt conn)
      (fun reply u ↦ e.sessions.commitText conn = .ok reply.output ∧
        (u.Steadfast → u.Tabular ∧ u.sessions = e.sessions.commit conn))
      (fun err u ↦ e.history.refusals < u.history.refusals ∨
        e.sessions.commitText conn = .error err ∧ u.Tabular ∧ u.sessions = e.sessions.commit conn) e := by
  refine Effect.wp_bind (Effect.wp_get ?_)
  rcases htx : e.activeTransactions.lookup conn with - | tx
  · refine Effect.wp_throw (Or.inr ⟨?_, htab, ?_⟩)
    · rw [TableSessions.commitText, opened_sessions, htx]
      rfl
    · rw [TableSessions.commit, opened_sessions, htx]
      rfl
  refine Effect.wp_bind (Effect.wp_modify (f := closed conn) (Effect.wp_bind
    (Effect.wp_mono (wp_validateKeys_sessions htab hco hev htx) (fun _ u hpassed ↦ ?_)
      fun err u hfailed ↦ Or.inr ?_)))
  · obtain ⟨rfl, hconflicts⟩ := hpassed
    refine Effect.wp_bind (Effect.wp_modify (Effect.wp_bind (Effect.wp_get (Effect.wp_bind
      (Effect.wp_mono (wp_installKeys_placing hco htx) (fun _ u hplaced ↦
        Effect.wp_pure ⟨?_, fun hu ↦ ⟨?_, ?_⟩⟩) fun _ _ hlt ↦ Or.inl hlt)))))
    · rw [TableSessions.commitText, opened_sessions, htx]
      exact if_neg hconflicts
    · exact hplaced.1.tabular (htab.closed conn) fun key hkey ↦
        htab.buffered conn tx htx key (mem_updates_iff.1 hkey)
    · have hwrites : rowsUnder ((rt.iterate tx.updates).map Prod.fst) tx.row = (e.snapshot tx).writes := by
        funext t key
        show rowsUnder _ _ t key = rowsUnder _ _ t key
        simp only [rowsUnder, mem_updates_iff]
      rw [hplaced.1.sessions_eq hco.closed hu, sessions_closed, hwrites, TableSessions.commit,
        opened_sessions, htx]
      refine Eq.trans ?_ (if_neg hconflicts).symm
      exact congrArg (TableSessions.place (e.snapshot tx).writes · _)
        (eq_true (hplaced.2 ▸ Nat.lt_succ_self _))
  · obtain ⟨rfl, rfl, hconflicts⟩ := hfailed
    refine ⟨?_, htab.closed conn, ?_⟩
    · rw [TableSessions.commitText, opened_sessions, htx]
      exact if_pos hconflicts
    · rw [TableSessions.commit, opened_sessions, htx, sessions_closed]
      exact (if_pos hconflicts).symm

end Engine

end KsSql
