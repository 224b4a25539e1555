import KsSql.Parser.CommitErrors
import KsSql.Parser.Isolation
import KsSql.Parser.VersionClock

/-!
# Which commits are rejected

A transaction remembers the version at which it began, and `COMMIT` compares it with the versions of
the records stored under its keys. An `UPDATE`, a `DELETE` and a `COMMIT` increment the version counter
before they write; an `INSERT` does not. So what the former have written since the transaction began is
newer than its version, and what an `INSERT` writes under one of its keys is not: the row was not there
before, and the transaction has seen it (`Dated`).

Hence `COMMIT` fails with a conflict if and only if one of the transaction's keys was written by an
`UPDATE`, a `DELETE` or a `COMMIT` after it began (`commit_conflict_iff`). This needs that the keys
generated for rows are all different, that no column is called `__key__`, and that nothing was evicted
from the memory tier.
-/

namespace KsSql

/-- Two members of a list of related elements are related, one way or the other. -/
theorem rel_or_rel_of_pairwise {α : Type} {R : α → α → Prop} {l : List α} (h : l.Pairwise R) {a b : α}
    (ha : a ∈ l) (hb : b ∈ l) (hne : a ≠ b) : R a b ∨ R b a := by
  have : Std.Symm fun a b ↦ R a b ∨ R b a := ⟨fun _ _ ↦ Or.symm⟩
  exact (h.imp Or.inl : l.Pairwise fun a b ↦ R a b ∨ R b a).forall ha hb hne

/-- The command inserts rows into plain tables only. -/
def Command.InsertsPlainly : Command → Prop
  | .statement (.insert t _) => PlainTable t
  | _ => True

/-- So does the command that the action calls, if it calls one. -/
def Action.InsertsPlainly : Action → Prop
  | .call _ command => command.InsertsPlainly
  | _ => True

namespace Engine

variable {rt : Runtime} {N : Bytes → Prop} {command : Command} {conn : Nat} {e e' : Engine}
  {tx : Transaction} {key : Bytes} {w : Install}

/-- The keys generated for rows. -/
def drawnKeys (e : Engine) : List Bytes := e.history.drawn.map Prod.snd

/-- A write to the memory tier: the record of a row, under a generated key; that of the catalogue,
changed; or an index entry that leads to a row. -/
inductive Explains (e : Engine) (w : Install) : Prop
  | row (r : Record) : w.data = .record r → w.key ∈ e.drawnKeys → w.kind ≠ .index → Explains e w
  | catalogue (r : Record) : w.data = .record r → w.key = schemasKey → w.kind ≠ .insert →
      w.kind ≠ .index → Explains e w
  | index (target : Bytes) : w.data = .raw target → target ∈ e.drawnKeys → w.kind = .index →
      IsIndexKey w.key → Explains e w

/-- Where the keys and the writes come from. The write of an `INSERT` is the first under its key. -/
structure Accounted (e : Engine) : Prop where
  drawn : ∀ key ∈ e.drawnKeys, PlainKey key ∧ key ≠ schemasKey
  written : ∀ w ∈ e.history.installs, e.Explains w
  first : e.history.installs.Pairwise fun w w' ↦ w'.kind = .insert → w.key ≠ w'.key

/-- The records written before the transaction began are not newer than its version, and those written
since are, except by an `INSERT`; and those of an `INSERT` under the transaction's own keys are not. -/
structure Dated (e : Engine) (tx : Transaction) : Prop where
  begun : tx.begunAt ≤ e.history.installs.length
  old : ∀ w ∈ e.history.installs.take tx.begunAt, ∀ r, w.data = .record r →
    r.version ≤ tx.snapshotVersion
  new : ∀ w ∈ e.history.installs.drop tx.begunAt, w.kind ≠ .insert → ∀ r, w.data = .record r →
    tx.snapshotVersion < r.version
  inserted : ∀ key ∈ tx.updates.keys, ∀ w ∈ e.history.installs, w.key = key → w.kind = .insert →
    ∀ r, w.data = .record r → r.version ≤ tx.snapshotVersion
  keys : ∀ key ∈ tx.updates.keys, key ∈ e.drawnKeys

/-- The writes are accounted for, and every open transaction is dated. -/
structure Ledger (e : Engine) : Prop where
  accounted : e.Accounted
  dated : ∀ conn tx, e.activeTransactions.lookup conn = some tx → e.Dated tx

/-! ### Where a key comes from -/

theorem Explains.mono (h : e.Explains w) (hdrawn : e.drawnKeys ⊆ e'.drawnKeys) : e'.Explains w := by
  cases h with
  | row r hr hkey hkind => exact .row r hr (hdrawn hkey) hkind
  | catalogue r hr hkey hkind hkind' => exact .catalogue r hr hkey hkind hkind'
  | index target hr htarget hkind hkey => exact .index target hr (hdrawn htarget) hkind hkey

/-- Under a generated key there are records of rows only. -/
theorem Accounted.exists_record (h : e.Accounted) (hw : w ∈ e.history.installs)
    (hkey : w.key ∈ e.drawnKeys) : (∃ r, w.data = .record r) ∧ w.kind ≠ .index := by
  cases h.written w hw with
  | row r hr _ hkind => exact ⟨⟨r, hr⟩, hkind⟩
  | catalogue r hr hschemas => exact absurd hschemas (h.drawn _ hkey).2
  | index target _ _ _ hindex =>
    exact absurd (h.drawn _ hkey).1 (not_plainKey_of_isIndexKey hindex)

/-- Nothing is stored under a key that was not generated yet, and is no special one. -/
theorem Accounted.key_ne (h : e.Accounted) (hplain : PlainKey key) (hschemas : key ≠ schemasKey)
    (hfresh : key ∉ e.drawnKeys) : ∀ w ∈ e.history.installs, w.key ≠ key := by
  rintro w hw rfl
  cases h.written w hw with
  | row r _ hkey => exact hfresh hkey
  | catalogue r _ hkey => exact hschemas hkey
  | index target _ _ _ hindex => exact not_plainKey_of_isIndexKey hindex hplain

/-- The record of an `INSERT` is the oldest under its key. -/
theorem Accounted.version_le (h : e.Accounted) (hclocked : e.Clocked) {w₀ : Install} {r r₀ : Record}
    (hw : w ∈ e.history.installs) (hkind : w.kind = .insert) (hw₀ : w₀ ∈ e.history.installs)
    (hkey : w₀.key = w.key) (hr : w.data = .record r) (hr₀ : w₀.data = .record r₀) :
    r.version ≤ r₀.version := by
  rcases eq_or_ne w w₀ with rfl | hne
  · rw [Data.record.inj (hr.symm.trans hr₀)]
  rcases rel_or_rel_of_pairwise (h.first.and hclocked.ordered) hw hw₀ hne with ⟨-, hle⟩ | ⟨hfirst, -⟩
  · exact hle r r₀ hr hr₀
  · exact absurd hkey (hfirst hkind)

/-- What decodes as a record is one, unless a row's key does. -/
theorem eq_record_of_decodeRecord (hrawRecord : ∀ key, rt.rawRecord key = none) {data : Data}
    {r : Record} (h : rt.decodeRecord data = .ok r) : data = .record r := by
  rcases data with r' | target
  · rw [Except.ok.inj h]
  · rw [Runtime.decodeRecord, hrawRecord] at h
    cases h

/-- A record that is known was written, under a generated key or as the catalogue. -/
theorem Accounted.of_known (h : e.Accounted) (hrawRecord : ∀ key, rt.rawRecord key = none) {data : Data}
    {r : Record} (hknown : e.Known N key data) (hr : rt.decodeRecord data = .ok r)
    (hkey : key ≠ schemasKey) :
    key ∈ e.drawnKeys ∧ ∃ w ∈ e.history.installs, w.key = key ∧ w.data = .record r := by
  obtain rfl := eq_record_of_decodeRecord hrawRecord hr
  rcases hknown with ⟨w, hw, rfl, hdata⟩ | ⟨-, hschemas | ⟨target, htarget, -⟩⟩
  · refine ⟨?_, w, hw, rfl, hdata⟩
    cases h.written w hw with
    | row r _ hdrawn => exact hdrawn
    | catalogue r _ hschemas => exact absurd hschemas hkey
    | index target hraw => cases hraw.symm.trans hdata
  · exact absurd hschemas hkey
  · cases htarget

theorem Accounted.of_hasRecord (h : e.Accounted) (hrawRecord : ∀ key, rt.rawRecord key = none)
    (hrecord : e.HasRecord rt N key) : key ∈ e.drawnKeys ∨ key = schemasKey := by
  obtain ⟨data, r, hknown, hr⟩ := hrecord
  rcases eq_or_ne key schemasKey with heq | hne
  · exact Or.inr heq
  · exact Or.inl (h.of_known hrawRecord hknown hr hne).1

/-- A key under which a scan shows a row was generated, and a record was written under it that is not
newer than the scan's version. -/
theorem Accounted.of_seenKey (h : e.Accounted) (hrawRecord : ∀ key, rt.rawRecord key = none)
    (hco : e.Coherent rt (· ≠ keyColumn)) {version : Nat}
    (hseen : e.SeenKey rt (· ≠ keyColumn) version key) :
    key ∈ e.drawnKeys ∧ ∃ w ∈ e.history.installs, w.key = key ∧
      ∃ r, w.data = .record r ∧ r.version ≤ version := by
  have hshown : ∀ {k : Bytes} {data : Data} {columns : Row},
      e.Known (· ≠ keyColumn) k data → rt.shown version data = some columns → k ≠ schemasKey →
      k ∈ e.drawnKeys ∧ keyColumn ∉ columns.keys ∧ ∃ w ∈ e.history.installs, w.key = k ∧
        ∃ r, w.data = .record r ∧ r.version ≤ version := by
    intro k data columns hknown hdata hk
    obtain ⟨r, hr, hversion, -, hrow⟩ := rt.shown_eq_some_iff.1 hdata
    obtain ⟨hdrawn, w, hw, hkey, hwr⟩ := h.of_known hrawRecord hknown hr hk
    obtain ⟨r', columns', rfl, hvalue, -, hcolumns⟩ :=
      hco.exists_row_of_known (h.drawn k hdrawn).1 hk hknown
    obtain rfl : r' = r := Except.ok.inj hr
    rw [hvalue] at hrow
    obtain rfl : columns' = columns := Except.ok.inj hrow
    exact ⟨hdrawn, fun hmem ↦ hcolumns _ hmem rfl, w, hw, hkey, r', hwr, hversion⟩
  obtain ⟨t, row, hrow, hlookup⟩ := hseen
  rcases hrow with ⟨k, data, columns, hknown, hunder, rfl⟩ |
    ⟨column, value, target, data, columns, hentry, hknown, hdata, rfl⟩
  · -- the row of a scan
    rw [Runtime.shownUnder] at hunder
    split at hunder
    · rename_i hprefix
      obtain ⟨hdrawn, hcolumns, hw⟩ := hshown hknown hunder (ne_schemasKey_of_isPrefixOf hprefix)
      rw [lookup_keyColumn_scannedRow hcolumns] at hlookup
      obtain rfl := Option.some.inj hlookup
      exact ⟨hdrawn, hw⟩
    · cases hunder
  · -- the row that an index entry leads to
    obtain ⟨k, rfl, hk⟩ : ∃ k, target = .raw k ∧ k ≠ schemasKey := by
      rcases hentry with ⟨w, hw, hkey, rfl⟩ | ⟨-, hschemas | htarget⟩
      · cases h.written w hw with
        | row r _ hdrawn =>
          have hindex : IsIndexKey w.key := ⟨_, _, _, hkey⟩
          exact absurd (h.drawn _ hdrawn).1 (not_plainKey_of_isIndexKey hindex)
        | catalogue r _ hschemas =>
          exact absurd (hkey.symm.trans hschemas) (indexKey_ne_schemasKey _ _ _)
        | index k hraw hdrawn => exact ⟨k, hraw, (h.drawn k hdrawn).2⟩
      · exact absurd hschemas (indexKey_ne_schemasKey _ _ _)
      · exact htarget
    have hfinal : rt.finalKey (.raw k) = k := by
      rw [Runtime.finalKey, Runtime.decodeRecord, hrawRecord]
      rfl
    rw [hfinal] at hknown
    obtain ⟨hdrawn, hcolumns, hw⟩ := hshown hknown hdata hk
    rw [lookup_keyColumn_scannedRow hcolumns] at hlookup
    obtain rfl : k = key := Option.some.inj hlookup
    exact ⟨hdrawn, hw⟩

/-! ### Each change keeps the ledger -/

theorem Accounted.congr (h : e.Accounted) (hinstalls : e'.history.installs = e.history.installs)
    (hdrawn : e'.history.drawn = e.history.drawn) : e'.Accounted := by
  have hkeys : e'.drawnKeys = e.drawnKeys := by rw [drawnKeys, hdrawn, drawnKeys]
  constructor
  · rw [hkeys]
    exact h.drawn
  · rw [hinstalls]
    exact fun w hw ↦ (h.written w hw).mono fun k hk ↦ hkeys ▸ hk
  · rw [hinstalls]
    exact h.first

theorem drawnKeys_draw (conn : Nat) (key : Bytes) (e : Engine) :
    (e.draw conn key).drawnKeys = e.drawnKeys ++ [key] := by
  rw [drawnKeys, draw, List.map_append]
  rfl

theorem not_mem_drawnKeys (conn : Nat) (h : (e.draw conn key).drawnKeys.Nodup) : key ∉ e.drawnKeys := by
  rw [drawnKeys_draw] at h
  exact fun hmem ↦ List.disjoint_of_nodup_append h hmem (List.mem_singleton.2 rfl)

theorem Accounted.draw (h : e.Accounted) (hplain : PlainKey key) (hschemas : key ≠ schemasKey) :
    (e.draw conn key).Accounted where
  drawn k hk := by
    rw [drawnKeys_draw] at hk
    rcases List.mem_append.1 hk with hk | hk
    · exact h.drawn k hk
    · rw [List.mem_singleton.1 hk]
      exact ⟨hplain, hschemas⟩
  written w hw := (h.written w hw).mono (drawnKeys_draw conn key e ▸ List.subset_append_left _ _)
  first := h.first

theorem Accounted.install (h : e.Accounted) (hw : e.Explains w)
    (hfirst : w.kind = .insert → ∀ w' ∈ e.history.installs, w'.key ≠ w.key) :
    (e.install rt w).Accounted where
  drawn := h.drawn
  written w' hw' := by
    rcases List.mem_append.1 hw' with hw' | hw'
    · exact (h.written w' hw').mono (List.Subset.refl _)
    · rw [List.mem_singleton.1 hw']
      exact hw.mono (List.Subset.refl _)
  first := by
    refine List.pairwise_append.2 ⟨h.first, List.pairwise_singleton _ _, fun w₁ hw₁ w₂ hw₂ hkind ↦ ?_⟩
    rw [List.mem_singleton.1 hw₂] at hkind ⊢
    exact hfirst hkind w₁ hw₁

theorem Dated.congr (h : e.Dated tx) (hinstalls : e'.history.installs = e.history.installs)
    (hdrawn : e.drawnKeys ⊆ e'.drawnKeys) : e'.Dated tx := by
  constructor
  · rw [hinstalls]
    exact h.begun
  · rw [hinstalls]
    exact h.old
  · rw [hinstalls]
    exact h.new
  · rw [hinstalls]
    exact h.inserted
  · exact fun key hkey ↦ hdrawn (h.keys key hkey)

/-- A write since the transaction began: one of an `INSERT` under another key, or a newer record. -/
theorem Dated.install (h : e.Dated tx) (hinsert : w.kind = .insert → w.key ∉ tx.updates.keys)
    (hnewer : w.kind ≠ .insert → ∀ r, w.data = .record r → tx.snapshotVersion < r.version) :
    (e.install rt w).Dated tx where
  begun := h.begun.trans (by rw [Engine.install, List.length_append]; exact Nat.le_add_right _ _)
  old w' hw' := by
    refine h.old w' ?_
    rwa [Engine.install, List.take_append_of_le_length h.begun] at hw'
  new w' hw' := by
    rw [Engine.install, List.drop_append_of_le_length h.begun] at hw'
    rcases List.mem_append.1 hw' with hw' | hw'
    · exact h.new w' hw'
    · rw [List.mem_singleton.1 hw']
      exact hnewer
  inserted key hkey w' hw' heq hkind := by
    rcases List.mem_append.1 hw' with hw' | hw'
    · exact h.inserted key hkey w' hw' heq hkind
    · rw [List.mem_singleton.1 hw'] at heq hkind
      exact absurd (heq ▸ hkey) (hinsert hkind)
  keys := h.keys

theorem Ledger.congr (h : e.Ledger) (hhistory : e'.history.installs = e.history.installs)
    (hdrawn : e'.history.drawn = e.history.drawn)
    (hactive : e'.activeTransactions = e.activeTransactions) : e'.Ledger where
  accounted := h.accounted.congr hhistory hdrawn
  dated c tx htx := by
    refine (h.dated c tx (hactive ▸ htx)).congr hhistory ?_
    rw [drawnKeys, drawnKeys, hdrawn]
    exact List.Subset.refl _

theorem Ledger.draw (h : e.Ledger) (conn : Nat) (hplain : PlainKey key) (hschemas : key ≠ schemasKey) :
    (e.draw conn key).Ledger where
  accounted := h.accounted.draw hplain hschemas
  dated c tx htx := (h.dated c tx htx).congr rfl (drawnKeys_draw conn key e ▸
    List.subset_append_left _ _)

/-- A write that is no `INSERT`, at a version newer than those of all open transactions. -/
theorem Ledger.install (h : e.Ledger) (hw : e.Explains w) (hkind : w.kind ≠ .insert)
    (hnewer : ∀ r, w.data = .record r → ∀ c tx, e.activeTransactions.lookup c = some tx →
      tx.snapshotVersion < r.version) : (e.install rt w).Ledger where
  accounted := h.accounted.install hw fun hinsert ↦ absurd hinsert hkind
  dated c tx htx := (h.dated c tx htx).install (fun hinsert ↦ absurd hinsert hkind)
    fun _ r hr ↦ hnewer r hr c tx htx

/-- The write of an `INSERT`, under a key just generated. -/
theorem Ledger.insertRow (h : e.Ledger) (hplain : PlainKey key) (hschemas : key ≠ schemasKey)
    (hfresh : key ∉ e.drawnKeys) (r : Record) :
    ((e.draw conn key).install rt ⟨conn, .insert, key, .record r⟩).Ledger := by
  have hdraw : (e.draw conn key).Ledger := h.draw conn hplain hschemas
  have hdrawn : key ∈ (e.draw conn key).drawnKeys := by
    rw [drawnKeys_draw]
    exact List.mem_append_right _ (List.mem_singleton.2 rfl)
  exact {
    accounted := hdraw.accounted.install (.row r rfl hdrawn nofun) fun _ ↦
      h.accounted.key_ne hplain hschemas hfresh
    dated := fun c tx htx ↦ (hdraw.dated c tx htx).install
      (fun _ hmem ↦ hfresh ((h.dated c tx htx).keys key hmem)) fun hkind ↦ absurd rfl hkind }

/-- A write into the buffer of a transaction: what an `INSERT` has written under its key is not newer
than the transaction. -/
theorem Ledger.buffer (h : e.Ledger) (htx : e.activeTransactions.lookup conn = some tx) {data : Data}
    (hdrawn : key ∈ e.drawnKeys) (hinserted : ∀ w ∈ e.history.installs, w.key = key →
      w.kind = .insert → ∀ r, w.data = .record r → r.version ≤ tx.snapshotVersion) :
    (e.buffer conn tx key data).Ledger where
  accounted := h.accounted.congr rfl rfl
  dated c tx' htx' := by
    rcases eq_or_ne c conn with rfl | hc
    · rw [Engine.buffer, AList.lookup_insert] at htx'
      obtain rfl := Option.some.inj htx'
      have hdated := h.dated c tx htx
      have hkeys : ∀ k ∈ (tx.updates.insert key data).keys, k = key ∨ k ∈ tx.updates.keys :=
        fun k hk ↦ (AList.mem_insert _).1 hk
      refine ⟨hdated.begun, hdated.old, hdated.new, fun k hk ↦ ?_, fun k hk ↦ ?_⟩
      · rcases hkeys k hk with rfl | hk
        · exact hinserted
        · exact hdated.inserted k hk
      · rcases hkeys k hk with rfl | hk
        · exact hdrawn
        · exact hdated.keys k hk
    · rw [Engine.buffer, AList.lookup_insert_ne hc] at htx'
      exact (h.dated c tx' htx').congr rfl (List.Subset.refl _)

theorem Ledger.opened (h : e.Ledger) (hclocked : e.Clocked) : (e.opened conn).Ledger where
  accounted := h.accounted.congr rfl rfl
  dated c tx' htx' := by
    rcases eq_or_ne c conn with rfl | hc
    · rw [Engine.opened, AList.lookup_insert] at htx'
      obtain rfl := Option.some.inj htx'
      refine ⟨le_rfl, fun w hw ↦ hclocked.installed w (List.mem_of_mem_take hw), fun w hw ↦ ?_,
        fun k hk ↦ absurd hk List.not_mem_nil, fun k hk ↦ absurd hk List.not_mem_nil⟩
      have hnone : e.history.installs.drop e.history.installs.length = [] := List.drop_length
      rw [show (e.opened c).history.installs.drop e.history.installs.length = [] from hnone] at hw
      exact absurd hw List.not_mem_nil
    · rw [Engine.opened, AList.lookup_insert_ne hc] at htx'
      exact (h.dated c tx' htx').congr rfl (List.Subset.refl _)

theorem Ledger.closed (h : e.Ledger) : (e.closed conn).Ledger where
  accounted := h.accounted.congr rfl rfl
  dated c tx htx := (h.dated c tx (lookup_of_lookup_closed htx).2).congr rfl (List.Subset.refl _)

theorem ledger_empty : Engine.empty.Ledger where
  accounted := ⟨fun _ hk ↦ absurd hk List.not_mem_nil, fun _ hw ↦ absurd hw List.not_mem_nil,
    List.Pairwise.nil⟩
  dated _ _ htx := by cases htx

/-- What is asked of the state for its ledger: its page ids and versions are below their limits, and
the keys generated for rows are all different. -/
structure Fresh (e : Engine) : Prop where
  bounded : e.Bounded
  nodup : e.drawnKeys.Nodup

theorem Grows.fresh (h : Grows e e') (he : e'.Fresh) : e.Fresh :=
  ⟨h.bounded he.bounded, he.nodup.sublist ((h.drawn.map Prod.snd).sublist)⟩

/-- **Every change keeps the ledger.** -/
theorem Primitive.ledger (hrawRecord : ∀ key, rt.rawRecord key = none) (hplain : command.InsertsPlainly)
    (h : Primitive rt (· ≠ keyColumn) command conn e e') (hfresh : e'.Fresh)
    (hco : e.Coherent rt (· ≠ keyColumn)) (hclocked : e.Clocked) (he : e.Ledger) : e'.Ledger := by
  have hb := (h.grows.fresh hfresh).bounded
  have hnext : ∀ t source, command = .statement (.insert t source) → PlainKey (e.nextKey rt t) ∧
      e.nextKey rt t ≠ schemasKey := by
    rintro t source rfl
    have ht : PlainTable t := hplain
    exact ⟨ht.plainKey (List.isPrefixOf_iff_prefix.2 (List.prefix_append _ _)), rowKey_ne_schemasKey _ _⟩
  -- a record that is known is accounted for
  have hexplains : ∀ {u : Engine} (w : Install) (r : Record), u.drawnKeys = e.drawnKeys →
      w.data = .record r → w.kind ≠ .insert → w.kind ≠ .index →
      w.key ∈ e.drawnKeys ∨ w.key = schemasKey → u.Explains w := by
    rintro u w r hu hr hinsert hindex (hkey | hkey)
    · exact .row r hr (hu ▸ hkey) hindex
    · exact .catalogue r hr hkey hinsert hindex
  cases h with
  | insertRow t source columns timestamp hcommand _ _ =>
    obtain ⟨hkey, hschemas⟩ := hnext t source hcommand
    exact he.insertRow hkey hschemas (not_mem_drawnKeys conn hfresh.nodup) _
  | bufferRow t source columns timestamp tx hcommand htx _ =>
    obtain ⟨hkey, hschemas⟩ := hnext t source hcommand
    have hnew : e.nextKey rt t ∉ e.drawnKeys := not_mem_drawnKeys conn hfresh.nodup
    refine (he.draw conn hkey hschemas).buffer htx ?_ fun w hw heq ↦ ?_
    · rw [drawnKeys_draw]
      exact List.mem_append_right _ (List.mem_singleton.2 rfl)
    · exact absurd heq (he.accounted.key_ne hkey hschemas hnew w hw)
  | change key r _ _ hguard =>
    have hversion : e.bump.currentVersion = e.currentVersion + 1 := by
      refine Nat.mod_eq_of_lt ?_
      rw [hclocked.version_eq]
      exact hfresh.bounded.bumps
    have hbump : e.bump.Ledger := he.congr rfl rfl rfl
    refine hbump.install (hexplains _ _ rfl rfl nofun nofun
      (he.accounted.of_hasRecord hrawRecord (hguard hb).1)) nofun fun r' hr' c tx htx ↦ ?_
    cases hr'
    rw [hversion]
    exact Nat.lt_succ_of_le (hco.snapshot c tx htx)
  | bufferChange key r tx htx hguard =>
    obtain ⟨hdrawn, w₀, hw₀, hkey₀, r₀, hr₀, hversion⟩ :=
      he.accounted.of_seenKey hrawRecord hco (hguard hb).2.2
    exact he.buffer htx hdrawn fun w hw hkey hkind r' hr' ↦
      (he.accounted.version_le hclocked hw hkind hw₀ (hkey₀.trans hkey.symm) hr' hr₀).trans hversion
  | bump => exact he.congr rfl rfl rfl
  | commitKey key r _ _ hguard =>
    refine he.install (hexplains _ _ rfl rfl nofun nofun ?_) nofun fun r' hr' c tx htx ↦ ?_
    · rcases (hguard hb).1 with hrecord | hdrawn
      · exact he.accounted.of_hasRecord hrawRecord hrecord
      · exact Or.inl (List.mem_map_of_mem (f := Prod.snd) hdrawn)
    · cases hr'
      exact (hguard hb).2.2 c tx htx
  | index key target _ hindex hguard =>
    obtain ⟨version, hseen⟩ := hguard hb
    exact he.install (.index target rfl (he.accounted.of_seenKey hrawRecord hco hseen).1 rfl hindex) nofun
      fun r hr ↦ by cases hr
  | opened => exact he.opened hclocked
  | closed => exact he.closed
  | _ => exact he.congr rfl rfl rfl

theorem Progress.ledger (hrawRecord : ∀ key, rt.rawRecord key = none) (hplain : command.InsertsPlainly)
    (h : Progress rt (· ≠ keyColumn) command conn e e') (hinv : e.Inv rt (· ≠ keyColumn))
    (hclocked : e.history.bumps < 2 ^ 64 → e.Clocked) (he : e.Fresh → e.Ledger) :
    e'.Fresh → e'.Ledger := by
  induction h with
  | refl => exact he
  | tail hprog hstep ih =>
    intro hfresh
    have hu := hstep.grows.fresh hfresh
    have hbumps := hu.bounded.bumps
    exact hstep.ledger hrawRecord hplain hfresh (Progress.inv hprog hinv hu.bounded)
      (Progress.clocked hprog (hclocked ((Progress.grows hprog).bumps.trans_lt hbumps)) hbumps) (ih hu)

/-! ### The check of a commit -/

/-- A lookup of a generated key finds what was written last under it. -/
theorem Accounted.fetch_eq (h : e.Accounted) (hrawRecord : ∀ key, rt.rawRecord key = none)
    (hco : e.Coherent rt N) (hev : e.history.evictions = 0) (hkey : key ∈ e.drawnKeys) :
    e.fetch rt key = .ok (e.lastInstalled key) := by
  rcases hlast : e.lastInstalled key with - | data
  · obtain ⟨data, hdata, hknown⟩ := hco.fetch key
    rcases data with - | data
    · exact hdata
    · -- it would be known, and written before
      obtain ⟨r, -, rfl, -⟩ := hco.exists_row_of_known (h.drawn key hkey).1 (h.drawn key hkey).2
        (hknown data rfl)
      obtain ⟨-, w, hw, rfl, -⟩ := h.of_known hrawRecord (hknown _ rfl) rfl (h.drawn key hkey).2
      obtain ⟨data, hsome⟩ := exists_lastInstalled hw
      cases hlast.symm.trans hsome
  · simp only [Engine.fetch, BPlusTree.get, hco.full hev key, hlast]

/-- The check of a generated key fails if the record written last is newer than the transaction. -/
theorem Accounted.rejectsKey_iff (h : e.Accounted) (hrawRecord : ∀ key, rt.rawRecord key = none)
    (hco : e.Coherent rt N) (hev : e.history.evictions = 0) (hkey : key ∈ e.drawnKeys) :
    e.RejectsKey rt tx key ↔
      ∃ r, e.lastInstalled key = some (.record r) ∧ tx.snapshotVersion < r.version := by
  rw [RejectsKey, h.fetch_eq hrawRecord hco hev hkey]
  constructor
  · rintro ⟨data, hdata, hnewer⟩
    have hlast := Except.ok.inj hdata
    obtain ⟨w, hw, rfl, rfl⟩ := mem_installs_of_lastInstalled hlast
    obtain ⟨⟨r, hr⟩, -⟩ := h.exists_record hw hkey
    rw [hr] at hlast hnewer
    exact ⟨r, hlast, hnewer r rfl⟩
  · rintro ⟨r, hlast, hnewer⟩
    exact ⟨.record r, by rw [hlast], fun r' hr' ↦ Except.ok.inj hr' ▸ hnewer⟩

/-- The checks of a transaction fail if one of its keys was written since it began, and not by an
`INSERT`. -/
theorem Ledger.rejects_iff (h : e.Ledger) (hrawRecord : ∀ key, rt.rawRecord key = none)
    (hco : e.Coherent rt N) (hclocked : e.Clocked) (hev : e.history.evictions = 0)
    (hopen : e.activeTransactions.lookup conn = some tx) :
    e.Rejects rt tx ↔ ∃ w ∈ e.history.installs.drop tx.begunAt,
      w.key ∈ tx.updates.keys ∧ (w.kind = .change ∨ w.kind = .commit) := by
  have hdated := h.dated conn tx hopen
  constructor
  · rintro ⟨key, hkey, hreject⟩
    obtain ⟨r, hlast, hnewer⟩ :=
      (h.accounted.rejectsKey_iff hrawRecord hco hev (hdated.keys key hkey)).1 hreject
    obtain ⟨w, hw, rfl, hr⟩ := mem_installs_of_lastInstalled hlast
    have hindex := (h.accounted.exists_record hw (hdated.keys _ hkey)).2
    rw [← List.take_append_drop tx.begunAt e.history.installs, List.mem_append] at hw
    rcases hw with hold | hw
    · exact absurd (hdated.old w hold r hr) (Nat.not_le_of_lt hnewer)
    · refine ⟨w, hw, hkey, ?_⟩
      rcases hkind : w.kind with - | - | - | -
      · have hle := hdated.inserted _ hkey w (List.mem_of_mem_drop hw) rfl hkind r hr
        exact absurd hle (Nat.not_le_of_lt hnewer)
      · exact Or.inl rfl
      · exact Or.inr rfl
      · exact absurd hkind hindex
  · rintro ⟨w, hw, hkey, hkind⟩
    have hmem := List.mem_of_mem_drop hw
    have hdrawn := hdated.keys _ hkey
    obtain ⟨⟨r, hr⟩, -⟩ := h.accounted.exists_record hmem hdrawn
    have hinsert : w.kind ≠ .insert := by
      rintro heq
      rw [heq] at hkind
      rcases hkind with hkind | hkind <;> cases hkind
    have hnewer := hdated.new w hw hinsert r hr
    -- what was written last is as new
    obtain ⟨data, hlast⟩ := exists_lastInstalled hmem
    obtain ⟨w', hw', hkey', hdata⟩ := mem_installs_of_lastInstalled hlast
    obtain ⟨⟨r', hr'⟩, -⟩ := h.accounted.exists_record hw' (hkey' ▸ hdrawn)
    rw [← hdata, hr'] at hlast
    exact ⟨w.key, hkey, (h.accounted.rejectsKey_iff hrawRecord hco hev hdrawn).2
      ⟨r', hlast, hnewer.trans_le (hclocked.le_lastInstalled hmem hr hlast)⟩⟩

/-- A check of a key under which there is a record, if anything, fails with a conflict only. -/
theorem wp_validateKey_of_record {data : Option Data} (hfetch : e.fetch rt key = .ok data)
    (hrecord : ∀ d, data = some d → ∃ r, d = .record r) :
    Effect.wp (validateKey rt tx key) (fun _ t ↦ t = e ∧ ¬ e.RejectsKey rt tx key)
      (fun err t ↦ t = e ∧ err = .conflict ∧ e.RejectsKey rt tx key) e := by
  refine Effect.wp_bind ?_
  unfold Effect.wp fetchKey
  rw [hfetch]
  rcases data with - | data
  · refine ⟨rfl, ?_⟩
    rintro ⟨d, hd, -⟩
    cases hfetch.symm.trans hd
  · obtain ⟨r, rfl⟩ := hrecord _ rfl
    refine Effect.wp_bind (Effect.wp_ofExcept (fun record hr ↦ ?_) fun err herr ↦ by cases herr)
    cases hr
    split
    · rename_i hnewer
      exact Effect.wp_throw ⟨rfl, rfl, _, hfetch, fun r' hr' ↦ Except.ok.inj hr' ▸ hnewer⟩
    · rename_i hnewer
      refine Effect.wp_pure ⟨rfl, ?_⟩
      rintro ⟨d, hd, hreject⟩
      cases hfetch.symm.trans hd
      exact hnewer (hreject r rfl)

/-- An installation of a record does not fail with a conflict. -/
theorem wp_installKey_of_record {version : Nat} {update : Bytes × Data} {r : Record}
    (hr : update.2 = .record r) :
    Effect.wp (installKey rt conn version update) (fun _ _ ↦ True) (fun err _ ↦ err ≠ .conflict) e := by
  refine Effect.wp_bind (Effect.wp_ofExcept (fun _ _ ↦ ?_) fun err herr ↦ ?_)
  · refine Effect.wp_bind (Effect.wp_modify ?_)
    unfold Effect.wp enqueue
    split
    · trivial
    · rename_i heq
      split at heq <;> cases heq
      exact nofun
  · rw [hr] at herr
    cases herr

/-- `COMMIT` fails with a conflict when its checks fail, and not otherwise. -/
theorem commit_conflict_iff_rejects (hco : e.Coherent rt N)
    (hopen : e.activeTransactions.lookup conn = some tx)
    (hrecord : ∀ key ∈ tx.updates.keys, ∀ d, e.fetch rt key = .ok (some d) → ∃ r, d = .record r) :
    (commit rt conn e).1 = .error .conflict ↔ e.Rejects rt tx := by
  have hkeys : ∀ key, key ∈ (rt.iterate tx.updates).map Prod.fst ↔ key ∈ tx.updates.keys := by
    intro key
    rw [((rt.iterate_perm tx.updates).map Prod.fst).mem_iff, HashMap.map_fst_toList]
  have hwp : Effect.wp (commit rt conn) (fun _ _ ↦ ¬ e.Rejects rt tx)
      (fun err _ ↦ err = .conflict ↔ e.Rejects rt tx) e := by
    refine Effect.wp_bind (Effect.wp_get ?_)
    rw [hopen]
    refine Effect.wp_bind (Effect.wp_modify (f := closed conn) (Effect.wp_bind
      (Effect.wp_forEach (fun done t ↦ t = e.closed conn ∧ ∀ key ∈ done, ¬ e.RejectsKey rt tx key)
        ⟨rfl, fun _ h ↦ absurd h List.not_mem_nil⟩ ?_ ?_)))
    · rintro done key rest hsplit t ⟨rfl, hdone⟩
      have hmem : key ∈ tx.updates.keys :=
        (hkeys key).1 (hsplit ▸ List.mem_append_right _ List.mem_cons_self)
      obtain ⟨data, hdata, -⟩ := hco.fetch key
      refine Effect.wp_mono (wp_validateKey_of_record (e := e.closed conn) hdata fun d hd ↦
        hrecord key hmem d (hd ▸ hdata)) (fun _ t ht ↦ ⟨ht.1, fun k hk ↦ ?_⟩)
        fun err t ht ↦ iff_of_true ht.2.1 ⟨key, hmem, ht.2.2⟩
      rcases List.mem_append.1 hk with hk | hk
      · exact hdone k hk
      · exact List.mem_singleton.1 hk ▸ ht.2
    · rintro t ⟨-, hpass⟩
      have hpass : ¬ e.Rejects rt tx := by
        rintro ⟨key, hmem, hreject⟩
        exact hpass key ((hkeys key).2 hmem) hreject
      refine Effect.wp_bind (Effect.wp_modify (Effect.wp_bind (Effect.wp_get (Effect.wp_bind
        (Effect.wp_forEach (fun _ _ ↦ True) trivial (fun _ update rest hsplit t _ ↦ ?_)
          fun _ _ ↦ Effect.wp_pure hpass)))))
      have hmem : update ∈ rt.iterate tx.updates := hsplit ▸ List.mem_append_right _ List.mem_cons_self
      obtain ⟨⟨r, hr, -⟩, -⟩ := hco.buffered conn tx hopen update.1 update.2 (mem_iterate_iff.1 hmem)
      exact Effect.wp_mono (wp_installKey_of_record hr) (fun _ _ _ ↦ trivial)
        fun err _ herr ↦ iff_of_false herr hpass
  unfold Effect.wp at hwp
  rcases hrun : commit rt conn e with ⟨err | reply, e'⟩ <;> rw [hrun] at hwp
  · exact ⟨fun h ↦ hwp.1 (Except.error.inj h), fun h ↦ congrArg Except.error (hwp.2 h)⟩
  · exact iff_of_false nofun hwp

end Engine

namespace System

open Engine

variable {rt : Runtime} {s s' : System}

/-- What holds in every state of a run of plain insertions, without a column `__key__`. -/
structure LedgerInv (rt : Runtime) (s : System) : Prop where
  inv : s.Inv rt (· ≠ keyColumn)
  version : s.VersionInv rt
  ledger : s.engine.Fresh → s.engine.Ledger

variable [Bincode (WalEntry Bytes Data)]

theorem LedgerInv.step (hrawRecord : ∀ key, rt.rawRecord key = none) {a : Action}
    (ha : a.ColumnsIn (· ≠ keyColumn) ∧ a.InsertsPlainly) (h : s.LedgerInv rt)
    (hstep : s.step rt a = some s') : s'.LedgerInv rt := by
  refine ⟨(step_inv ha.1 h.inv hstep).1, h.version.step hstep, ?_⟩
  cases Step.of_step hstep with
  | call conn command _ =>
    have hprog : Progress rt (· ≠ keyColumn) command conn s.engine _ :=
      progress_execute h.inv.engine ha.1
    rw [call_engine]
    exact hprog.ledger hrawRecord ha.2 h.inv.engine h.version.clocked h.ledger
  | drainApply entry rest _ =>
    have hgrows : Grows s.engine (applyEntry rt s.engine entry) := grows_applyEntry s.engine entry
    intro hfresh
    have hledger := h.ledger (hgrows.fresh hfresh)
    cases entry with
    | recordUpdate key data => exact hledger.congr rfl rfl rfl
    | _ => exact hledger
  | _ =>
    intro hfresh
    have hledger := h.ledger ⟨⟨hfresh.bounded.pages, hfresh.bounded.bumps⟩, hfresh.nodup⟩
    exact hledger.congr rfl rfl rfl

theorem ledgerInv_of_run (hrawRecord : ∀ key, rt.rawRecord key = none) {actions : List Action}
    (ha : ∀ a ∈ actions, a.ColumnsIn (· ≠ keyColumn) ∧ a.InsertsPlainly)
    (hrun : start.run rt actions = some s) : s.LedgerInv rt :=
  run_invariant (I := fun s ↦ s.LedgerInv rt) (fun _ _ _ ha h hstep ↦ h.step hrawRecord ha hstep) ha
    ⟨inv_start, versionInv_of_run (rfl : start.run rt [] = some start), fun _ ↦ ledger_empty⟩ hrun

end System

open Engine

/-- **The first committer wins.** In every state of a run, a `COMMIT` fails with a conflict if and only
if one of the transaction's keys was written after the transaction began, by an `UPDATE` or a `DELETE`
outside transactions or by a `COMMIT`. -/
theorem commit_conflict_iff [Bincode (WalEntry Bytes Data)] {rt : Runtime}
    (hrawRecord : ∀ key, rt.rawRecord key = none) {actions : List Action} {s : System}
    (hactions : ∀ a ∈ actions, a.ColumnsIn (· ≠ keyColumn) ∧ a.InsertsPlainly)
    (hrun : System.start.run rt actions = some s) (hfresh : s.engine.Fresh)
    (hev : s.engine.history.evictions = 0) {conn : Nat} {tx : Transaction}
    (hopen : s.engine.activeTransactions.lookup conn = some tx) :
    (execute rt .commit conn s.engine).1 = .error .conflict ↔
      ∃ w ∈ s.engine.history.installs.drop tx.begunAt,
        w.key ∈ tx.updates.keys ∧ (w.kind = .change ∨ w.kind = .commit) := by
  have h := System.ledgerInv_of_run hrawRecord hactions hrun
  have hco := h.inv.engine hfresh.bounded
  have hledger := h.ledger hfresh
  rw [← hledger.rejects_iff hrawRecord hco (h.version.clocked hfresh.bounded.bumps) hev hopen]
  refine commit_conflict_iff_rejects hco hopen fun key hkey d hd ↦ ?_
  have hdrawn := (hledger.dated conn tx hopen).keys key hkey
  rw [hledger.accounted.fetch_eq hrawRecord hco hev hdrawn] at hd
  obtain ⟨w, hw, rfl, rfl⟩ := mem_installs_of_lastInstalled (Except.ok.inj hd)
  exact (hledger.accounted.exists_record hw hdrawn).1

/-- An update of the row that the transaction has updated. -/
theorem commit_conflict_iff_overtaken : let _ := plainBincode []
    ∃ s tx, System.start.run .plain (updateInTransaction ++ [.call 2 (updateOf "u" "id" "4" none),
        .flushRound, .flushRound]) = some s ∧
      s.engine.activeTransactions.lookup 1 = some tx ∧
      (execute .plain .commit 1 s.engine).1 = .error .conflict ∧
      ∃ w ∈ s.engine.history.installs.drop tx.begunAt,
        w.key ∈ tx.updates.keys ∧ (w.kind = .change ∨ w.kind = .commit) := by
  let _ := plainBincode []
  have hany : (System.start.run .plain (updateInTransaction ++
      [.call 2 (updateOf "u" "id" "4" none), .flushRound, .flushRound])).any (fun s ↦
        (s.engine.activeTransactions.lookup 1).any fun tx ↦
          (execute .plain .commit 1 s.engine).1 = .error .conflict ∧ s.engine.history.bumps = 1 ∧
            s.engine.btree.pager.handedOut.length = 0 ∧ s.engine.history.evictions = 0 ∧
            s.engine.drawnKeys.Nodup) = true := by
    decide +kernel
  obtain ⟨s, hs, hany⟩ := (Option.any_eq_true _ _).1 hany
  obtain ⟨tx, htx, hstate⟩ := (Option.any_eq_true _ _).1 hany
  obtain ⟨herr, hbumps, hpages, hev, hnodup⟩ := of_decide_eq_true hstate
  have hbounded : s.engine.Bounded := ⟨by
    show s.engine.btree.pager.handedOut.length < _
    rw [hpages]
    decide, hbumps ▸ by decide⟩
  have hplain : PlainTable (bytes "u") := by decide
  have hid : bytes "id" ≠ keyColumn := by decide
  have hactions : ∀ a ∈ updateInTransaction ++ [.call 2 (updateOf "u" "id" "4" none),
      .flushRound, .flushRound], a.ColumnsIn (· ≠ keyColumn) ∧ a.InsertsPlainly := by
    have hupdate : ∀ value, (updateOf "u" "id" value none).ColumnsIn (· ≠ keyColumn) := by
      intro value a ha c hc
      rw [List.mem_singleton.1 ha] at hc
      exact Option.some.inj hc ▸ hid
    simp only [updateInTransaction, List.cons_append, List.nil_append, List.forall_mem_cons]
    refine ⟨⟨fun c hc ↦ ?_, trivial⟩, ⟨trivial, hplain⟩, ⟨trivial, trivial⟩, ⟨trivial, trivial⟩,
      ⟨trivial, trivial⟩, ⟨trivial, trivial⟩, ⟨hupdate "3", trivial⟩, ⟨hupdate "4", trivial⟩,
      ⟨trivial, trivial⟩, ⟨trivial, trivial⟩, fun a ha ↦ absurd ha List.not_mem_nil⟩
    rw [List.mem_singleton.1 hc]
    exact hid
  exact ⟨s, tx, hs, htx, herr,
    (commit_conflict_iff (fun _ ↦ rfl) hactions hs ⟨hbounded, hnodup⟩ hev htx).1 herr⟩

end KsSql
