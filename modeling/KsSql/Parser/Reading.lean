import KsSql.Parser.Engine
import KsSql.Storage.Frame
import KsSql.Util.FirstHits

/-!
# What statements read

A scan goes through the entries of the memory tier and then through those on the leaf chain, and
shows a row for each key of the table under which it meets a record that is not deleted and not newer
than its version; the first such record counts. `Engine.view` is that record's columns, and a scan
returns one row for each key that has a view (`scanTable_eq`). The order of the rows is that of the
entries, so two states with the same views give the same rows up to their order (`scanTable_perm`).
-/

namespace KsSql

namespace Runtime

variable (rt : Runtime)

/-- The columns that a scan at a version shows of a stored byte string. -/
def shown (version : Nat) (data : Data) : Option Row :=
  match rt.decodeRecord data with
  | .ok record =>
    if record.version ≤ version ∧ record.isDeleted = false then
      (rt.decodeRow record.value).toOption
    else none
  | .error _ => none

/-- A scan at a version does not fail on a stored byte string. -/
def Readable (version : Nat) (data : Data) : Prop :=
  ∃ record, rt.decodeRecord data = .ok record ∧
    (record.version ≤ version → record.isDeleted = false →
      ∃ columns, rt.decodeRow record.value = .ok columns)

/-- The columns that a scan of a table shows of an entry. -/
def shownUnder (tableName : Bytes) (version : Nat) (key : Bytes) (data : Data) : Option Row :=
  if (tablePrefix tableName).isPrefixOf key then rt.shown version data else none

/-- What is shown is the row in a record that is not newer than the version and not deleted. -/
theorem shown_eq_some_iff {version : Nat} {data : Data} {columns : Row} :
    rt.shown version data = some columns ↔ ∃ record, rt.decodeRecord data = .ok record ∧
      record.version ≤ version ∧ record.isDeleted = false ∧
        rt.decodeRow record.value = .ok columns := by
  unfold shown
  constructor
  · intro h
    split at h
    · rename_i record hrecord
      split at h
      · rename_i hcond
        refine ⟨record, hrecord, hcond.1, hcond.2, ?_⟩
        rcases hrow : rt.decodeRow record.value with e | c
        · rw [hrow] at h; cases h
        · rw [hrow] at h; cases h; rfl
      · cases h
    · cases h
  · rintro ⟨record, hrecord, hversion, hdeleted, hrow⟩
    rw [hrecord]
    simp only [if_pos (And.intro hversion hdeleted), hrow]
    rfl

/-- The record of a row shows its columns, unless it is deleted or too new. -/
theorem shownUnder_row {t key : Bytes} {version : Nat} {columns : Row} {r : Record}
    (hkey : (tablePrefix t).isPrefixOf key = true) (hvalue : r.value = .row columns) :
    rt.shownUnder t version key (.record r) =
      if r.version ≤ version ∧ r.isDeleted = false then some columns else none := by
  unfold shownUnder shown
  rw [if_pos hkey]
  simp only [decodeRecord, hvalue, decodeRow, Except.toOption]

end Runtime

namespace Engine

variable (rt : Runtime)

/-- The stored entries, in the order in which a scan meets them. -/
def entries (e : Engine) : List (Bytes × Data) :=
  rt.iterate e.btree.memoryTier.cache ++ e.btree.leafEntries

/-- What a scan of a table shows under a key. -/
def view (e : Engine) (tableName : Bytes) (version : Nat) (key : Bytes) : Option Row :=
  firstHit (rt.shownUnder tableName version) (e.entries rt) key

/-- What a scan of a table shows, with the keys. -/
def scanned (e : Engine) (tableName : Bytes) (version : Nat) : List (Bytes × Row) :=
  firstHits (rt.shownUnder tableName version) (e.entries rt) []

/-- The rows that a scan makes of what it shows. -/
def rowsOf (tableName : Bytes) (shown : List (Bytes × Row)) : List Row :=
  shown.map fun c ↦ scannedRow rt tableName c.1 c.2

end Engine

/-! ### One entry, one leaf, all leaves -/

section Scanning

variable (rt : Runtime) (tableName : Bytes) (version : Nat)

/-- The scan that has shown the given rows. -/
def Scan.showing (shown : List (Bytes × Row)) : Scan :=
  ⟨Engine.rowsOf rt tableName shown, shown.map Prod.fst⟩

/-- The outcome of a part of a scan: if it does not fail, it has shown the given rows, and it does
not fail if the condition holds. -/
structure Scan.Ends (outcome : Except EngineError Scan) (shown : List (Bytes × Row)) (c : Prop) :
    Prop where
  eq_of_ok : ∀ scan, outcome = .ok scan → scan = .showing rt tableName shown
  ok : c → ∃ scan, outcome = .ok scan

variable {acc shown : List (Bytes × Row)} {c c' : Prop}

omit version in
theorem Scan.Ends.bind {rt tableName} {x : Except EngineError Scan} {f : Scan → Except EngineError Scan}
    {shown' : List (Bytes × Row)} (hx : Scan.Ends rt tableName x shown c)
    (hf : Scan.Ends rt tableName (f (.showing rt tableName shown)) shown' c') :
    Scan.Ends rt tableName (x >>= f) shown' (c ∧ c') := by
  refine ⟨fun scan h ↦ ?_, fun ⟨hc, hc'⟩ ↦ ?_⟩
  · rcases hxs : x with e | s
    · rw [hxs] at h; cases h
    · rw [hxs, hx.eq_of_ok s hxs] at h
      exact hf.eq_of_ok scan h
  · obtain ⟨s, hs⟩ := hx.ok hc
    rw [hs, hx.eq_of_ok s hs]
    exact hf.ok hc'

/-- One entry is shown, or passed over. -/
theorem ends_scanEntry (acc : List (Bytes × Row)) (key : Bytes) (data : Data) :
    Scan.Ends rt tableName (scanEntry rt tableName version (.showing rt tableName acc) key data)
      (keepHit acc key (rt.shownUnder tableName version key data))
      ((tablePrefix tableName).isPrefixOf key = true → rt.Readable version data) := by
  unfold scanEntry Runtime.shownUnder
  split
  · rename_i hpre
    rcases hrecord : rt.decodeRecord data with e | record
    · refine ⟨fun scan h ↦ (nomatch h), fun h ↦ ?_⟩
      obtain ⟨record, hrecord', -⟩ := h hpre
      rw [hrecord] at hrecord'
      cases hrecord'
    · simp only [Runtime.shown, hrecord]
      show Scan.Ends rt tableName (if _ then _ else _) _ _
      split
      · rename_i hcond
        rcases hrow : rt.decodeRow record.value with e | columns
        · refine ⟨fun scan h ↦ (nomatch h), fun h ↦ ?_⟩
          obtain ⟨record', hrecord', hrow'⟩ := h hpre
          rw [hrecord] at hrecord'
          cases hrecord'
          obtain ⟨columns, hcolumns⟩ := hrow' hcond.1 hcond.2
          rw [hrow] at hcolumns
          cases hcolumns
        · refine ⟨fun scan h ↦ ?_, fun _ ↦ ⟨_, rfl⟩⟩
          cases h
          simp only [Except.toOption, keepHit, Scan.showing, Engine.rowsOf, List.map_append,
            List.map_singleton]
      · exact ⟨fun scan h ↦ (Except.ok.inj h).symm, fun _ ↦ ⟨_, rfl⟩⟩
  · exact ⟨fun scan h ↦ (Except.ok.inj h).symm, fun _ ↦ ⟨_, rfl⟩⟩

/-- The scan of the memory tier, whose keys come once. -/
theorem ends_scanTier : ∀ (l : List (Bytes × Data)) (acc : List (Bytes × Row)),
    (l.map Prod.fst).Nodup → (∀ key ∈ l.map Prod.fst, key ∉ acc.map Prod.fst) →
    Scan.Ends rt tableName
      (l.foldlM (fun acc c ↦ scanEntry rt tableName version acc c.1 c.2)
        (.showing rt tableName acc))
      (firstHits (rt.shownUnder tableName version) l acc)
      (∀ x ∈ l, (tablePrefix tableName).isPrefixOf x.1 = true → rt.Readable version x.2)
  | [], acc, _, _ => ⟨fun scan h ↦ (Except.ok.inj h).symm, fun _ ↦ ⟨_, rfl⟩⟩
  | (key, data) :: l, acc, hnodup, hacc => by
    obtain ⟨hnot, hnodup⟩ := List.nodup_cons.1 hnodup
    have hkey : key ∉ acc.map Prod.fst := hacc key List.mem_cons_self
    have hentry := ends_scanEntry rt tableName version acc key data
    have hrest := hentry.bind (f := fun s ↦
      l.foldlM (fun acc c ↦ scanEntry rt tableName version acc c.1 c.2) s)
      (ends_scanTier l _ hnodup (by
        intro k hk
        rcases rt.shownUnder tableName version key data with - | columns
        · exact hacc k (List.mem_cons_of_mem _ hk)
        · rw [keepHit, List.map_append, List.mem_append, not_or]
          refine ⟨hacc k (List.mem_cons_of_mem _ hk), fun h ↦ hnot ?_⟩
          rwa [List.mem_singleton.1 h] at hk))
    rw [firstHits, if_neg hkey]
    exact ⟨hrest.eq_of_ok, fun h ↦ hrest.ok ⟨h (key, data) List.mem_cons_self,
      fun x hx ↦ h x (List.mem_cons_of_mem _ hx)⟩⟩

/-- The scan of one leaf, which has a value for each key. -/
theorem ends_scanLeaf : ∀ (keys : List Bytes) (values : List Data) (acc : List (Bytes × Row)),
    keys.length = values.length →
    Scan.Ends rt tableName (scanLeaf rt tableName version keys values (.showing rt tableName acc))
      (firstHits (rt.shownUnder tableName version) (keys.zip values) acc)
      (∀ x ∈ keys.zip values, (tablePrefix tableName).isPrefixOf x.1 = true →
        rt.Readable version x.2)
  | [], _, acc, _ => ⟨fun scan h ↦ (Except.ok.inj h).symm, fun _ ↦ ⟨_, rfl⟩⟩
  | key :: keys, [], acc, h => by cases h
  | key :: keys, data :: values, acc, hlen => by
    have hlen' : keys.length = values.length := Nat.succ.inj hlen
    rw [scanLeaf, List.zip_cons_cons]
    by_cases hkey : key ∈ acc.map Prod.fst
    · rw [if_pos (Or.inl (show key ∈ (Scan.showing rt tableName acc).processedKeys from hkey)),
        firstHits, if_pos hkey]
      have hrest := ends_scanLeaf keys values acc hlen'
      exact ⟨hrest.eq_of_ok, fun h ↦ hrest.ok fun x hx ↦ h x (List.mem_cons_of_mem _ hx)⟩
    · rw [firstHits, if_neg hkey]
      by_cases hpre : (tablePrefix tableName).isPrefixOf key
      · rw [if_neg (by
          rintro (h | h)
          · exact hkey h
          · rw [hpre] at h; cases h)]
        have hentry := ends_scanEntry rt tableName version acc key data
        have hrest := hentry.bind (f := scanLeaf rt tableName version keys values)
          (ends_scanLeaf keys values _ hlen')
        exact ⟨hrest.eq_of_ok, fun h ↦ hrest.ok ⟨h (key, data) List.mem_cons_self,
          fun x hx ↦ h x (List.mem_cons_of_mem _ hx)⟩⟩
      · rw [if_pos (Or.inr (Bool.eq_false_iff.2 hpre))]
        have hnone : rt.shownUnder tableName version key data = none := if_neg hpre
        rw [hnone]
        have hrest := ends_scanLeaf keys values acc hlen'
        exact ⟨hrest.eq_of_ok, fun h ↦ hrest.ok fun x hx ↦ h x (List.mem_cons_of_mem _ hx)⟩

/-- The scan of leaves one after another. -/
theorem ends_scanLeaves (nodes : Nat → Node Bytes Data) : ∀ (pages : List Nat)
    (acc : List (Bytes × Row)), (∀ p ∈ pages, (nodes p).keys.length = (nodes p).values.length) →
    Scan.Ends rt tableName
      (pages.foldlM (fun acc p ↦
        scanLeaf rt tableName version (nodes p).keys (nodes p).values acc)
        (.showing rt tableName acc))
      (firstHits (rt.shownUnder tableName version) (pages.flatMap fun p ↦ (nodes p).entries) acc)
      (∀ x ∈ pages.flatMap fun p ↦ (nodes p).entries,
        (tablePrefix tableName).isPrefixOf x.1 = true → rt.Readable version x.2)
  | [], acc, _ => ⟨fun scan h ↦ (Except.ok.inj h).symm, fun _ ↦ ⟨_, rfl⟩⟩
  | p :: pages, acc, hlen => by
    have hleaf := ends_scanLeaf rt tableName version (nodes p).keys (nodes p).values acc
      (hlen p List.mem_cons_self)
    have hrest := hleaf.bind (f := fun s ↦ pages.foldlM (fun acc p ↦
        scanLeaf rt tableName version (nodes p).keys (nodes p).values acc) s)
      (ends_scanLeaves nodes pages _ fun q hq ↦ hlen q (List.mem_cons_of_mem _ hq))
    rw [List.flatMap_cons, firstHits_append]
    refine ⟨hrest.eq_of_ok, fun h ↦ hrest.ok ⟨fun x hx ↦ h x (List.mem_append_left _ hx),
      fun x hx ↦ h x (List.mem_append_right _ hx)⟩⟩

end Scanning

/-! ### The scan of a table -/

namespace Engine

variable {rt : Runtime} {e : Engine} {R : Bytes → Data → Prop}

/-- What an iteration over the memory tier visits is what it holds. -/
theorem mem_iterate_iff {V : Type} {m : HashMap Bytes V} {key : Bytes} {v : V} :
    (key, v) ∈ rt.iterate m ↔ m.lookup key = some v :=
  (rt.iterate_perm m).mem_iff.trans HashMap.mem_toList_iff

/-- An iteration visits no key twice. -/
theorem nodup_keys_iterate {V : Type} (m : HashMap Bytes V) :
    ((rt.iterate m).map Prod.fst).Nodup :=
  ((rt.iterate_perm m).map Prod.fst).nodup_iff.2 m.nodup_map_fst_toList

/-- A scan of a sound tree shows what the entries show, unless it fails; and it fails only on an
entry of the table that cannot be read. -/
theorem ends_scanTable (he : BPlusTree.Sound R e.btree) (tableName : Bytes) (version : Nat) :
    (∀ rows, e.scanTable rt tableName version = .ok rows →
      rows = rowsOf rt tableName (e.scanned rt tableName version)) ∧
    ((∀ x ∈ e.entries rt, (tablePrefix tableName).isPrefixOf x.1 = true →
      rt.Readable version x.2) → ∃ rows, e.scanTable rt tableName version = .ok rows) := by
  have htier := ends_scanTier rt tableName version (rt.iterate e.btree.memoryTier.cache) []
    (nodup_keys_iterate _) fun _ _ ↦ List.not_mem_nil
  have hleaves := ends_scanLeaves rt tableName version e.btree.pager.pages e.btree.leafPages
    (firstHits (rt.shownUnder tableName version) (rt.iterate e.btree.memoryTier.cache) [])
    fun p hp ↦ (BPlusTree.leafOk_of_mem_leafPages he p hp).shape.length_eq
  let walk : Scan → Except EngineError Scan := fun acc ↦ e.btree.leafPages.foldlM
    (fun acc p ↦ scanLeaf rt tableName version (e.btree.pager.pages p).keys
      (e.btree.pager.pages p).values acc) acc
  have hscan : e.scanTable rt tableName version =
      (e.scanTier rt tableName version >>= walk).map Scan.rows := by
    have htree : e.scanTree rt tableName version = walk := by
      funext acc
      rw [scanTree, BPlusTree.scanLeaves_eq_foldlM he]
    rw [scanTable, htree]
    rcases e.scanTier rt tableName version with err | acc
    · rfl
    · show (walk acc >>= fun acc ↦ pure acc.rows) = (walk acc).map Scan.rows
      rcases walk acc with err | acc' <;> rfl
  have hends := htier.bind (f := walk) hleaves
  rw [hscan]
  refine ⟨fun rows hrows ↦ ?_, fun h ↦ ?_⟩
  · rcases hok : e.scanTier rt tableName version >>= walk with err | scan
    · rw [hok] at hrows; cases hrows
    · rw [hok] at hrows
      obtain rfl : scan.rows = rows := Except.ok.inj hrows
      rw [hends.eq_of_ok scan hok, scanned, entries, firstHits_append]
      rfl
  · obtain ⟨scan, hscan⟩ := hends.ok ⟨fun x hx ↦ h x (List.mem_append_left _ hx),
      fun x hx ↦ h x (List.mem_append_right _ hx)⟩
    refine ⟨scan.rows, ?_⟩
    rw [show e.scanTier rt tableName version >>= walk = .ok scan from hscan]
    rfl

/-- **A scan** of a sound tree returns one row for each key that has a view. -/
theorem scanTable_eq (he : BPlusTree.Sound R e.btree) {tableName : Bytes} {version : Nat}
    {rows : List Row} (h : e.scanTable rt tableName version = .ok rows) :
    rows = rowsOf rt tableName (e.scanned rt tableName version) :=
  (ends_scanTable he tableName version).1 rows h

/-- A scan of readable entries does not fail. -/
theorem scanTable_ok (he : BPlusTree.Sound R e.btree) {tableName : Bytes} {version : Nat}
    (h : ∀ x ∈ e.entries rt, (tablePrefix tableName).isPrefixOf x.1 = true →
      rt.Readable version x.2) :
    e.scanTable rt tableName version =
      .ok (rowsOf rt tableName (e.scanned rt tableName version)) := by
  obtain ⟨rows, hrows⟩ := (ends_scanTable he tableName version).2 h
  rw [hrows, ← scanTable_eq he hrows]

/-- Where the views are the same, scans show the same, up to the order. -/
theorem scanned_perm {e' : Engine} {tableName : Bytes} {version version' : Nat}
    (h : ∀ key, e.view rt tableName version key = e'.view rt tableName version' key) :
    (e.scanned rt tableName version).Perm (e'.scanned rt tableName version') :=
  firstHits_perm h

/-- What a scan shows is what the views are. -/
theorem mem_scanned {tableName key : Bytes} {version : Nat} {columns : Row} :
    (key, columns) ∈ e.scanned rt tableName version ↔
      e.view rt tableName version key = some columns :=
  mem_firstHits

/-- The view of a key: what its entry in the memory tier shows, or else the first entry on the leaf
chain that shows something. -/
theorem view_eq (tableName key : Bytes) (version : Nat) : e.view rt tableName version key =
    ((e.btree.memoryTier.get key).bind (rt.shownUnder tableName version key)).or
      (firstHit (rt.shownUnder tableName version) e.btree.leafEntries key) := by
  rw [view, entries, firstHit_append]
  congr 1
  rcases hdata : e.btree.memoryTier.get key with - | data
  · refine firstHit_eq_none_iff.2 fun v hv ↦ ?_
    rw [mem_iterate_iff] at hv
    exact absurd (hdata.symm.trans hv) nofun
  · exact firstHit_of_mem (nodup_keys_iterate _) (mem_iterate_iff.2 hdata)

end Engine

end KsSql
