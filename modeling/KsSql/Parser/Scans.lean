import KsSql.Parser.Reading

/-!
# Scans of keys that are no text

A scan compares what `String::from_utf8_lossy` makes of a key with the prefix of the table, and shows that
text as the row's key. On keys that are text this is the scan of `Engine`, which compares the bytes
(`LossyScan.leaf_eq`, `LossyScan.tier_eq`); on other keys the two differ. Here the scan is followed as it
is written, for any way to decode keys (`LossyScan`).

Where entries come from does not matter to it: entry by entry, a scan passes over the keys it has shown a
row for and reads every other one that decodes to a key of the table (`scanEntries`). So what it shows are
first hits (`eq_firstHits_of_scanEntries`), and it succeeds exactly if it can read each entry that it does
not pass over (`scanEntries_isOk_iff`).
-/

namespace KsSql

open Engine

namespace Runtime

variable (rt : Runtime)

/-- The columns that a scan at a version reads from a stored byte string. A record that is deleted or
newer has none to show. -/
def read (version : Nat) (data : Data) : Except EngineError (Option Row) := do
  let record ← rt.decodeRecord data
  if record.version ≤ version ∧ record.isDeleted = false then do
    let columns ← rt.decodeRow record.value
    pure (some columns)
  else pure none

variable {rt} {version : Nat} {data : Data}

/-- What can be read is shown. -/
theorem read_of_readable (h : rt.Readable version data) :
    rt.read version data = .ok (rt.shown version data) := by
  obtain ⟨record, hrecord, hrow⟩ := h
  rw [read, shown, hrecord, Except.ok_bind]
  dsimp only
  split
  · rename_i hcond
    obtain ⟨columns, hcolumns⟩ := hrow hcond.1 hcond.2
    rw [hcolumns]
    rfl
  · rfl

theorem readable_of_read {shown : Option Row} (h : rt.read version data = .ok shown) :
    rt.Readable version data := by
  obtain ⟨record, hrecord, hrest⟩ := Except.exists_of_bind_eq_ok h
  refine ⟨record, hrecord, fun hversion hdeleted ↦ ?_⟩
  rw [if_pos ⟨hversion, hdeleted⟩] at hrest
  obtain ⟨columns, hcolumns, -⟩ := Except.exists_of_bind_eq_ok hrest
  exact ⟨columns, hcolumns⟩

end Runtime

/-! ### The scan, as it is written -/

namespace LossyScan

variable (lossy : Bytes → Bytes) (rt : Runtime) (tableName : Bytes) (version : Nat)

/-- Look at one stored entry in a scan. -/
def entry (acc : Scan) (key : Bytes) (data : Data) : Except EngineError Scan :=
  if (tablePrefix tableName).isPrefixOf (lossy key) then do
    let record ← rt.decodeRecord data
    if record.version ≤ version ∧ record.isDeleted = false then do
      let columns ← rt.decodeRow record.value
      pure { rows := acc.rows ++ [scannedRow rt tableName (lossy key) columns]
             processedKeys := acc.processedKeys ++ [key] }
    else pure acc
  else pure acc

/-- Look at a leaf's entries in a scan, from the left. A key without a value panics. -/
def leaf : List Bytes → List Data → Scan → Except EngineError Scan
  | [], _, acc => .ok acc
  | key :: keys, values, acc =>
    if key ∈ acc.processedKeys ∨ (tablePrefix tableName).isPrefixOf (lossy key) = false then
      leaf keys values.tail acc
    else
      match values with
      | [] => .error .panicked
      | data :: values => do
        let acc ← entry lossy rt tableName version acc key data
        leaf keys values acc

/-- The scan of the memory tier. -/
def tier (e : Engine) : Except EngineError Scan :=
  (rt.iterate e.btree.memoryTier.cache).foldlM
    (fun acc c ↦ entry lossy rt tableName version acc c.1 c.2) {}

variable {lossy rt tableName version}

/-- On keys that are text a leaf is scanned by the bytes of its keys. -/
theorem leaf_eq : ∀ {keys : List Bytes} {values : List Data} {acc : Scan},
    (∀ key ∈ keys, lossy key = key) →
      leaf lossy rt tableName version keys values acc = scanLeaf rt tableName version keys values acc
  | [], _, _, _ => rfl
  | key :: keys, values, acc, h => by
    have hkey := h key List.mem_cons_self
    have hrest : ∀ k ∈ keys, lossy k = k := fun k hk ↦ h k (List.mem_cons_of_mem key hk)
    unfold leaf scanLeaf entry scanEntry
    rw [hkey]
    rcases values with - | ⟨data, values⟩ <;> simp only [leaf_eq hrest]

/-- And so is the memory tier. -/
theorem tier_eq {e : Engine} (h : ∀ key ∈ e.btree.memoryTier.cache, lossy key = key) :
    tier lossy rt tableName version e = e.scanTier rt tableName version := by
  have hfold : ∀ (l : List (Bytes × Data)) (acc : Scan), (∀ c ∈ l, lossy c.1 = c.1) →
      l.foldlM (fun acc c ↦ entry lossy rt tableName version acc c.1 c.2) acc =
        l.foldlM (fun acc c ↦ scanEntry rt tableName version acc c.1 c.2) acc := by
    intro l
    induction l with
    | nil => exact fun _ _ ↦ rfl
    | cons c l ih =>
      intro acc hl
      have hentry : entry lossy rt tableName version acc c.1 c.2 =
          scanEntry rt tableName version acc c.1 c.2 := by
        unfold entry scanEntry
        rw [hl c List.mem_cons_self]
      rw [List.foldlM_cons, List.foldlM_cons, hentry]
      exact congrArg _ (funext fun acc ↦ ih acc fun c' hc' ↦ hl c' (List.mem_cons_of_mem c hc'))
  exact hfold _ _ fun c hc ↦ h c.1 (AList.lookup_isSome.1
    (Option.isSome_iff_exists.2 ⟨c.2, mem_iterate_iff.1 hc⟩))

end LossyScan

/-! ### Entry by entry -/

section

variable (lossy : Bytes → Bytes) (rt : Runtime) (tableName : Bytes) (version : Nat)

/-- The columns that a scan of a table shows of an entry. -/
def Runtime.shownAs (key : Bytes) (data : Data) : Option Row :=
  if (tablePrefix tableName).isPrefixOf (lossy key) then rt.shown version data else none

/-- A scan of entries one after another, with the columns shown so far. -/
def scanEntries : List (Bytes × Data) → List (Bytes × Row) →
    Except EngineError (List (Bytes × Row))
  | [], acc => .ok acc
  | (key, data) :: entries, acc =>
    if key ∈ acc.map Prod.fst ∨ (tablePrefix tableName).isPrefixOf (lossy key) = false then
      scanEntries entries acc
    else do
      let shown ← rt.read version data
      scanEntries entries (keepHit acc key shown)

/-- The scan that has shown the given columns. -/
def Scan.shows (shown : List (Bytes × Row)) : Scan :=
  ⟨shown.map fun c ↦ scannedRow rt tableName (lossy c.1) c.2, shown.map Prod.fst⟩

variable {lossy rt tableName version} {entries : List (Bytes × Data)} {acc found : List (Bytes × Row)}
  {key : Bytes} {data : Data}

theorem scanEntries_append (l l' : List (Bytes × Data)) (acc : List (Bytes × Row)) :
    scanEntries lossy rt tableName version (l ++ l') acc =
      (scanEntries lossy rt tableName version l acc >>=
        scanEntries lossy rt tableName version l') := by
  induction l generalizing acc with
  | nil => rfl
  | cons x l ih =>
    rw [List.cons_append, scanEntries, scanEntries]
    split
    · exact ih acc
    · rcases rt.read version x.2 with e | shown
      · rfl
      · exact ih _

/-- **What a scan shows are first hits.** -/
theorem eq_firstHits_of_scanEntries : ∀ {entries : List (Bytes × Data)} {acc : List (Bytes × Row)},
    scanEntries lossy rt tableName version entries acc = .ok found →
      found = firstHits (rt.shownAs lossy tableName version) entries acc
  | [], acc, h => (Except.ok.inj h).symm
  | (key, data) :: entries, acc, h => by
    rw [scanEntries] at h
    rw [firstHits]
    by_cases hkey : key ∈ acc.map Prod.fst
    · rw [if_pos (.inl hkey)] at h
      rw [if_pos hkey]
      exact eq_firstHits_of_scanEntries h
    rw [if_neg hkey]
    by_cases hbegins : (tablePrefix tableName).isPrefixOf (lossy key) = true
    · rw [if_neg (not_or.2 ⟨hkey, ne_false_of_eq_true hbegins⟩)] at h
      obtain ⟨shown, hread, hrest⟩ := Except.exists_of_bind_eq_ok h
      have hshown : rt.shownAs lossy tableName version key data = shown := by
        rw [Runtime.shownAs, if_pos hbegins]
        exact Except.ok.inj ((Runtime.read_of_readable (Runtime.readable_of_read hread)).symm.trans
          hread)
      rw [hshown]
      exact eq_firstHits_of_scanEntries hrest
    · rw [if_pos (.inr (Bool.eq_false_iff.2 hbegins))] at h
      rw [Runtime.shownAs, if_neg hbegins]
      exact eq_firstHits_of_scanEntries h

variable (lossy rt tableName version) in
/-- Each entry of the table can be read, if its key comes behind no entry that shows columns of it. -/
def Scannable (entries : List (Bytes × Data)) (acc : List (Bytes × Row)) : Prop :=
  ∀ before key data after, entries = before ++ (key, data) :: after →
    (tablePrefix tableName).isPrefixOf (lossy key) = true →
    key ∉ (firstHits (rt.shownAs lossy tableName version) before acc).map Prod.fst →
      rt.Readable version data

theorem scannable_cons : Scannable lossy rt tableName version ((key, data) :: entries) acc ↔
    ((tablePrefix tableName).isPrefixOf (lossy key) = true → key ∉ acc.map Prod.fst →
      rt.Readable version data) ∧
    Scannable lossy rt tableName version entries
      (firstHits (rt.shownAs lossy tableName version) [(key, data)] acc) := by
  constructor
  · refine fun h ↦ ⟨fun hbegins hkey ↦ h [] key data entries rfl hbegins hkey,
      fun before k d after heq hbegins hk ↦ h ((key, data) :: before) k d after ?_ hbegins ?_⟩
    · rw [heq, List.cons_append]
    · rwa [← List.singleton_append, firstHits_append]
  · rintro ⟨hfirst, hrest⟩ before k d after heq hbegins hk
    rcases before with - | ⟨x, before⟩
    · cases heq
      exact hfirst hbegins hk
    · cases heq
      rw [← List.singleton_append, firstHits_append] at hk
      exact hrest before k d after rfl hbegins hk

/-- **A scan succeeds exactly if it can read each entry of the table that it does not pass over.** -/
theorem scanEntries_isOk_iff : ∀ {entries : List (Bytes × Data)} {acc : List (Bytes × Row)},
    (∃ found, scanEntries lossy rt tableName version entries acc = .ok found) ↔
      Scannable lossy rt tableName version entries acc
  | [], acc => ⟨fun _ before _ _ _ h ↦ absurd (congrArg List.length h) (by simp), fun _ ↦ ⟨acc, rfl⟩⟩
  | (key, data) :: entries, acc => by
    rw [scannable_cons, ← scanEntries_isOk_iff, scanEntries, firstHits, firstHits]
    by_cases hkey : key ∈ acc.map Prod.fst
    · rw [if_pos (.inl hkey), if_pos hkey]
      exact (and_iff_right fun _ h ↦ absurd hkey h).symm
    rw [if_neg hkey]
    by_cases hbegins : (tablePrefix tableName).isPrefixOf (lossy key) = true
    · rw [if_neg (not_or.2 ⟨hkey, ne_false_of_eq_true hbegins⟩), Runtime.shownAs, if_pos hbegins, firstHits]
      constructor
      · rintro ⟨found, h⟩
        obtain ⟨shown, hread, hrest⟩ := Except.exists_of_bind_eq_ok h
        have hreadable := Runtime.readable_of_read hread
        obtain rfl := Except.ok.inj ((Runtime.read_of_readable hreadable).symm.trans hread)
        exact ⟨fun _ _ ↦ hreadable, found, hrest⟩
      · rintro ⟨hreadable, found, hrest⟩
        exact ⟨found, by rw [Runtime.read_of_readable (hreadable hbegins hkey)]; exact hrest⟩
    · rw [if_pos (.inr (Bool.eq_false_iff.2 hbegins)), Runtime.shownAs, if_neg hbegins, firstHits]
      exact (and_iff_right fun h ↦ absurd h hbegins).symm

/-- A scan that succeeds has shown every key of the table under which there is a record to show. -/
theorem mem_of_scanEntries (h : scanEntries lossy rt tableName version entries [] = .ok found)
    (hmem : (key, data) ∈ entries) (hbegins : (tablePrefix tableName).isPrefixOf (lossy key) = true)
    (hlive : ∃ record, rt.decodeRecord data = .ok record ∧ record.version ≤ version ∧
      record.isDeleted = false) : key ∈ found.map Prod.fst := by
  obtain ⟨before, after, heq⟩ := List.append_of_mem hmem
  obtain rfl := eq_firstHits_of_scanEntries h
  by_contra hkey
  have hnone : firstHit (rt.shownAs lossy tableName version) entries key = none := by
    rcases hhit : firstHit (rt.shownAs lossy tableName version) entries key with - | columns
    · rfl
    · exact absurd (List.mem_map_of_mem (f := Prod.fst) (mem_firstHits.2 hhit)) hkey
  -- the entry is not passed over, since what is shown before it is shown at the end
  have hread : rt.Readable version data := by
    refine scanEntries_isOk_iff.1 ⟨_, h⟩ before key data after heq hbegins fun hbefore ↦ ?_
    obtain ⟨⟨k, columns⟩, hk, rfl⟩ := List.mem_map.1 hbefore
    have hhit := mem_firstHits.1 hk
    rw [heq, firstHit_append, hhit, Option.some_or] at hnone
    cases hnone
  obtain ⟨record, hrecord, hversion, hdeleted⟩ := hlive
  obtain ⟨record', hrecord', hrow⟩ := hread
  obtain rfl := Except.ok.inj (hrecord.symm.trans hrecord')
  obtain ⟨columns, hcolumns⟩ := hrow hversion hdeleted
  have hshown : rt.shownAs lossy tableName version key data = some columns := by
    rw [Runtime.shownAs, if_pos hbegins]
    exact rt.shown_eq_some_iff.2 ⟨record, hrecord, hversion, hdeleted, hcolumns⟩
  rw [firstHit_eq_none_iff.1 hnone data hmem] at hshown
  cases hshown

/-! ### The parts of a scan, entry by entry -/

namespace LossyScan

/-- One entry is shown, or passed over. -/
theorem entry_shows (acc : List (Bytes × Row)) (key : Bytes) (data : Data) :
    entry lossy rt tableName version (.shows lossy rt tableName acc) key data =
      if (tablePrefix tableName).isPrefixOf (lossy key) then
        (rt.read version data).map fun shown ↦ .shows lossy rt tableName (keepHit acc key shown)
      else .ok (.shows lossy rt tableName acc) := by
  unfold entry Runtime.read
  split
  · rcases rt.decodeRecord data with e | record
    · rfl
    · simp only [Except.ok_bind]
      split
      · rcases rt.decodeRow record.value with e | columns
        · rfl
        · exact congrArg Except.ok
            (by simp only [keepHit, Scan.shows, List.map_append, List.map_singleton])
      · rfl
  · rfl

/-- A leaf is scanned entry by entry, if each of its keys has a value. -/
theorem leaf_shows : ∀ {keys : List Bytes} {values : List Data} {acc : List (Bytes × Row)},
    keys.length = values.length →
      leaf lossy rt tableName version keys values (.shows lossy rt tableName acc) =
        (scanEntries lossy rt tableName version (keys.zip values) acc).map
          (.shows lossy rt tableName)
  | [], _, _, _ => rfl
  | key :: keys, [], _, h => nomatch h
  | key :: keys, data :: values, acc, h => by
    have hlen : keys.length = values.length := Nat.succ.inj h
    unfold leaf
    rw [List.zip_cons_cons, scanEntries]
    by_cases hpassed : key ∈ acc.map Prod.fst ∨
        (tablePrefix tableName).isPrefixOf (lossy key) = false
    · rw [if_pos hpassed]
      exact (if_pos hpassed).trans (leaf_shows hlen)
    · have hnot := hpassed
      rw [if_neg hpassed]
      refine (if_neg hpassed).trans ?_
      have hbegins : (tablePrefix tableName).isPrefixOf (lossy key) = true :=
        eq_true_of_ne_false fun hfalse ↦ hnot (.inr hfalse)
      show (entry lossy rt tableName version (.shows lossy rt tableName acc) key data >>= _) = _
      rw [entry_shows, if_pos hbegins]
      rcases rt.read version data with e | shown
      · rfl
      · exact leaf_shows hlen

/-- A leaf that is scanned without an error is scanned entry by entry, whatever values it lacks. -/
theorem leaf_shows_of_ok : ∀ {keys : List Bytes} {values : List Data} {acc : List (Bytes × Row)}
    {scan : Scan},
    leaf lossy rt tableName version keys values (.shows lossy rt tableName acc) = .ok scan →
      ∃ shown, scanEntries lossy rt tableName version (keys.zip values) acc = .ok shown ∧
        scan = .shows lossy rt tableName shown
  | [], _, acc, _, h => ⟨acc, rfl, (Except.ok.inj h).symm⟩
  | key :: keys, values, acc, scan, h => by
    unfold leaf at h
    rcases values with - | ⟨data, values⟩
    · -- without a value left, every key that is left is passed over
      split at h
      · have hrest := leaf_shows_of_ok h
        rwa [List.tail_nil, List.zip_nil_right] at hrest
      · cases h
    rw [List.zip_cons_cons, scanEntries]
    by_cases hpassed : key ∈ acc.map Prod.fst ∨
        (tablePrefix tableName).isPrefixOf (lossy key) = false
    · rw [if_pos hpassed]
      exact leaf_shows_of_ok ((if_pos hpassed).symm.trans h)
    · have hbegins : (tablePrefix tableName).isPrefixOf (lossy key) = true :=
        eq_true_of_ne_false fun hfalse ↦ hpassed (.inr hfalse)
      have hentry : (entry lossy rt tableName version (.shows lossy rt tableName acc) key data >>=
          leaf lossy rt tableName version keys values) = .ok scan := (if_neg hpassed).symm.trans h
      rw [if_neg hpassed]
      rw [entry_shows, if_pos hbegins] at hentry
      rcases hread : rt.read version data with e | shown
      · rw [hread] at hentry
        cases hentry
      · rw [hread] at hentry
        exact leaf_shows_of_ok hentry

/-- The memory tier, whose keys come once, is scanned entry by entry. -/
theorem tier_shows (e : Engine) : tier lossy rt tableName version e =
    (scanEntries lossy rt tableName version (rt.iterate e.btree.memoryTier.cache) []).map
      (.shows lossy rt tableName) := by
  have hfold : ∀ (l : List (Bytes × Data)) (acc : List (Bytes × Row)),
      (l.map Prod.fst).Nodup → (∀ key ∈ l.map Prod.fst, key ∉ acc.map Prod.fst) →
      l.foldlM (fun acc c ↦ entry lossy rt tableName version acc c.1 c.2)
        (.shows lossy rt tableName acc) =
        (scanEntries lossy rt tableName version l acc).map (.shows lossy rt tableName) := by
    intro l
    induction l with
    | nil => exact fun _ _ _ ↦ rfl
    | cons c l ih =>
      intro acc hnodup hfresh
      obtain ⟨hnot, hnodup⟩ := List.nodup_cons.1 hnodup
      have hc : c.1 ∉ acc.map Prod.fst := hfresh c.1 List.mem_cons_self
      have hrest : ∀ key ∈ l.map Prod.fst, key ∉ acc.map Prod.fst := fun key hkey ↦
        hfresh key (List.mem_cons_of_mem _ hkey)
      rw [List.foldlM_cons, entry_shows, scanEntries]
      by_cases hbegins : (tablePrefix tableName).isPrefixOf (lossy c.1) = true
      · rw [if_pos hbegins, if_neg (not_or.2 ⟨hc, ne_false_of_eq_true hbegins⟩)]
        rcases rt.read version c.2 with e | - | columns
        · rfl
        · exact ih acc hnodup hrest
        · refine ih (acc ++ [(c.1, columns)]) hnodup fun key hkey hmem ↦ ?_
          rw [List.map_append, List.mem_append] at hmem
          rcases hmem with hmem | hmem
          · exact hrest key hkey hmem
          · exact hnot (List.mem_singleton.1 hmem ▸ hkey)
      · rw [if_neg hbegins, if_pos (.inr (Bool.eq_false_iff.2 hbegins))]
        exact ih acc hnodup hrest
  exact hfold _ [] (nodup_keys_iterate _) fun _ _ ↦ List.not_mem_nil

end LossyScan

end

/-! ### The scan of a table by the bytes of its keys -/

namespace Engine

variable {rt : Runtime} {e : Engine} {R : Bytes → Data → Prop} {tableName : Bytes} {version : Nat}

/-- A scan of a sound tree goes through its entries one by one. -/
theorem scanTable_eq_scanEntries (he : BPlusTree.Sound R e.btree) :
    e.scanTable rt tableName version =
      (scanEntries id rt tableName version (e.entries rt) []).map (rowsOf rt tableName) := by
  have hleaves : ∀ (pages : List Nat) (acc : List (Bytes × Row)),
      (∀ p ∈ pages, (e.btree.pager.pages p).keys.length = (e.btree.pager.pages p).values.length) →
      pages.foldlM (fun acc p ↦ scanLeaf rt tableName version (e.btree.pager.pages p).keys
          (e.btree.pager.pages p).values acc) (.shows id rt tableName acc) =
        (scanEntries id rt tableName version
          (pages.flatMap fun p ↦ (e.btree.pager.pages p).entries) acc).map (.shows id rt tableName) := by
    intro pages
    induction pages with
    | nil => exact fun _ _ ↦ rfl
    | cons p pages ih =>
      intro acc hlen
      have hleaf : scanLeaf rt tableName version (e.btree.pager.pages p).keys
          (e.btree.pager.pages p).values (.shows id rt tableName acc) =
          (scanEntries id rt tableName version
            ((e.btree.pager.pages p).keys.zip (e.btree.pager.pages p).values) acc).map
            (.shows id rt tableName) :=
        (LossyScan.leaf_eq fun _ _ ↦ rfl).symm.trans
          (LossyScan.leaf_shows (hlen p List.mem_cons_self))
      rw [List.foldlM_cons, hleaf, List.flatMap_cons, scanEntries_append]
      show _ = Except.map _ (scanEntries id rt tableName version
        ((e.btree.pager.pages p).keys.zip (e.btree.pager.pages p).values) acc >>= _)
      rcases scanEntries id rt tableName version
        ((e.btree.pager.pages p).keys.zip (e.btree.pager.pages p).values) acc with err | shown
      · rfl
      · exact ih shown fun q hq ↦ hlen q (List.mem_cons_of_mem p hq)
  have htier : e.scanTier rt tableName version =
      (scanEntries id rt tableName version (rt.iterate e.btree.memoryTier.cache) []).map
        (.shows id rt tableName) :=
    (LossyScan.tier_eq fun _ _ ↦ rfl).symm.trans (LossyScan.tier_shows e)
  have htree : ∀ acc, e.scanTree rt tableName version (.shows id rt tableName acc) =
      (scanEntries id rt tableName version e.btree.leafEntries acc).map (.shows id rt tableName) := by
    intro acc
    rw [scanTree, BPlusTree.scanLeaves_eq_foldlM he]
    exact hleaves _ acc fun p hp ↦ (BPlusTree.leafOk_of_mem_leafPages he p hp).shape.length_eq
  rw [scanTable, htier, entries, scanEntries_append]
  rcases scanEntries id rt tableName version (rt.iterate e.btree.memoryTier.cache) [] with err | acc
  · rfl
  · show (e.scanTree rt tableName version (.shows id rt tableName acc) >>= fun acc ↦ pure acc.rows) =
      Except.map _ (scanEntries id rt tableName version e.btree.leafEntries acc)
    rw [htree]
    rcases scanEntries id rt tableName version e.btree.leafEntries acc with err | shown <;> rfl

/-- **A scan of a sound tree fails exactly on an entry of the table that it does not pass over and cannot
read.** -/
theorem scanTable_isOk_iff (he : BPlusTree.Sound R e.btree) :
    (∃ rows, e.scanTable rt tableName version = .ok rows) ↔
      Scannable id rt tableName version (e.entries rt) [] := by
  rw [scanTable_eq_scanEntries he, ← scanEntries_isOk_iff]
  rcases scanEntries id rt tableName version (e.entries rt) [] with err | shown
  · exact iff_of_false (fun ⟨_, h⟩ ↦ nomatch h) fun ⟨_, h⟩ ↦ nomatch h
  · exact iff_of_true ⟨_, rfl⟩ ⟨_, rfl⟩

end Engine

end KsSql
