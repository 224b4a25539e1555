import KsSql.Parser.PlainRuntime
import KsSql.Parser.Runs

/-!
# A scan against the latest committed state

The purpose of a table, in its own terms: under each key there is the record that was committed last,
and the table's rows are those of the records that are not deleted (`Engine.LiveRow`). A record counts
as committed when a statement outside transactions, or a `COMMIT`, has installed it in the memory
tier.

A scan reads the memory tier and the leaf chain, which lag behind each other. In a run without
evictions the memory tier holds the latest record of every key, so a scan shows every live row, once,
with its columns. A deleted key is not shown from the memory tier, but it is not marked as processed
either: an older copy on the leaf chain that is not deleted is shown in its place. Whether a scan is
exact is therefore decided by the leaf chain (`scan_exact_iff`), and `resurrected` is a run in which
it is not.
-/

namespace KsSql

open Engine

/-- Whether the bytes are the record of a row. -/
def Data.isRow : Data → Bool
  | .record ⟨.row _, _, _, _⟩ => true
  | _ => false

/-- Whether the bytes are a record that is marked as deleted. -/
def Data.isDeleted : Data → Bool
  | .record r => r.isDeleted
  | .raw _ => false

namespace Engine

variable {rt : Runtime} {e : Engine} {t key : Bytes} {columns : Row}

/-- The latest committed record under a key of the table is a row that is not deleted. -/
def LiveRow (e : Engine) (t key : Bytes) (columns : Row) : Prop :=
  (tablePrefix t).isPrefixOf key = true ∧
    ∃ r, e.lastInstalled key = some (.record r) ∧ r.isDeleted = false ∧ r.value = .row columns

/-- A scan of the table at the current version returns exactly one row for each live row. -/
def ScanExact (rt : Runtime) (e : Engine) (t : Bytes) : Prop :=
  ∃ live : List (Bytes × Row), e.scanTable rt t e.currentVersion = .ok (rowsOf rt t live) ∧
    (live.map Prod.fst).Nodup ∧ ∀ key columns, (key, columns) ∈ live ↔ e.LiveRow t key columns

/-- What is stored under the keys of the table are rows. Only index entries are not, and their keys
are those of a table named `idx`. -/
def RowsOnly (rt : Runtime) (e : Engine) (t : Bytes) : Prop :=
  ∀ x ∈ e.entries rt, (tablePrefix t).isPrefixOf x.1 = true → x.2.isRow = true

instance : Decidable (e.RowsOnly rt t) := inferInstanceAs (Decidable (∀ x ∈ _, _ → _))

/-- No record on the leaf chain that is not deleted lies under a key of the table that was deleted
since. -/
def NoneResurrected (e : Engine) (t : Bytes) : Prop :=
  ∀ x ∈ e.btree.leafEntries, (tablePrefix t).isPrefixOf x.1 = true → x.2.isDeleted = false →
    ∀ data ∈ e.lastInstalled x.1, data.isDeleted = false

instance : Decidable (e.NoneResurrected t) := inferInstanceAs (Decidable (∀ x ∈ _, _ → _ → _))

/-! ### What the entries of a table show -/

theorem exists_row_of_isRow {data : Data} (h : data.isRow = true) :
    ∃ r columns, data = .record r ∧ r.value = .row columns := by
  unfold Data.isRow at h
  split at h
  · exact ⟨_, _, rfl, rfl⟩
  · cases h

theorem readable_of_isRow {data : Data} {version : Nat} (h : data.isRow = true) :
    rt.Readable version data := by
  obtain ⟨r, columns, rfl, hvalue⟩ := exists_row_of_isRow h
  exact ⟨r, rfl, fun _ _ ↦ ⟨columns, by rw [hvalue]; rfl⟩⟩

variable {N : Bytes → Prop}

/-- The bytes that were installed last are in the memory tier, so long as nothing was evicted. -/
theorem Coherent.mem_entries_of_lastInstalled (h : e.Coherent rt N)
    (hev : e.history.evictions = 0) {data : Data} (hdata : e.lastInstalled key = some data) :
    (key, data) ∈ e.entries rt :=
  List.mem_append_left _ (mem_iterate_iff.2 ((h.full hev key).trans hdata))

/-- The latest record under a key of the table, if there is one, holds a row and is not newer than
the current version. -/
theorem exists_row_of_lastInstalled (h : e.Coherent rt N) (hev : e.history.evictions = 0)
    (hrows : e.RowsOnly rt t) (hkey : (tablePrefix t).isPrefixOf key = true) {data : Data}
    (hdata : e.lastInstalled key = some data) :
    ∃ r columns, data = .record r ∧ r.value = .row columns ∧ r.version ≤ e.currentVersion := by
  obtain ⟨r, columns, rfl, hvalue⟩ := exists_row_of_isRow
    (hrows _ (h.mem_entries_of_lastInstalled hev hdata) hkey)
  obtain ⟨w, hw, -, hwd⟩ := mem_installs_of_lastInstalled hdata
  exact ⟨r, columns, rfl, hvalue, (h.legit w hw).1 r hwd⟩

/-- A row on the leaf chain was installed in the memory tier. -/
theorem exists_lastInstalled_of_leaf (h : e.Coherent rt N) (hrows : e.RowsOnly rt t)
    {x : Bytes × Data} (hx : x ∈ e.btree.leafEntries)
    (hkey : (tablePrefix t).isPrefixOf x.1 = true) : ∃ data, e.lastInstalled x.1 = some data := by
  have hmem : x ∈ e.entries rt := List.mem_append_right _ hx
  rcases h.known_of_entries hmem with ⟨w, hw, heq, -⟩ | ⟨-, hkey' | ⟨target, hraw, -⟩⟩
  · rw [← heq]
    exact exists_lastInstalled hw
  · -- the key of the catalogue has no colon in it
    rw [hkey', List.isPrefixOf_iff_prefix] at hkey
    have hcolon : (58 : UInt8) ∈ schemasKey :=
      hkey.subset (List.mem_append_right _ (by decide))
    exact absurd hcolon (by decide)
  · have hrow := hrows x hmem hkey
    rw [hraw] at hrow
    cases hrow

/-! ### The views of a table's keys -/

/-- Every live row is shown. -/
theorem view_of_liveRow (h : e.Coherent rt N) (hev : e.history.evictions = 0)
    (hrows : e.RowsOnly rt t) (hlive : e.LiveRow t key columns) :
    e.view rt t e.currentVersion key = some columns := by
  obtain ⟨hkey, r, hr, hdeleted, hvalue⟩ := hlive
  obtain ⟨r', columns', heq, -, hversion⟩ := exists_row_of_lastInstalled h hev hrows hkey hr
  cases heq
  rw [view_eq, h.full hev key, hr, Option.bind_some, rt.shownUnder_row hkey hvalue,
    if_pos ⟨hversion, hdeleted⟩, Option.some_or]

/-- What is shown under a key is its live row, or was shown by the leaf chain though the key is
deleted. -/
theorem liveRow_or_resurrected_of_view (h : e.Coherent rt N) (hev : e.history.evictions = 0)
    (hrows : e.RowsOnly rt t) (hview : e.view rt t e.currentVersion key = some columns) :
    e.LiveRow t key columns ∨ ∃ data, (key, data) ∈ e.btree.leafEntries ∧
      (tablePrefix t).isPrefixOf key = true ∧ data.isDeleted = false ∧
        ∃ last ∈ e.lastInstalled key, last.isDeleted = true := by
  obtain ⟨data, hdata, hshown⟩ := exists_mem_of_firstHit hview
  have hkey : (tablePrefix t).isPrefixOf key = true := by
    by_contra hkey
    rw [Runtime.shownUnder, if_neg hkey] at hshown
    cases hshown
  obtain ⟨r, columns', rfl, hvalue⟩ := exists_row_of_isRow (hrows _ hdata hkey)
  rw [rt.shownUnder_row hkey hvalue] at hshown
  split at hshown
  · rename_i hcond
    cases hshown
    rcases List.mem_append.1 hdata with htier | hleaf
    · rw [mem_iterate_iff] at htier
      exact Or.inl ⟨hkey, r, (h.full hev key).symm.trans htier, hcond.2, hvalue⟩
    · obtain ⟨last, hlast⟩ := exists_lastInstalled_of_leaf h hrows hleaf hkey
      obtain ⟨r', columns', rfl, hvalue', hversion'⟩ :=
        exists_row_of_lastInstalled h hev hrows hkey hlast
      by_cases hdeleted : r'.isDeleted = true
      · exact Or.inr ⟨.record r, hleaf, hkey, hcond.2, .record r', hlast, hdeleted⟩
      · have hlive : e.LiveRow t key columns' :=
          ⟨hkey, r', hlast, Bool.eq_false_iff.2 hdeleted, hvalue'⟩
        rw [view_of_liveRow h hev hrows hlive] at hview
        cases hview
        exact Or.inl hlive
  · cases hshown

/-- What the leaf chain holds of a deleted key, and is not deleted, is shown. -/
theorem view_of_resurrected (h : e.Coherent rt N) (hrows : e.RowsOnly rt t) {data : Data}
    (hleaf : (key, data) ∈ e.btree.leafEntries)
    (hkey : (tablePrefix t).isPrefixOf key = true) (hdeleted : data.isDeleted = false) :
    ∃ columns, e.view rt t e.currentVersion key = some columns := by
  have hmem : (key, data) ∈ e.entries rt := List.mem_append_right _ hleaf
  obtain ⟨r, columns, rfl, hvalue⟩ := exists_row_of_isRow (hrows _ hmem hkey)
  have hversion : r.version ≤ e.currentVersion :=
    (h.legit_of_known (h.known_of_entries hmem)).1 r rfl
  rcases hview : e.view rt t e.currentVersion key with - | columns'
  · have hnone := firstHit_eq_none_iff.1 hview _ hmem
    rw [rt.shownUnder_row hkey hvalue, if_pos ⟨hversion, hdeleted⟩] at hnone
    cases hnone
  · exact ⟨columns', rfl⟩

end Engine

/-- **When a scan is exact.** In every state that a run reaches without evictions: a scan of a table
of rows returns exactly one row for each key whose latest committed record is not deleted, with that
record's columns, if and only if no deleted key has a record on the leaf chain that is not deleted. -/
theorem scan_exact_iff [Bincode (WalEntry Bytes Data)] {rt : Runtime} {actions : List Action}
    {s : System} (hrun : System.start.run rt actions = some s) (hbounded : s.engine.Bounded)
    (hevictions : s.engine.history.evictions = 0) {t : Bytes} (hrows : s.engine.RowsOnly rt t) :
    s.engine.ScanExact rt t ↔ s.engine.NoneResurrected t := by
  have h := System.coherent_of_run hrun hbounded
  have hok : s.engine.scanTable rt t s.engine.currentVersion = _ := scanTable_ok h.sound
    fun x hx hkey ↦ readable_of_isRow (hrows x hx hkey)
  have hnodup : ((s.engine.scanned rt t s.engine.currentVersion).map Prod.fst).Nodup :=
    nodup_firstHits _ _ List.nodup_nil
  constructor
  · rintro ⟨live, hlive, hlivenodup, hmem⟩ x hx hkey hdeleted data hdata
    by_contra hlast
    -- all live keys are shown; a resurrected one on top would make the rows too many
    have hsub : live.map Prod.fst ⊆
        (s.engine.scanned rt t s.engine.currentVersion).map Prod.fst := by
      intro key hkeymem
      obtain ⟨⟨key, columns⟩, hc, rfl⟩ := List.mem_map.1 hkeymem
      exact List.mem_map_of_mem (mem_scanned.2
        (view_of_liveRow h hevictions hrows ((hmem _ _).1 hc)))
    have hlen : (live.map Prod.fst).length =
        ((s.engine.scanned rt t s.engine.currentVersion).map Prod.fst).length := by
      have hsame := Except.ok.inj (hlive.symm.trans hok)
      simpa only [rowsOf, List.length_map] using congrArg List.length hsame
    obtain ⟨columns, hview⟩ := view_of_resurrected h hrows hx hkey hdeleted
    have hshown : x.1 ∈ (s.engine.scanned rt t s.engine.currentVersion).map Prod.fst :=
      List.mem_map_of_mem (mem_scanned.2 hview)
    rw [← ((hlivenodup.subperm hsub).perm_of_length_le hlen.ge).mem_iff] at hshown
    obtain ⟨⟨key, columns⟩, hc, heq⟩ := List.mem_map.1 hshown
    obtain ⟨-, r, hr, hr', -⟩ := (hmem _ _).1 hc
    rw [show key = x.1 from heq, Option.mem_def.1 hdata] at hr
    cases hr
    exact hlast hr'
  · intro hnone
    refine ⟨_, hok, hnodup, fun key columns ↦ mem_scanned.trans ⟨fun hview ↦ ?_,
      view_of_liveRow h hevictions hrows⟩⟩
    rcases liveRow_or_resurrected_of_view h hevictions hrows hview with hlive |
      ⟨data, hleaf, hkey, hdeleted, last, hlast, hlast'⟩
    · exact hlive
    · rw [hnone _ hleaf hkey hdeleted last hlast] at hlast'
      cases hlast'

/-- A row is inserted and reaches the tree through the drain thread. -/
def insertDrained : List Action :=
  [.call 1 (createTableOf "u" ["id"]), .call 1 (insertOf "u" ["2"]), .drainPop, .drainPop,
    .flushRound, .drainStart, .drainApply, .drainApply, .drainApply]

/-- After an update that has not reached the tree, a scan is exact. -/
theorem scan_exact_after_update : let _ := plainBincode []
    ∃ s, System.start.run .plain (insertDrained ++ [.call 1 (updateOf "u" "id" "3" none)]) = some s ∧
      s.engine.ScanExact .plain (bytes "u") := by
  let _ := plainBincode []
  obtain ⟨s, hs⟩ : ∃ s, System.start.run .plain
      (insertDrained ++ [.call 1 (updateOf "u" "id" "3" none)]) = some s :=
    Option.isSome_iff_exists.1 (by decide +kernel)
  have hall : (System.start.run .plain
      (insertDrained ++ [.call 1 (updateOf "u" "id" "3" none)])).all (fun s ↦
        s.engine.btree.pager.handedOut.length < 2 ^ 32 ∧ s.engine.history.bumps < 2 ^ 64 ∧
          s.engine.history.evictions = 0 ∧ s.engine.RowsOnly .plain (bytes "u") ∧
          s.engine.NoneResurrected (bytes "u")) = true := by decide +kernel
  rw [hs, Option.all_some, decide_eq_true_iff] at hall
  obtain ⟨hpages, hbumps, hevictions, hrows, hnone⟩ := hall
  exact ⟨s, hs, (scan_exact_iff hs ⟨hpages, hbumps⟩ hevictions hrows).2 hnone⟩

/-! ### A deleted row that comes back -/

/-- A row that reached the tree is deleted, and the deletion goes to the log. -/
def resurrection : List Action :=
  insertDrained ++ [.call 1 (deleteOf "u" none), .flushRound, .flushRound, .flushRound]

/-- **A deleted row comes back.** The scan is not exact in every state that is reached without
evictions: after `resurrection` it returns the row that was deleted. -/
theorem not_scan_exact_resurrection : ¬ ∀ (_ : Bincode (WalEntry Bytes Data)) (rt : Runtime)
    (actions : List Action) (s : System), System.start.run rt actions = some s →
      s.engine.Bounded → s.engine.history.evictions = 0 → ∀ t, s.engine.RowsOnly rt t →
        s.engine.ScanExact rt t := by
  intro h
  let _ := plainBincode []
  obtain ⟨s, hs⟩ : ∃ s, System.start.run .plain resurrection = some s :=
    Option.isSome_iff_exists.1 (by decide +kernel)
  have hall : (System.start.run .plain resurrection).all (fun s ↦
      s.engine.btree.pager.handedOut.length < 2 ^ 32 ∧ s.engine.history.bumps < 2 ^ 64 ∧
        s.engine.history.evictions = 0 ∧ s.engine.RowsOnly .plain (bytes "u") ∧
        (s.engine.scanTable .plain (bytes "u") s.engine.currentVersion).toOption.map List.length =
          some 1 ∧
        ∀ w ∈ s.engine.history.installs, ∀ data ∈ s.engine.lastInstalled w.key,
          data.isDeleted = true) = true := by decide +kernel
  rw [hs, Option.all_some, decide_eq_true_iff] at hall
  obtain ⟨hpages, hbumps, hevictions, hrows, hlength, hdeleted⟩ := hall
  obtain ⟨live, hscan, -, hlive⟩ := h _ .plain resurrection s hs ⟨hpages, hbumps⟩ hevictions _ hrows
  -- the scan returns a row, though nothing that was installed last is alive
  rw [hscan] at hlength
  rcases live with - | ⟨⟨key, columns⟩, live⟩
  · cases hlength
  · obtain ⟨-, r, hr, hr', -⟩ := (hlive key columns).1 List.mem_cons_self
    obtain ⟨w, hw, rfl, -⟩ := mem_installs_of_lastInstalled hr
    have hcontra := hdeleted w hw (.record r) hr
    rw [show Data.isDeleted (.record r) = r.isDeleted from rfl, hr'] at hcontra
    cases hcontra

end KsSql
