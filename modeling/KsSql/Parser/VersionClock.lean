import KsSql.Parser.PlainRuntime
import KsSql.Parser.Stores

/-!
# The version clock

A record is installed in the memory tier with the version at which the counter stands then, so the
versions of the installed records only go up, and the memory tier holds what was installed last under
a key. Every other copy of a row's record, in the queue, with the drain thread, in the log or in a page,
is a copy of something that was installed. So no copy is newer than the counter, and none is newer than
the memory tier's (`versions_of_run`).

The counter is a 64-bit number. Where it wraps around, all stored records are newer than it
(`not_versions_wrapped`).
-/

namespace KsSql

open BPlusTree

namespace Engine

variable {rt : Runtime} {N : Bytes → Prop} {command : Command} {conn : Nat} {e e' : Engine}

/-- Every binding in a page and in an entry of the log has its origin, and the memory tier holds what
was installed last. -/
structure Sourced (e : Engine) : Prop where
  tier : ∀ key data, e.btree.memoryTier.get key = some data → e.lastInstalled key = some data
  stores : e.Stores e.Origin

/-- The versions installed go up to the counter. -/
structure Clocked (e : Engine) : Prop where
  version_eq : e.currentVersion = e.history.bumps
  installed : ∀ w ∈ e.history.installs, ∀ r, w.data = .record r → r.version ≤ e.currentVersion
  ordered : e.history.installs.Pairwise fun w w' ↦
    ∀ r r', w.data = .record r → w'.data = .record r' → r.version ≤ r'.version

/-! ### Each change keeps the origins -/

theorem Sourced.congr (h : e.Sourced) (hinstalls : e'.history.installs = e.history.installs)
    (hbtree : e'.btree = e.btree) : e'.Sourced where
  tier key data := by
    rw [lastInstalled, hinstalls, hbtree]
    exact h.tier key data
  stores := h.stores.congr (hbtree ▸ rfl) (hbtree ▸ rfl) fun _ _ ho ↦
    ho.mono (hinstalls ▸ List.Subset.refl _)

theorem Sourced.install (h : e.Sourced) (w : Install) : (e.install rt w).Sourced where
  tier k d hd := by
    rw [lastInstalled_install]
    rcases MemoryTier.get_insert_cases hd with ⟨rfl, rfl⟩ | ⟨hne, hd⟩
    · rw [if_pos rfl]
    · rw [if_neg hne]
      exact h.tier k d hd
  stores := h.stores.congr rfl rfl fun _ _ ho ↦ ho.mono (List.subset_append_left _ _)

theorem Sourced.insertTree (h : e.Sourced) {key : Bytes} {data : Data} (ho : e.Origin key data) :
    ({ e with btree := (e.btree.insert rt.search key data).2 } : Engine).Sourced where
  tier k d hd := h.tier k d (by rwa [(insert_frame rt.search e.btree key data).memoryTier] at hd)
  stores := h.stores.insertTree ho

theorem Primitive.sourced (h : Primitive rt N command conn e e') (he : e.Sourced) : e'.Sourced := by
  cases h with
  | insertRow t source columns timestamp =>
    have hdraw : (e.draw conn (nextKey rt e t)).Sourced := he.congr rfl rfl
    exact hdraw.install _
  | change key r =>
    have hbump : e.bump.Sourced := he.congr rfl rfl
    exact hbump.install _
  | commitKey key r => exact he.install _
  | index key target => exact he.install _
  | push key data _ _ ho => exact ⟨he.tier, he.stores.pushed ho⟩
  | storeSchemas tables timestamp => exact he.insertTree (Or.inr (Or.inl rfl))
  | _ => exact he.congr rfl rfl

theorem Progress.sourced (h : Progress rt N command conn e e') (he : e.Sourced) : e'.Sourced := by
  induction h with
  | refl => exact he
  | tail _ hstep ih => exact hstep.sourced ih

theorem sourced_empty : Engine.empty.Sourced where
  tier key data h := by
    rw [show Engine.empty.btree.memoryTier.get key = none from MemoryTier.get_new 1024 key] at h
    cases h
  stores := stores_empty

/-! ### Each change keeps the versions in order -/

theorem Clocked.congr (h : e.Clocked) (hversion : e'.currentVersion = e.currentVersion)
    (hbumps : e'.history.bumps = e.history.bumps)
    (hinstalls : e'.history.installs = e.history.installs) : e'.Clocked := by
  constructor
  · rw [hversion, hbumps]
    exact h.version_eq
  · rw [hversion, hinstalls]
    exact h.installed
  · rw [hinstalls]
    exact h.ordered

theorem Clocked.bump (h : e.Clocked) (hb : e.bump.history.bumps < 2 ^ 64) : e.bump.Clocked := by
  have hversion : e.bump.currentVersion = e.currentVersion + 1 := by
    refine Nat.mod_eq_of_lt ?_
    rw [h.version_eq]
    exact hb
  refine ⟨?_, fun w hw r hr ↦ ?_, h.ordered⟩
  · rw [hversion, h.version_eq]
    rfl
  · rw [hversion]
    exact (h.installed w hw r hr).trans (Nat.le_succ _)

/-- A record is installed at the version of the counter. -/
theorem Clocked.install (h : e.Clocked) {w : Install}
    (hw : ∀ r, w.data = .record r → r.version = e.currentVersion) : (e.install rt w).Clocked where
  version_eq := h.version_eq
  installed w' hw' r hr := by
    rcases List.mem_append.1 hw' with hw' | hw'
    · exact h.installed w' hw' r hr
    · rw [List.mem_singleton.1 hw'] at hr
      exact (hw r hr).le
  ordered := by
    refine List.pairwise_append.2 ⟨h.ordered, List.pairwise_singleton _ _, ?_⟩
    intro w₁ hw₁ w₂ hw₂ r₁ r₂ hr₁ hr₂
    rw [List.mem_singleton.1 hw₂] at hr₂
    rw [hw r₂ hr₂]
    exact h.installed w₁ hw₁ r₁ hr₁

theorem Primitive.clocked (h : Primitive rt N command conn e e')
    (hb : e'.history.bumps < 2 ^ 64) (he : e.Clocked) : e'.Clocked := by
  cases h with
  | insertRow t source columns timestamp =>
    have hdraw : (e.draw conn (nextKey rt e t)).Clocked := he.congr rfl rfl rfl
    refine hdraw.install fun r hr ↦ ?_
    cases hr
    rfl
  | change key r =>
    refine (he.bump hb).install fun r' hr' ↦ ?_
    cases hr'
    rfl
  | commitKey key r =>
    refine he.install fun r' hr' ↦ ?_
    cases hr'
    rfl
  | index key target => exact he.install fun r hr ↦ nomatch hr
  | bump => exact he.bump hb
  | _ => exact he.congr rfl rfl rfl

theorem Progress.clocked (h : Progress rt N command conn e e') (he : e.Clocked)
    (hb : e'.history.bumps < 2 ^ 64) : e'.Clocked := by
  induction h with
  | refl => exact he
  | tail _ hstep ih => exact hstep.clocked hb (ih (hstep.grows.bumps.trans_lt hb))

theorem clocked_empty : Engine.empty.Clocked := ⟨rfl, fun _ hw ↦ (nomatch hw), List.Pairwise.nil⟩

/-- What was installed last is the newest. -/
theorem Clocked.le_lastInstalled (h : e.Clocked) {w : Install} (hw : w ∈ e.history.installs)
    {r r' : Record} (hr : w.data = .record r) (hlast : e.lastInstalled w.key = some (.record r')) :
    r.version ≤ r'.version := by
  have hpairs : (e.history.installs.map fun w ↦ (w.key, w.data)).Pairwise fun x x' ↦
      ∀ r r', x.2 = .record r → x'.2 = .record r' → r.version ≤ r'.version :=
    List.pairwise_map.2 h.ordered
  have hmem := List.mem_map_of_mem (f := fun w : Install ↦ (w.key, w.data)) hw
  rcases rel_lastInserted hpairs hmem hlast with heq | hle
  · rw [hr] at heq
    cases heq
    exact le_rfl
  · exact hle r r' hr rfl

end Engine

namespace System

open Engine

variable {rt : Runtime} {s s' : System}

/-- What holds of the versions in every state of a run. -/
structure VersionInv (rt : Runtime) (s : System) : Prop where
  inv : s.Inv rt fun _ ↦ True
  sourced : s.engine.Sourced
  drained : s.drain.entries ⊆ s.engine.btree.wal.enqueued
  clocked : s.engine.history.bumps < 2 ^ 64 → s.engine.Clocked

theorem sourced_withWal {wal : Wal Bytes Data} (h : s.engine.Sourced)
    (hwal : s.engine.btree.wal.Consumes wal)
    (hlogged : wal.logged ⊆ s.engine.btree.wal.logged ++ s.engine.btree.wal.queue) :
    (s.withWal wal).engine.Sourced := ⟨h.tier, stores_withWal h.stores hwal hlogged⟩

theorem sourced_withTier {tier : MemoryTier Bytes Data} (h : s.engine.Sourced)
    (htier : ∀ k d, tier.get k = some d → s.engine.btree.memoryTier.get k = some d) :
    (s.withTier tier).engine.Sourced :=
  ⟨fun k d hd ↦ h.tier k d (htier k d hd), h.stores.congr rfl rfl fun _ _ ↦ id⟩

theorem sourced_applyEntry {e : Engine} {entry : WalEntry Bytes Data} (h : e.Sourced)
    (hentry : entry ∈ e.btree.wal.enqueued) : (applyEntry rt e entry).Sourced := by
  cases entry with
  | recordUpdate key data => exact h.insertTree (h.stores.enqueued _ hentry)
  | _ => exact h

theorem clocked_applyEntry {e : Engine} {entry : WalEntry Bytes Data} (h : e.Clocked) :
    (applyEntry rt e entry).Clocked := by
  cases entry with
  | recordUpdate key data => exact h.congr rfl rfl rfl
  | _ => exact h

variable [Bincode (WalEntry Bytes Data)]

theorem VersionInv.step {a : Action} (h : s.VersionInv rt) (hstep : s.step rt a = some s') :
    s'.VersionInv rt := by
  have hparts := step_parts
    (J := fun e ↦ e.Sourced ∧ (e.history.bumps < 2 ^ 64 → e.Clocked)) (fun conn command ↦ ?_)
    (fun wal hwal hlogged ↦ ⟨sourced_withWal h.sourced hwal hlogged,
      fun hb ↦ (h.clocked hb).congr rfl rfl rfl⟩)
    (fun tier htier ↦ ⟨sourced_withTier h.sourced htier,
      fun hb ↦ (h.clocked hb).congr rfl rfl rfl⟩)
    (fun entry hentry ↦ ⟨sourced_applyEntry h.sourced hentry,
      fun hb ↦ clocked_applyEntry (h.clocked ?_)⟩)
    h.sourced.stores.queue ⟨h.sourced, h.clocked⟩ h.drained hstep
  · exact ⟨(step_inv a.columnsIn_true h.inv hstep).1, hparts.1.1, hparts.2, hparts.1.2⟩
  · have hprog : Progress rt (fun _ ↦ True) command conn s.engine _ :=
      progress_execute h.inv.engine command.columnsIn_true
    exact ⟨⟨hprog.sourced h.sourced, fun hb ↦
      hprog.clocked (h.clocked (hprog.grows.bumps.trans_lt hb)) hb⟩, hprog.grows.enqueued.subset⟩
  · have hgrows : Grows s.engine (applyEntry rt s.engine entry) := grows_applyEntry s.engine entry
    exact hgrows.bumps.trans_lt hb

theorem versionInv_of_run {actions : List Action} (hrun : start.run rt actions = some s) :
    s.VersionInv rt :=
  run_invariant (I := fun s ↦ s.VersionInv rt) (P := fun _ ↦ True)
    (fun _ _ _ _ h hstep ↦ h.step hstep) (fun _ _ ↦ trivial)
    ⟨inv_start, sourced_empty, fun _ hx ↦ (nomatch hx), fun _ ↦ clocked_empty⟩ hrun

/-! ### Copies of a row's record -/

/-- A copy of the record of a row: in the memory tier, or in an entry in the queue, with the drain
thread or in the log, as an update or in the image of a page, or in a page of the tree. -/
inductive Copy (s : System) (key : Bytes) (r : Record) : Prop
  | tier : s.engine.btree.memoryTier.get key = some (.record r) → Copy s key r
  | update : .recordUpdate key (.record r) ∈
      s.engine.btree.wal.queue ++ s.drain.entries ++ s.engine.btree.wal.logged → Copy s key r
  | image (q : Nat) (n : Node Bytes Data) : .pageUpdate q n ∈
      s.engine.btree.wal.queue ++ s.drain.entries ++ s.engine.btree.wal.logged →
      (key, .record r) ∈ n.entries → Copy s key r
  | page (q : Nat) : (key, .record r) ∈ (s.engine.btree.pager.pages q).entries → Copy s key r

/-- No copy of a row's record is newer than the version counter, and none is newer than the copy in the
memory tier. -/
def VersionsOk (s : System) : Prop :=
  ∀ t id r, s.Copy (rowKey t id) r → r.version ≤ s.engine.currentVersion ∧
    ∀ r', s.engine.btree.memoryTier.get (rowKey t id) = some (.record r') → r.version ≤ r'.version

omit [Bincode (WalEntry Bytes Data)] in
/-- Every copy is one of something that was installed. -/
theorem VersionInv.exists_install (h : s.VersionInv rt) {t : Bytes} {id : UInt64} {r : Record}
    (hcopy : s.Copy (rowKey t id) r) :
    ∃ w ∈ s.engine.history.installs, w.key = rowKey t id ∧ w.data = .record r := by
  have hentry : ∀ x ∈ s.engine.btree.wal.queue ++ s.drain.entries ++ s.engine.btree.wal.logged,
      EntryOk s.engine.Origin x := fun x hx ↦
    h.sourced.stores.enqueued x (List.append_subset.2
      ⟨List.append_subset.2 ⟨h.sourced.stores.queue, h.drained⟩, h.sourced.stores.logged⟩ hx)
  have horigin : s.engine.Origin (rowKey t id) (.record r) := by
    cases hcopy with
    | tier htier => exact Or.inl (mem_installs_of_lastInstalled (h.sourced.tier _ _ htier))
    | update hmem => exact hentry _ hmem
    | image q n hmem hn => exact Contents.rel (hentry _ hmem) _ hn
    | page q hq => exact (h.sourced.stores.pages q).rel _ hq
  rcases horigin with hw | hkey | ⟨target, heq⟩
  · exact hw
  · exact absurd hkey (rowKey_ne_schemasKey t id)
  · cases heq

/-- **The version clock.** In every state of a run with fewer than 2^64 increments of the counter, no
copy of a row's record is newer than the counter or than the copy in the memory tier. -/
theorem versions_of_run {actions : List Action} (hrun : start.run rt actions = some s)
    (hb : s.engine.history.bumps < 2 ^ 64) : s.VersionsOk := by
  have h := versionInv_of_run hrun
  intro t id r hcopy
  obtain ⟨w, hw, hkey, hdata⟩ := h.exists_install hcopy
  refine ⟨(h.clocked hb).installed w hw r hdata, fun r' htier ↦ ?_⟩
  exact (h.clocked hb).le_lastInstalled hw hdata (hkey ▸ h.sourced.tier _ _ htier)

end System

/-! ### Runs to look at -/

namespace System

open Engine

/-- A row is inserted and reaches the tree; then it is updated, while the tree keeps the older copy. -/
def updatedAfterDrain : List Action :=
  [.call 1 (createTableOf "u" ["id"]), .call 1 (insertOf "u" ["2"]), .drainPop, .drainPop, .flushRound,
    .drainStart, .drainApply, .drainApply, .drainApply, .call 1 (updateOf "u" "id" "3" none)]

/-- The memory tier's copy is newer than the tree's. -/
theorem versions_of_run_update : let _ := plainBincode []
    ∃ s, start.run .plain updatedAfterDrain = some s ∧ s.VersionsOk ∧
      ∃ r r', s.Copy (rowKey (bytes "u") 0) r ∧
        s.engine.btree.memoryTier.get (rowKey (bytes "u") 0) = some (.record r') ∧
          r.version < r'.version := by
  let _ := plainBincode []
  have hany : (start.run .plain updatedAfterDrain).any (fun s ↦
      (s.engine.btree.memoryTier.get (rowKey (bytes "u") 0)).any fun data' ↦ data'.record?.any fun r' ↦
        (s.engine.btree.pager.pages 0).entries[1]?.any fun x ↦ x.2.record?.any fun r ↦
          s.engine.history.bumps < 2 ^ 64 ∧ x.1 = rowKey (bytes "u") 0 ∧ r.version < r'.version) =
      true := by decide +kernel
  obtain ⟨s, hs, hany⟩ := (Option.any_eq_true _ _).1 hany
  obtain ⟨data', htier, hany⟩ := (Option.any_eq_true _ _).1 hany
  obtain ⟨r', hr', hany⟩ := (Option.any_eq_true _ _).1 hany
  obtain ⟨⟨key, data⟩, hpage, hany⟩ := (Option.any_eq_true _ _).1 hany
  obtain ⟨r, hr, hversions⟩ := (Option.any_eq_true _ _).1 hany
  obtain ⟨hb, rfl, hlt⟩ := of_decide_eq_true hversions
  obtain rfl := Data.record?_eq_some.1 hr'
  obtain rfl := Data.record?_eq_some.1 hr
  exact ⟨s, hs, versions_of_run hs hb, r, r', .page 0 (List.mem_of_getElem? hpage), htier, hlt⟩

/-! ### The counter wraps around -/

section Wrap

variable {rt : Runtime} [Bincode (WalEntry Bytes Data)]

/-- A transaction without writes. -/
def emptyTransaction : List Action := [.call 1 .begin, .call 1 .commit]

/-- A transaction without writes increments the counter, and does nothing else that matters here. -/
theorem run_emptyTransaction {s : System} (hphase : s.phase = .idle)
    (hqueue : s.engine.btree.wal.queue = []) :
    ∃ s', s.run rt emptyTransaction = some s' ∧ s'.phase = .idle ∧
      s'.engine.btree = s.engine.btree ∧
      s'.engine.currentVersion = (s.engine.currentVersion + 1) % 2 ^ 64 := by
  have hiterate : rt.iterate (∅ : HashMap Bytes Data) = [] :=
    List.Perm.eq_nil (rt.iterate_perm ∅)
  have hbegin : s.step rt (.call 1 .begin) =
      some { s with engine := s.engine.opened 1, phase := .idle } := by
    rw [step, hphase]
    rfl
  have hactive : (s.engine.opened 1).activeTransactions.lookup 1 =
      some ⟨s.engine.currentVersion, ∅, s.engine.history.installs.length⟩ := AList.lookup_insert _
  have hcommit : execute rt .commit 1 (s.engine.opened 1) =
      (.ok { output := bytes "Transaction committed", flush := true },
        ((s.engine.opened 1).closed 1).bump) := by
    simp only [execute, commit, bind, Effect.bind, Effect.get, hactive, Effect.modify, hiterate,
      List.map_nil, Effect.forEach, Effect.fold, pure, Effect.pure]
    rfl
  have hflush : s.engine.btree.wal.startFlush = none := by
    rw [Wal.startFlush, hqueue]
    rfl
  have hend : ({ s with engine := s.engine.opened 1, phase := .idle } : System).step rt
      (.call 1 .commit) =
        some { s with engine := ((s.engine.opened 1).closed 1).bump, phase := .idle } := by
    rw [step, System.call, hcommit]
    show some { s with engine := _, phase := phaseAfter s.engine.btree.wal _ } = _
    rw [phaseAfter, hflush]
    rfl
  refine ⟨{ s with engine := ((s.engine.opened 1).closed 1).bump, phase := .idle }, ?_, rfl, rfl, rfl⟩
  rw [emptyTransaction, run, hbegin, Option.bind_some, run, hend, Option.bind_some, run]

/-- Many transactions without writes. -/
theorem run_emptyTransactions (n : Nat) {s : System} (hphase : s.phase = .idle)
    (hqueue : s.engine.btree.wal.queue = []) (hversion : s.engine.currentVersion < 2 ^ 64) :
    ∃ s', s.run rt (List.replicate n emptyTransaction).flatten = some s' ∧
      s'.engine.btree = s.engine.btree ∧
      s'.engine.currentVersion = (s.engine.currentVersion + n) % 2 ^ 64 := by
  induction n generalizing s with
  | zero => exact ⟨s, rfl, rfl, (Nat.mod_eq_of_lt hversion).symm⟩
  | succ n ih =>
    obtain ⟨s₁, hrun₁, hphase₁, hbtree₁, hversion₁⟩ := run_emptyTransaction hphase hqueue
    obtain ⟨s₂, hrun₂, hbtree₂, hversion₂⟩ := ih hphase₁ (hbtree₁ ▸ hqueue)
      (hversion₁ ▸ Nat.mod_lt _ (by decide))
    refine ⟨s₂, ?_, hbtree₂.trans hbtree₁, ?_⟩
    · rw [List.replicate_succ, List.flatten_cons, run_append, hrun₁, Option.bind_some, hrun₂]
    · rw [hversion₂, hversion₁, Nat.mod_add_mod]
      congr 1
      omega

end Wrap

/-- A row is inserted at version 1. -/
def insertedAtOne : List Action :=
  [.call 1 .begin, .call 1 .commit, .call 1 (createTableOf "u" ["id"]), .call 1 (insertOf "u" ["2"]),
    .flushRound, .flushRound, .flushRound]

/-- **The counter wraps around.** After 2^64 - 1 more increments it is at zero, and the row is newer. -/
theorem not_versions_wrapped : ¬ ∀ (_ : Bincode (WalEntry Bytes Data)) (rt : Runtime)
    (actions : List Action) (s : System), start.run rt actions = some s → s.VersionsOk := by
  intro h
  let _ := plainBincode []
  have hany : (start.run .plain insertedAtOne).any (fun s ↦
      (s.engine.btree.memoryTier.get (rowKey (bytes "u") 0)).any fun data ↦ data.record?.any fun r ↦
        r.version = 1 ∧ s.phase = .idle ∧ s.engine.btree.wal.queue.length = 0 ∧
          s.engine.currentVersion = 1) = true := by decide +kernel
  obtain ⟨s, hs, hany⟩ := (Option.any_eq_true _ _).1 hany
  obtain ⟨data, htier, hany⟩ := (Option.any_eq_true _ _).1 hany
  obtain ⟨r, hr, hstate⟩ := (Option.any_eq_true _ _).1 hany
  obtain rfl := Data.record?_eq_some.1 hr
  obtain ⟨hr, hphase, hqueue, hversion⟩ := of_decide_eq_true hstate
  obtain ⟨s', hrun, hbtree, hversion'⟩ := run_emptyTransactions (2 ^ 64 - 1) hphase
    (List.eq_nil_of_length_eq_zero hqueue) (hversion ▸ by decide)
  have hreached : start.run .plain (insertedAtOne ++
      (List.replicate (2 ^ 64 - 1) emptyTransaction).flatten) = some s' := by
    rw [run_append, hs, Option.bind_some, hrun]
  have hle := (h _ .plain _ s' hreached (bytes "u") 0 r (.tier (by rw [hbtree]; exact htier))).1
  rw [hversion', hversion, hr] at hle
  exact absurd hle (by decide)

end System

end KsSql
