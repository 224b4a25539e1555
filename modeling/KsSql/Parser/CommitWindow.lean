import KsSql.Parser.PlainRuntime
import KsSql.Parser.Runs

/-!
# Reading beside a commit

`COMMIT` increments the version counter, which lets readers see its writes, and installs the writes
only then, one by one. `CommitWindow` is a commit between its checks and its end, with other
connections that begin transactions and read beside it. A `SELECT` that takes its snapshot behind the
increment and reads before the last installation sees a part of the transaction
(`not_commit_at_once`). Where no snapshot that is as new as the commit is read before the last
installation, the memory tier evicts nothing meanwhile, and the leaf chain shows no row under a key
that the transaction deletes, each `SELECT` sees all of the transaction or nothing of it, and its
snapshot alone decides which (`commit_at_once`).
-/

namespace KsSql

open Engine

/-- A table that was read: at which version, and in which state of the engine. -/
structure Look where
  tableName : Bytes
  version : Nat
  engine : Engine

/-- A commit under way, and what other connections have read beside it. -/
structure CommitWindow where
  engine : Engine
  conn : Nat
  /-- The value of the counter behind the increment, once it was made. -/
  version : Option Nat := none
  installed : List (Bytes × Data) := []
  remaining : List (Bytes × Data)
  /-- An installation has failed, which ends the commit. -/
  failed : Bool := false
  looks : List Look := []

/-- A step of the commit, or of another connection. -/
inductive WindowStep
  /-- The increment, or else the next installation. -/
  | commit
  /-- `BEGIN` -/
  | begin (conn : Nat)
  /-- A `SELECT` reads a table. -/
  | select (conn : Nat) (tableName : Bytes)

/-- The connection that is not the one that commits. -/
def WindowStep.conn? : WindowStep → Option Nat
  | .commit => none
  | .begin conn | .select conn _ => some conn

namespace CommitWindow

/-- The commit behind its checks. -/
def opening (rt : Runtime) (e : Engine) (conn : Nat) (tx : Transaction) : CommitWindow :=
  { engine := e.closed conn, conn := conn, remaining := rt.iterate tx.updates }

/-- Take a step. -/
def step (rt : Runtime) (w : CommitWindow) : WindowStep → CommitWindow
  | .commit => match w.version with
    | none => { w with engine := w.engine.bump, version := some w.engine.bump.currentVersion }
    | some version => match w.failed, w.remaining with
      | false, update :: remaining =>
        let outcome := installKey rt w.conn version update w.engine
        { w with engine := outcome.2
                 installed := w.installed ++ [update]
                 remaining := remaining
                 failed := !outcome.1.isOk }
      | _, _ => w
  | .begin conn => { w with engine := (beginTransaction conn w.engine).2 }
  | .select conn tableName =>
    { w with looks := w.looks ++ [⟨tableName, w.engine.readVersion conn, w.engine⟩] }

/-- Take steps one after another. -/
def run (rt : Runtime) (w : CommitWindow) (steps : List WindowStep) : CommitWindow :=
  steps.foldl (step rt) w

/-- The property holds of every step of a run, in the state before the step. -/
def Along (rt : Runtime) (P : CommitWindow → WindowStep → Prop) (w : CommitWindow) :
    List WindowStep → Prop
  | [] => True
  | x :: steps => P w x ∧ Along rt P (w.step rt x) steps

instance decidableAlong (rt : Runtime) (P : CommitWindow → WindowStep → Prop)
    [∀ w, DecidablePred (P w)] : ∀ (steps : List WindowStep) (w : CommitWindow),
    Decidable (w.Along rt P steps)
  | [], _ => .isTrue trivial
  | x :: steps, w =>
    have := decidableAlong rt P steps
    decidable_of_iff (P w x ∧ Along rt P (w.step rt x) steps) Iff.rfl

/-- The version of the commit, which is that of its increment. -/
def commitVersion (w : CommitWindow) : Nat := w.version.getD w.engine.bump.currentVersion

/-- The writes of the transaction to a table. -/
def writesTo (w : CommitWindow) (tableName : Bytes) : List (Bytes × Data) :=
  (w.installed ++ w.remaining).filter fun u ↦ (tablePrefix tableName).isPrefixOf u.1

end CommitWindow

/-- What the commit writes for a buffered record. -/
def Data.committed (version : Nat) : Data → Data
  | .record r => .record { r with version := version }
  | .raw key => .raw key

/-- The reader sees a write of the commit: what was committed is in the memory tier, it is not newer
than the reader's snapshot, and the reader shows under its key what it shows, the row or, for a
deletion, nothing. -/
def Look.Sees (rt : Runtime) (version : Nat) (l : Look) (u : Bytes × Data) : Prop :=
  l.engine.btree.memoryTier.get u.1 = some (u.2.committed version) ∧ version ≤ l.version ∧
    l.engine.view rt l.tableName l.version u.1 = rt.shown l.version (u.2.committed version)

instance {rt : Runtime} {version : Nat} {l : Look} {u : Bytes × Data} :
    Decidable (l.Sees rt version u) := inferInstanceAs (Decidable (_ ∧ _ ∧ _))

namespace CommitWindow

variable {rt : Runtime} {w : CommitWindow}

/-- The commit has become visible at once: every `SELECT` has seen none or all of its writes to the
table, and two under the same snapshot agree on which. -/
structure AtOnce (rt : Runtime) (w : CommitWindow) : Prop where
  all_or_none : ∀ l ∈ w.looks, (∀ u ∈ w.writesTo l.tableName, l.Sees rt w.commitVersion u) ∨
    ∀ u ∈ w.writesTo l.tableName, ¬ l.Sees rt w.commitVersion u
  agree : ∀ l ∈ w.looks, ∀ l' ∈ w.looks, l.version = l'.version →
    ∀ u ∈ w.writesTo l.tableName, ∀ u' ∈ w.writesTo l'.tableName,
      (l.Sees rt w.commitVersion u ↔ l'.Sees rt w.commitVersion u')

/-- The step is none of those that show a part of the transaction: an installation evicts none of the
writes that were installed before, and what is read at a snapshot as new as the commit is read behind the
last installation, where the leaf chain shows nothing under the keys under which the transaction leaves
nothing to show. -/
def KeepsTogether (rt : Runtime) (w : CommitWindow) : WindowStep → Prop
  | .commit => w.remaining ≠ [] → ∀ u ∈ w.installed, w.engine.btree.memoryTier.Spares u.1
  | .begin _ => True
  | .select conn tableName =>
    let version := w.engine.readVersion conn
    w.commitVersion ≤ version → w.remaining = [] ∧ ∀ u ∈ w.writesTo tableName,
      rt.shown version (u.2.committed w.commitVersion) = none →
        firstHit (rt.shownUnder tableName version) w.engine.btree.leafEntries u.1 = none

/-- A `SELECT` has seen a part of the transaction. -/
def SeenInPart (rt : Runtime) (w : CommitWindow) : Prop :=
  ∃ l ∈ w.looks, (∃ u ∈ w.writesTo l.tableName, l.Sees rt w.commitVersion u) ∧
    ∃ u ∈ w.writesTo l.tableName, ¬ l.Sees rt w.commitVersion u

instance : Decidable (w.SeenInPart rt) :=
  inferInstanceAs (Decidable (∃ l ∈ _, (∃ u ∈ _, _) ∧ ∃ u ∈ _, ¬ _))

instance : DecidablePred (KeepsTogether rt w) := fun x ↦ match x with
  | .commit => inferInstanceAs (Decidable (_ ≠ [] → ∀ u ∈ w.installed, _))
  | .begin _ => .isTrue trivial
  | .select _ _ => inferInstanceAs (Decidable (_ ≤ _ → _ = [] ∧ ∀ u ∈ _, _ = none → _ = none))

/-! ### What a step does -/

/-- A failed installation has reached the memory tier all the same. -/
theorem installKey_memoryTier (conn version : Nat) (key : Bytes) (r : Record) (e : Engine) :
    (installKey rt conn version (key, .record r) e).2.btree.memoryTier =
      e.btree.memoryTier.insert (rt.nanos e.ticks) key (Data.committed version (.record r)) := by
  have hwp : Effect.wp (installKey rt conn version (key, .record r))
      (fun _ t ↦ t.btree.memoryTier = e.btree.memoryTier.insert (rt.nanos e.ticks) key
        (Data.committed version (.record r)))
      (fun _ t ↦ t.btree.memoryTier = e.btree.memoryTier.insert (rt.nanos e.ticks) key
        (Data.committed version (.record r))) e := by
    refine Effect.wp_bind (Effect.wp_ofExcept (fun record hrecord ↦ ?_) fun err herr ↦ nomatch herr)
    obtain rfl : r = record := Except.ok.inj hrecord
    exact Effect.wp_bind (Effect.wp_modify (wp_enqueue (fun _ ↦ rfl) fun _ ↦ rfl))
  unfold Effect.wp at hwp
  split at hwp <;> rename_i heq <;> rw [heq] <;> exact hwp

/-- The version of the commit does not change. -/
theorem commitVersion_step (x : WindowStep) : (w.step rt x).commitVersion = w.commitVersion := by
  cases x with
  | commit =>
    rw [step]
    rcases hversion : w.version with - | version
    · rw [commitVersion, commitVersion, hversion]
      rfl
    · dsimp only
      split
      · rw [commitVersion, commitVersion, hversion]
        rfl
      · rfl
  | begin conn => rfl
  | select conn t => rfl

/-- What is known of the commit while its steps keep it together. -/
structure Together (rt : Runtime) (updates : List (Bytes × Data)) (w : CommitWindow) : Prop where
  writes : w.installed ++ w.remaining = updates
  unborn : w.version = none → w.installed = []
  held : ∀ u ∈ w.installed,
    w.engine.btree.memoryTier.get u.1 = some (u.2.committed w.commitVersion)
  sees : ∀ l ∈ w.looks, ∀ u ∈ w.writesTo l.tableName,
    (l.Sees rt w.commitVersion u ↔ w.commitVersion ≤ l.version)

theorem AtOnce.not_seenInPart (h : w.AtOnce rt) : ¬ w.SeenInPart rt := by
  rintro ⟨l, hl, ⟨u, hu, hseen⟩, u', hu', hunseen⟩
  rcases h.all_or_none l hl with hall | hnone
  · exact hunseen (hall u' hu')
  · exact hnone u hu hseen

theorem Together.atOnce {updates : List (Bytes × Data)} (h : w.Together rt updates) :
    w.AtOnce rt where
  all_or_none l hl := by
    by_cases hversion : w.commitVersion ≤ l.version
    · exact Or.inl fun u hu ↦ (h.sees l hl u hu).2 hversion
    · exact Or.inr fun u hu hsees ↦ hversion ((h.sees l hl u hu).1 hsees)
  agree l hl l' hl' heq u hu u' hu' := by rw [h.sees l hl u hu, h.sees l' hl' u' hu', heq]

/-- What is read behind the last installation shows what the transaction has left. -/
theorem Together.sees_of_done {updates : List (Bytes × Data)} (h : w.Together rt updates)
    {conn : Nat} {t : Bytes} (hkeeps : w.KeepsTogether rt (.select conn t)) {u : Bytes × Data}
    (hu : u ∈ w.writesTo t) :
    Look.Sees rt w.commitVersion ⟨t, w.engine.readVersion conn, w.engine⟩ u ↔
      w.commitVersion ≤ w.engine.readVersion conn := by
  refine ⟨fun hsees ↦ hsees.2.1, fun hversion ↦ ?_⟩
  obtain ⟨hremaining, hhides⟩ := hkeeps hversion
  obtain ⟨hmem, hkey⟩ := List.mem_filter.1 hu
  rw [hremaining, List.append_nil] at hmem
  have hheld := h.held u hmem
  refine ⟨hheld, hversion, ?_⟩
  have hunder : ∀ data, rt.shownUnder t (w.engine.readVersion conn) u.1 data =
      rt.shown (w.engine.readVersion conn) data := fun _ ↦ if_pos hkey
  show w.engine.view rt t (w.engine.readVersion conn) u.1 = _
  rw [view_eq, hheld, Option.bind_some, hunder]
  rcases hshown : rt.shown (w.engine.readVersion conn) (u.2.committed w.commitVersion) with - | row
  · rw [hhides u hu hshown, Option.or_none]
  · rw [Option.some_or]

/-- A reader that sees a row of the transaction returns it. -/
theorem sees_row {R : Bytes → Data → Prop} {l : Look} {u : Bytes × Data} {version : Nat}
    {rows : List Row} {columns : Row} (hsound : BPlusTree.Sound R l.engine.btree)
    (hrows : l.engine.scanTable rt l.tableName l.version = .ok rows) (hsees : l.Sees rt version u)
    (hshown : rt.shown l.version (u.2.committed version) = some columns) :
    scannedRow rt l.tableName u.1 columns ∈ rows := by
  rw [scanTable_eq hsound hrows]
  have hscanned : (u.1, columns) ∈ l.engine.scanned rt l.tableName l.version :=
    mem_scanned.2 (hsees.2.2.trans hshown)
  exact List.mem_map.2 ⟨_, hscanned, rfl⟩

/-- The looks stay what they are. -/
theorem Together.sees_congr {updates : List (Bytes × Data)} {w' : CommitWindow}
    (h : w.Together rt updates) (hwrites : w'.installed ++ w'.remaining = updates)
    (hversion : w'.commitVersion = w.commitVersion) (hlooks : w'.looks = w.looks) :
    ∀ l ∈ w'.looks, ∀ u ∈ w'.writesTo l.tableName,
      (l.Sees rt w'.commitVersion u ↔ w'.commitVersion ≤ l.version) := by
  intro l hl u hu
  rw [hlooks] at hl
  rw [writesTo, hwrites, ← h.writes] at hu
  rw [hversion]
  exact h.sees l hl u hu

/-- **A step** keeps the commit together. -/
theorem Together.step {updates : List (Bytes × Data)} (h : w.Together rt updates)
    (hrecords : ∀ u ∈ updates, ∃ r, u.2 = .record r) (hnodup : (updates.map Prod.fst).Nodup)
    {x : WindowStep} (hkeeps : w.KeepsTogether rt x) : (w.step rt x).Together rt updates := by
  have hcommit : (w.step rt x).commitVersion = w.commitVersion := commitVersion_step x
  cases x with
  | commit =>
    rcases hversion : w.version with - | version
    · have hstep : w.step rt .commit =
          { w with engine := w.engine.bump, version := some w.engine.bump.currentVersion } := by
        rw [CommitWindow.step, hversion]
      rw [hstep] at hcommit ⊢
      have hnone := h.unborn hversion
      refine ⟨h.writes, fun _ ↦ hnone, fun u hu ↦ ?_, h.sees_congr h.writes hcommit rfl⟩
      rw [show w.installed = [] from hnone] at hu
      cases hu
    · by_cases hgoes : w.failed = false ∧ w.remaining ≠ []
      · obtain ⟨hfailed, hremaining⟩ := hgoes
        obtain ⟨update, remaining, hsplit⟩ := List.exists_cons_of_ne_nil hremaining
        let outcome := installKey rt w.conn version update w.engine
        have hstep : w.step rt .commit =
            { w with engine := outcome.2
                     installed := w.installed ++ [update]
                     remaining := remaining
                     failed := !outcome.1.isOk } := by
          rw [CommitWindow.step, hversion, hfailed, hsplit]
        rw [hstep] at hcommit ⊢
        have hwrites : (w.installed ++ [update]) ++ remaining = updates := by
          rw [List.append_assoc, List.singleton_append, ← hsplit, h.writes]
        obtain ⟨key, data⟩ := update
        obtain ⟨r, rfl⟩ : ∃ r, data = .record r :=
          hrecords (key, data) (hwrites ▸ List.mem_append_left _ (List.mem_append_right _
            List.mem_cons_self))
        have hat : w.commitVersion = version := by rw [commitVersion, hversion]; rfl
        have htier : outcome.2.btree.memoryTier = w.engine.btree.memoryTier.insert
            (rt.nanos w.engine.ticks) key (Data.committed version (.record r)) :=
          installKey_memoryTier w.conn version key r w.engine
        refine ⟨hwrites, fun hnone ↦ ?_, fun u hu ↦ ?_, h.sees_congr hwrites hcommit rfl⟩
        · rw [show w.version = none from hnone] at hversion
          cases hversion
        · rw [hcommit, hat]
          show outcome.2.btree.memoryTier.get u.1 = _
          rw [htier]
          rcases List.mem_append.1 hu with hu | hu
          · -- the keys of the transaction are distinct, and this one was spared
            have hne : u.1 ≠ key := by
              rw [← hwrites, List.map_append, List.map_append, List.append_assoc,
                List.nodup_append] at hnodup
              exact hnodup.2.2 u.1 (List.mem_map_of_mem hu) key
                (List.mem_append_left _ List.mem_cons_self)
            rw [MemoryTier.get_insert_of_spares (hkeeps hremaining u hu) hne, h.held u hu, hat]
          · rw [List.mem_singleton.1 hu]
            exact MemoryTier.get_insert_self _ _ _ _
      · have hstep : w.step rt .commit = w := by
          rw [CommitWindow.step, hversion]
          dsimp only
          split
          · rename_i hfailed hsplit
            exact absurd ⟨hfailed, by rw [hsplit]; exact List.cons_ne_nil _ _⟩ hgoes
          · rfl
        rw [hstep]
        exact h
  | begin conn => exact ⟨h.writes, h.unborn, h.held, h.sees⟩
  | select conn t =>
    refine ⟨h.writes, h.unborn, h.held, fun l hl u hu ↦ ?_⟩
    rcases List.mem_append.1 hl with hl | hl
    · exact h.sees l hl u hu
    · obtain rfl := List.mem_singleton.1 hl
      exact h.sees_of_done hkeeps hu

/-- **A run** keeps the commit together. -/
theorem Together.run {updates : List (Bytes × Data)}
    (hrecords : ∀ u ∈ updates, ∃ r, u.2 = .record r) (hnodup : (updates.map Prod.fst).Nodup) :
    ∀ {steps : List WindowStep} {w : CommitWindow}, w.Together rt updates →
      w.Along rt (KeepsTogether rt) steps → (w.run rt steps).Together rt updates
  | [], _, h, _ => h
  | x :: steps, w, h, hkeeps => by
    have hstep : (w.step rt x).Together rt updates := h.step hrecords hnodup hkeeps.1
    show ((w.step rt x).run rt steps).Together rt updates
    exact Together.run hrecords hnodup hstep hkeeps.2

theorem step_of_failed {version : Nat} (hversion : w.version = some version)
    (hfailed : w.failed = true) : w.step rt .commit = w := by
  rw [step, hversion, hfailed]

/-- The installations of a commit are those of its handler. -/
theorem run_installations {version : Nat} : ∀ (remaining : List (Bytes × Data)) {w : CommitWindow},
    w.remaining = remaining → w.version = some version → w.failed = false →
    (w.run rt (List.replicate remaining.length .commit)).engine =
      (Effect.forEach remaining (installKey rt w.conn version) w.engine).2
  | [], _, _, _, _ => rfl
  | update :: remaining, w, hremaining, hversion, hfailed => by
    let outcome := installKey rt w.conn version update w.engine
    let w' : CommitWindow :=
      { w with engine := outcome.2
               installed := w.installed ++ [update]
               remaining := remaining
               failed := !outcome.1.isOk }
    have hstep : w.step rt .commit = w' := by
      simp only [step, hversion, hfailed, hremaining, w', outcome]
    have hversion' : w'.version = some version := hversion
    show ((w.step rt .commit).run rt (List.replicate remaining.length .commit)).engine =
      (Effect.bind (installKey rt w.conn version update)
        (fun _ ↦ Effect.forEach remaining (installKey rt w.conn version)) w.engine).2
    rw [hstep, Effect.bind]
    rcases houtcome : installKey rt w.conn version update w.engine with ⟨err | ⟨⟩, e⟩
    · have hfailed' : w'.failed = true := by
        show (!(installKey rt w.conn version update w.engine).1.isOk) = true
        rw [houtcome]
        rfl
      have hstays : ∀ n, w'.run rt (List.replicate n .commit) = w' := fun n ↦ by
        induction n with
        | zero => rfl
        | succ n ih =>
          rw [List.replicate_succ, CommitWindow.run, List.foldl_cons, step_of_failed hversion' hfailed']
          exact ih
      rw [hstays]
      exact congrArg Prod.snd houtcome
    · have hengine : w'.engine = e := congrArg Prod.snd houtcome
      have hgoes : w'.failed = false := by
        show (!(installKey rt w.conn version update w.engine).1.isOk) = false
        rw [houtcome]
        rfl
      rw [run_installations remaining rfl hversion' hgoes, hengine]

/-- **`COMMIT` takes these steps** one after another, if its checks pass. -/
theorem commit_eq_run {e : Engine} {conn : Nat} {tx : Transaction}
    (hopen : e.activeTransactions.lookup conn = some tx)
    (hpass : (Effect.forEach ((rt.iterate tx.updates).map Prod.fst) (validateKey rt tx)
      (e.closed conn)).1 = .ok ()) :
    (commit rt conn e).2 = ((opening rt e conn tx).run rt
      (List.replicate ((rt.iterate tx.updates).length + 1) .commit)).engine := by
  have hchecks : Effect.forEach ((rt.iterate tx.updates).map Prod.fst) (validateKey rt tx)
      (e.closed conn) = (.ok (), e.closed conn) := by
    refine Prod.ext hpass ?_
    have hwp : Effect.wp (Effect.forEach ((rt.iterate tx.updates).map Prod.fst)
        (validateKey rt tx)) (fun _ t ↦ t = e.closed conn) (fun _ t ↦ t = e.closed conn)
        (e.closed conn) := wp_validateKeys _
    unfold Effect.wp at hwp
    split at hwp <;> rename_i heq <;> rw [heq] <;> exact hwp
  have hcommit : commit rt conn e = Effect.bind
      (Effect.forEach ((rt.iterate tx.updates).map Prod.fst) (validateKey rt tx))
      (fun _ ↦ Effect.bind (Effect.modify bump) fun _ ↦ Effect.bind Effect.get fun t ↦
        Effect.bind (Effect.forEach (rt.iterate tx.updates) (installKey rt conn t.currentVersion))
          fun _ ↦ Effect.pure { output := bytes "Transaction committed", flush := true })
      (e.closed conn) := by
    rw [commit, Effect.get_bind, hopen]
    rfl
  have hinstalls : (((opening rt e conn tx).step rt .commit).run rt
      (List.replicate (rt.iterate tx.updates).length .commit)).engine =
      (Effect.forEach (rt.iterate tx.updates) (installKey rt conn (e.closed conn).bump.currentVersion)
        (e.closed conn).bump).2 := run_installations (rt.iterate tx.updates) rfl rfl rfl
  rw [List.replicate_succ, CommitWindow.run, List.foldl_cons, ← CommitWindow.run, hinstalls, hcommit,
    Effect.bind, hchecks]
  show (Effect.bind (Effect.forEach (rt.iterate tx.updates)
    (installKey rt conn (e.closed conn).bump.currentVersion)) _ (e.closed conn).bump).2 = _
  rw [Effect.bind]
  split <;> rename_i heq <;> exact (congrArg Prod.snd heq).symm

theorem together_opening (e : Engine) (conn : Nat) (tx : Transaction) :
    (opening rt e conn tx).Together rt (rt.iterate tx.updates) :=
  ⟨rfl, fun _ ↦ rfl, fun _ h ↦ (nomatch h), fun _ h ↦ (nomatch h)⟩

/-- **A commit becomes visible at once**, where no `SELECT` reads at a snapshot as new as the commit
before the last installation, or while the leaf chain shows a row that the transaction deletes, and no
installation evicts a write that was installed before. Each `SELECT` has then seen none or all of the
writes, and two under the same snapshot agree on which. -/
theorem commit_at_once [Bincode (WalEntry Bytes Data)] {actions : List Action} {s : System}
    (hrun : System.start.run rt actions = some s) (hbounded : s.engine.Bounded) {conn : Nat}
    {tx : Transaction} (hopen : s.engine.activeTransactions.lookup conn = some tx)
    {steps : List WindowStep}
    (hkeeps : (opening rt s.engine conn tx).Along rt (KeepsTogether rt) steps) :
    ((opening rt s.engine conn tx).run rt steps).AtOnce rt := by
  have h := System.coherent_of_run hrun hbounded
  refine (Together.run (fun u hu ↦ ?_) (nodup_keys_iterate _) (together_opening _ _ _) hkeeps).atOnce
  obtain ⟨r, hr, -⟩ := (h.buffered conn tx hopen u.1 u.2 (mem_iterate_iff.1 hu)).1
  exact ⟨r, hr⟩

/-! ### Two rows -/

/-- A transaction that has inserted two rows. -/
def insertedTwo : List Action :=
  [.call 1 (createTableOf "u" ["id"]), .call 1 .begin, .call 1 (insertTwo "u" "a" "b"), .flushRound,
    .flushRound]

/-- A reader with two transactions, of which the first begins before the increment and the second
behind the last installation. -/
def readAround : List WindowStep :=
  [.begin 2, .commit, .select 2 (bytes "u"), .commit, .select 2 (bytes "u"), .commit, .begin 2,
    .select 2 (bytes "u")]

/-- A reader whose transaction begins behind the increment. -/
def readBetween : List WindowStep := [.commit, .begin 2, .commit, .select 2 (bytes "u")]

/-- The reader that reads around the commit sees nothing and then all. -/
theorem commit_at_once_around : let _ := plainBincode []
    ∃ s tx, System.start.run .plain insertedTwo = some s ∧
      s.engine.activeTransactions.lookup 1 = some tx ∧
      ((opening .plain s.engine 1 tx).run .plain readAround).looks.map Look.version = [0, 0, 1] ∧
      ((opening .plain s.engine 1 tx).run .plain readAround).AtOnce .plain := by
  let _ := plainBincode []
  obtain ⟨s, hs⟩ : ∃ s, System.start.run .plain insertedTwo = some s :=
    Option.isSome_iff_exists.1 (by decide +kernel)
  have hall : (System.start.run .plain insertedTwo).all (fun s ↦
      decide (s.engine.btree.pager.handedOut.length < 2 ^ 32 ∧ s.engine.history.bumps < 2 ^ 64) &&
        (s.engine.activeTransactions.lookup 1).isSome &&
        (s.engine.activeTransactions.lookup 1).all fun tx ↦
          decide (((opening .plain s.engine 1 tx).run .plain readAround).looks.map Look.version =
              [0, 0, 1] ∧
            (opening .plain s.engine 1 tx).Along .plain (KeepsTogether .plain) readAround)) = true := by
    decide +kernel
  rw [hs, Option.all_some, Bool.and_eq_true, Bool.and_eq_true, decide_eq_true_iff] at hall
  obtain ⟨⟨⟨hpages, hbumps⟩, hopen⟩, hkeeps⟩ := hall
  obtain ⟨tx, htx⟩ := Option.isSome_iff_exists.1 hopen
  rw [htx, Option.all_some, decide_eq_true_iff] at hkeeps
  exact ⟨s, tx, hs, htx, hkeeps.1, commit_at_once hs ⟨hpages, hbumps⟩ htx hkeeps.2⟩

/-- **Half a commit is seen.** A transaction that begins between the increment and the installations
reads one of the two rows. -/
theorem not_commit_at_once : ¬ ∀ (_ : Bincode (WalEntry Bytes Data)) (rt : Runtime)
    (actions : List Action) (s : System), System.start.run rt actions = some s →
      s.engine.Bounded → ∀ conn tx, s.engine.activeTransactions.lookup conn = some tx →
        (∃ reply, (commit rt conn s.engine).1 = .ok reply) →
          ∀ steps : List WindowStep, (∀ x ∈ steps, x.conn? ≠ some conn) →
            ((opening rt s.engine conn tx).run rt steps).AtOnce rt := by
  intro h
  let _ := plainBincode []
  obtain ⟨s, hs⟩ : ∃ s, System.start.run .plain insertedTwo = some s :=
    Option.isSome_iff_exists.1 (by decide +kernel)
  have hall : (System.start.run .plain insertedTwo).all (fun s ↦
      decide (s.engine.btree.pager.handedOut.length < 2 ^ 32 ∧ s.engine.history.bumps < 2 ^ 64) &&
        (commit .plain 1 s.engine).1.isOk &&
        (s.engine.activeTransactions.lookup 1).isSome &&
        (s.engine.activeTransactions.lookup 1).all fun tx ↦
          decide (((opening .plain s.engine 1 tx).run .plain readBetween).SeenInPart .plain)) = true := by
    decide +kernel
  rw [hs, Option.all_some, Bool.and_eq_true, Bool.and_eq_true, Bool.and_eq_true,
    decide_eq_true_iff] at hall
  obtain ⟨⟨⟨⟨hpages, hbumps⟩, hcommit⟩, hopen⟩, hsees⟩ := hall
  obtain ⟨tx, htx⟩ := Option.isSome_iff_exists.1 hopen
  rw [htx, Option.all_some, decide_eq_true_iff] at hsees
  have hreply : ∃ reply, (commit .plain 1 s.engine).1 = .ok reply := by
    rcases hok : (commit .plain 1 s.engine).1 with err | reply
    · rw [hok] at hcommit
      cases hcommit
    · exact ⟨reply, rfl⟩
  exact (h _ .plain insertedTwo s hs ⟨hpages, hbumps⟩ 1 tx htx hreply readBetween
    (by decide)).not_seenInPart hsees

end CommitWindow

end KsSql
