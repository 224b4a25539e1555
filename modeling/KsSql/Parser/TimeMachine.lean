import KsSql.Parser.PlainRuntime
import KsSql.Parser.Runs

/-!
# Undo and redo

`Engine::undo` and `Engine::redo` move the version counter back and forth, and nothing else. The counter
is also what gives the next write its version. A write behind an `undo` therefore takes the version of
the write that was undone, and brings that write back into view (`not_versions_unique`). As long as no
increment by a statement brings the counter to a version that a write already carries, no two changes or
commits share a version, and what is hidden stays hidden until a `redo` (`versions_unique`).

The history counts an `undo` as `2 ^ 64 - 1` increments, which it is for a 64-bit counter.
-/

namespace KsSql

namespace Engine

/-- `Engine::undo` -/
def undo (e : Engine) : Engine :=
  if e.currentVersion > 0 then
    { e with
      currentVersion := e.currentVersion - 1
      history := { e.history with bumps := e.history.bumps + (2 ^ 64 - 1) } }
  else e

/-- `Engine::redo` -/
def redo (e : Engine) : Engine := e.bump

end Engine

/-- The version of the record that is written, if it is one. -/
def Install.version? (w : Install) : Option Nat :=
  match w.data with
  | .record r => some r.version
  | .raw _ => none

/-- The kinds of write that take a new version. -/
def WriteKind.increments : WriteKind → Bool
  | .change | .commit => true
  | .insert | .index => false

/-- The running system with its `undo` and `redo`. -/
structure TimeMachine where
  system : System
  /-- The number of moves so far. -/
  moves : Nat := 0
  /-- History: the writes to the memory tier, each with the number of the move that made it. -/
  written : List (Nat × Install) := []

/-- A move: a step of the system, an `undo` or a `redo`. -/
inductive Move
  | act (a : Action)
  | undo
  | redo

/-! ### The versions that a command takes -/

namespace Engine

variable {rt : Runtime} {N : Bytes → Prop} {command : Command} {conn : Nat} {e e' : Engine}

/-- What a command that installs `new` does to the counter, while it does not wrap around: it goes up
by one for each increment, every change and commit takes a version above the old one, and no two
changes take the same. -/
structure Takes (e e' : Engine) (new : List Install) : Prop where
  installs : e'.history.installs = e.history.installs ++ new
  bumps : e.history.bumps ≤ e'.history.bumps
  version : e'.currentVersion = e.currentVersion + (e'.history.bumps - e.history.bumps)
  above : ∀ w ∈ new, w.kind.increments = true → ∀ u ∈ w.version?,
    e.currentVersion < u ∧ u ≤ e'.currentVersion
  distinct : new.Pairwise fun x y ↦ x.kind = .change → y.kind.increments = true →
    ∀ u ∈ x.version?, u ∉ y.version?

theorem Takes.refl (e : Engine) : Takes e e [] :=
  ⟨(List.append_nil _).symm, le_rfl, by rw [Nat.sub_self, Nat.add_zero], nofun, .nil⟩

/-- A change that installs nothing and leaves the counter alone. -/
theorem Takes.congr {t t' : Engine} {new : List Install} (h : Takes e t new)
    (hinstalls : t'.history.installs = t.history.installs)
    (hbumps : t'.history.bumps = t.history.bumps) (hversion : t'.currentVersion = t.currentVersion) :
    Takes e t' new :=
  ⟨hinstalls.trans h.installs, hbumps ▸ h.bumps, by rw [hversion, hbumps]; exact h.version,
    by rw [hversion]; exact h.above, h.distinct⟩

/-- An installation that takes no new version. -/
theorem Takes.install {t : Engine} {new : List Install} (h : Takes e t new) {w : Install}
    (hkind : w.kind.increments = false) : Takes e (t.install rt w) (new ++ [w]) where
  installs := by
    rw [← List.append_assoc, ← h.installs]
    rfl
  bumps := h.bumps
  version := h.version
  above x hx hinc := by
    rcases List.mem_append.1 hx with hx | hx
    · exact h.above x hx hinc
    · rw [List.mem_singleton.1 hx, hkind] at hinc
      cases hinc
  distinct := by
    refine List.pairwise_append.2 ⟨h.distinct, List.pairwise_singleton _ _, fun x _ y hy _ hinc ↦ ?_⟩
    rw [List.mem_singleton.1 hy, hkind] at hinc
    cases hinc

/-- The counter after an increment that does not wrap it around. -/
theorem Takes.version_bump {t : Engine} {new : List Install} (h : Takes e t new)
    (hwrap : e.currentVersion + (t.bump.history.bumps - e.history.bumps) < 2 ^ 64) :
    t.bump.currentVersion = t.currentVersion + 1 := by
  have hbumps : t.bump.history.bumps = t.history.bumps + 1 := rfl
  have hle := h.bumps
  rw [hbumps] at hwrap
  refine Nat.mod_eq_of_lt ?_
  rw [h.version]
  omega

/-- A change of a row outside transactions. -/
theorem Takes.change {t : Engine} {new : List Install} (h : Takes e t new)
    (hwrap : e.currentVersion + (t.bump.history.bumps - e.history.bumps) < 2 ^ 64) (key : Bytes)
    (r : Record) :
    Takes e (t.bump.install rt
      ⟨conn, .change, key, .record { r with version := t.bump.currentVersion }⟩)
      (new ++ [⟨conn, .change, key, .record { r with version := t.bump.currentVersion }⟩]) := by
  have hversion := h.version_bump hwrap
  have hbumps : t.bump.history.bumps = t.history.bumps + 1 := rfl
  have hle := h.bumps
  have hbefore := h.version
  refine ⟨?_, Nat.le_succ_of_le h.bumps, ?_, fun w hw hinc u hu ↦ ?_, ?_⟩
  · rw [← List.append_assoc, ← h.installs]
    rfl
  · show t.bump.currentVersion = e.currentVersion + (t.bump.history.bumps - e.history.bumps)
    omega
  · show _ ∧ u ≤ t.bump.currentVersion
    rcases List.mem_append.1 hw with hw | hw
    · have habove := h.above w hw hinc u hu
      omega
    · rw [List.mem_singleton.1 hw] at hu
      obtain rfl : t.bump.currentVersion = u := Option.some.inj hu
      omega
  · refine List.pairwise_append.2 ⟨h.distinct, List.pairwise_singleton _ _,
      fun x hx y hy hkind _ u hu hu' ↦ ?_⟩
    have habove := h.above x hx (by rw [hkind]; rfl) u hu
    rw [List.mem_singleton.1 hy] at hu'
    obtain rfl : t.bump.currentVersion = u := Option.some.inj hu'
    omega

/-- **Every command but a commit** takes versions so. -/
theorem Progress.takes (h : Progress rt N command conn e e') (hcommand : command ≠ .commit)
    (hwrap : e.currentVersion + (e'.history.bumps - e.history.bumps) < 2 ^ 64) :
    ∃ new, Takes e e' new := by
  induction h with
  | refl => exact ⟨[], Takes.refl e⟩
  | @tail t t' _ hstep ih =>
    have hle := hstep.grows.bumps
    obtain ⟨new, htakes⟩ := ih (by omega)
    cases hstep with
    | insertRow name source columns timestamp =>
      have hdraw : Takes e (t.draw conn (t.nextKey rt name)) new := htakes.congr rfl rfl rfl
      exact ⟨_, hdraw.install rfl⟩
    | change key r => exact ⟨_, htakes.change hwrap key r⟩
    | index key target => exact ⟨_, htakes.install rfl⟩
    | commitKey key r hcommit => exact absurd hcommit hcommand
    | bump hcommit => exact absurd hcommit hcommand
    | _ => exact ⟨_, htakes.congr rfl rfl rfl⟩

/-- A commit that passes its checks increments the counter once, and every write takes its new
value. -/
structure CommitWrites (e e' : Engine) (new : List Install) : Prop where
  installs : e'.history.installs = e.history.installs ++ new
  bumps : e'.history.bumps = e.history.bumps + 1
  version : e'.currentVersion = e.bump.currentVersion
  new : ∀ w ∈ new, w.kind = .commit ∧ ∀ u ∈ w.version?, u = e.bump.currentVersion

theorem CommitWrites.congr {t t' : Engine} {new : List Install} (h : CommitWrites e t new)
    (hinstalls : t'.history.installs = t.history.installs)
    (hbumps : t'.history.bumps = t.history.bumps) (hversion : t'.currentVersion = t.currentVersion) :
    CommitWrites e t' new :=
  ⟨hinstalls.trans h.installs, hbumps.trans h.bumps, hversion.trans h.version, h.new⟩

/-- Every write is installed at the version of the commit, up to one that the queue refuses. -/
theorem wp_installKey_version {t : Engine} {new : List Install} (h : CommitWrites e t new)
    (update : Bytes × Data) :
    Effect.wp (installKey rt conn e.bump.currentVersion update)
      (fun _ t ↦ ∃ new, CommitWrites e t new) (fun _ t ↦ ∃ new, CommitWrites e t new) t := by
  refine Effect.wp_bind (Effect.wp_ofExcept (fun record _ ↦ ?_) fun _ _ ↦ ⟨new, h⟩)
  refine Effect.wp_bind (Effect.wp_modify ?_)
  have hwrites : CommitWrites e (t.install rt
      ⟨conn, .commit, update.1, .record { record with version := e.bump.currentVersion }⟩)
      (new ++ [⟨conn, .commit, update.1, .record { record with version := e.bump.currentVersion }⟩]) := by
    refine ⟨?_, h.bumps, h.version, List.forall_mem_append.2 ⟨h.new, List.forall_mem_singleton.2
      ⟨rfl, fun u hu ↦ (Option.some.inj hu).symm⟩⟩⟩
    rw [← List.append_assoc, ← h.installs]
    rfl
  exact wp_enqueue (fun _ ↦ ⟨_, hwrites.congr rfl rfl rfl⟩) fun _ ↦ ⟨_, hwrites.congr rfl rfl rfl⟩

/-- **A commit** leaves the counter and the memory tier alone, or takes one version for all its
writes. -/
theorem commit_version (e : Engine) :
    Takes e (commit rt conn e).2 [] ∨ ∃ new, CommitWrites e (commit rt conn e).2 new := by
  have hwp : Effect.wp (commit rt conn) (fun _ t ↦ Takes e t [] ∨ ∃ new, CommitWrites e t new)
      (fun _ t ↦ Takes e t [] ∨ ∃ new, CommitWrites e t new) e := by
    refine Effect.wp_bind (Effect.wp_get ?_)
    split
    · exact Effect.wp_throw (Or.inl (Takes.refl e))
    refine Effect.wp_bind (Effect.wp_modify ?_)
    refine Effect.wp_bind (Effect.wp_mono (wp_validateKeys _) ?_ ?_)
    · rintro - t rfl
      refine Effect.wp_bind (Effect.wp_modify (Effect.wp_bind (Effect.wp_get (Effect.wp_bind ?_))))
      refine Effect.wp_forEach (fun _ t ↦ ∃ new, CommitWrites e t new)
        ⟨[], (List.append_nil _).symm, rfl, rfl, nofun⟩ ?_ fun t ht ↦ Effect.wp_pure (Or.inr ht)
      rintro _ update _ - t ⟨new, hnew⟩
      exact Effect.wp_mono (wp_installKey_version hnew update) (fun _ _ h ↦ h) fun _ _ h ↦ Or.inr h
    · rintro - t rfl
      exact Or.inl ((Takes.refl e).congr rfl rfl rfl)
  unfold Effect.wp at hwp
  split at hwp <;> rename_i heq <;> rw [heq] <;> exact hwp

/-- **Every command** takes versions above the old one, while the counter does not wrap around; a
commit takes one, and a statement a new one for each change. -/
theorem takes_execute (hinv : e.Inv rt fun _ ↦ True)
    (hwrap : e.currentVersion + ((execute rt command conn e).2.history.bumps - e.history.bumps) < 2 ^ 64) :
    ∃ new, Takes e (execute rt command conn e).2 new := by
  by_cases hcommand : command = .commit
  · subst hcommand
    rcases commit_version e with hnone | ⟨new, hnew⟩
    · exact ⟨[], hnone⟩
    · have hbumps := hnew.bumps
      have hversion : e.bump.currentVersion = e.currentVersion + 1 := by
        refine Nat.mod_eq_of_lt ?_
        rw [execute, hbumps] at hwrap
        omega
      refine ⟨new, hnew.installs, by rw [execute, hbumps]; exact Nat.le_succ _, ?_, fun w hw _ u hu ↦ ?_, ?_⟩
      · rw [execute, hnew.version, hversion, hbumps]
        omega
      · rw [execute, hnew.version, (hnew.new w hw).2 u hu, hversion]
        omega
      · refine List.pairwise_of_forall_mem_list fun x hx y _ hkind ↦ ?_
        rw [(hnew.new x hx).1] at hkind
        cases hkind
  · exact (progress_execute hinv command.columnsIn_true).takes hcommand hwrap

end Engine

namespace TimeMachine

section

variable [Bincode (WalEntry Bytes Data)]

/-- Make a move, if it can be made. -/
def step (rt : Runtime) (m : TimeMachine) : Move → Option TimeMachine
  | .act a => (m.system.step rt a).map fun s ↦
    { system := s
      moves := m.moves + 1
      written := m.written ++ (s.engine.history.installs.drop
        m.system.engine.history.installs.length).map fun w ↦ (m.moves, w) }
  | .undo => some { m with
    system := { m.system with engine := m.system.engine.undo }
    moves := m.moves + 1 }
  | .redo => some { m with
    system := { m.system with engine := m.system.engine.redo }
    moves := m.moves + 1 }

/-- Make moves one after another. -/
def run (rt : Runtime) (m : TimeMachine) : List Move → Option TimeMachine
  | [] => some m
  | x :: moves => (m.step rt x).bind fun m ↦ run rt m moves

/-- The property holds of every move of a run, in the state before the move. -/
def Along (rt : Runtime) (P : TimeMachine → Move → Prop) (m : TimeMachine) : List Move → Prop
  | [] => True
  | x :: moves => P m x ∧ ∀ m' ∈ m.step rt x, Along rt P m' moves

instance decidableAlong (rt : Runtime) (P : TimeMachine → Move → Prop) [∀ m, DecidablePred (P m)] :
    ∀ (moves : List Move) (m : TimeMachine), Decidable (m.Along rt P moves)
  | [], _ => .isTrue trivial
  | x :: moves, m =>
    have := decidableAlong rt P moves
    decidable_of_iff (P m x ∧ ∀ m' ∈ m.step rt x, Along rt P m' moves) Iff.rfl

/-- No increment that the move makes wraps the counter around or brings it to a version that a write
carries. -/
def ReusesNoVersion (rt : Runtime) (m : TimeMachine) : Move → Prop
  | .act a => ∀ s ∈ m.system.step rt a,
    let version := m.system.engine.currentVersion
    let increments := s.engine.history.bumps - m.system.engine.history.bumps
    version + increments < 2 ^ 64 ∧ ∀ w ∈ m.system.engine.history.installs, ∀ u ∈ w.version?,
      u ≤ version ∨ version + increments < u
  | .undo | .redo => True

instance (rt : Runtime) (m : TimeMachine) : DecidablePred (m.ReusesNoVersion rt)
  | .act a => inferInstanceAs (Decidable (∀ s ∈ m.system.step rt a, _ ∧ _))
  | .undo | .redo => inferInstanceAs (Decidable True)

end

/-- The system just started on empty files. -/
def start : TimeMachine := { system := System.start }

/-- Any two changes of a row outside transactions, and any two commits, took different versions. -/
def VersionsUnique (m : TimeMachine) : Prop :=
  m.written.Pairwise fun x y ↦ x.2.kind.increments = true → y.2.kind.increments = true →
    (x.1 ≠ y.1 ∨ x.2.kind = .change) → ∀ u ∈ x.2.version?, u ∉ y.2.version?

instance (m : TimeMachine) : Decidable m.VersionsUnique :=
  inferInstanceAs (Decidable (List.Pairwise _ _))

/-- A write is newer than the counter. -/
def Hidden (m : TimeMachine) (w : Install) : Prop :=
  ∃ u ∈ w.version?, m.system.engine.currentVersion < u

/-- What is hidden in a state stays hidden in a later one, from every connection outside a
transaction. -/
def StaysHidden (rt : Runtime) (m m' : TimeMachine) : Prop :=
  ∀ w ∈ m.system.engine.history.installs, m.Hidden w → m'.Hidden w ∧
    ∀ conn, m'.system.engine.activeTransactions.lookup conn = none →
      rt.shown (m'.system.engine.readVersion conn) w.data = none

/-! ### Each move keeps the versions apart -/

section Moves

variable {rt : Runtime} {m m' : TimeMachine}

open Engine

theorem inv_undo {e : Engine} (h : e.Inv rt fun _ ↦ True) : e.undo.Inv rt fun _ ↦ True := by
  rw [undo]
  split
  · -- a counter that is not at zero was incremented, so that the history is beyond its bound
    rename_i hpos
    rintro ⟨hpages, hbumps⟩
    have hbumps : e.history.bumps + (2 ^ 64 - 1) < 2 ^ 64 := hbumps
    have hversion := (h ⟨hpages, by omega⟩).version_eq
    omega
  · exact h

theorem inv_redo {e : Engine} (h : e.Inv rt fun _ ↦ True) : e.redo.Inv rt fun _ ↦ True := fun hb ↦
  (h ⟨hb.pages, (Nat.lt_succ_self _).trans hb.bumps⟩).bump hb

variable [Bincode (WalEntry Bytes Data)]

/-- What a step of the system does to the counter and to the memory tier. -/
theorem takes_step {s s' : System} {a : Action} (h : s.Inv rt fun _ ↦ True)
    (hstep : s.step rt a = some s')
    (hwrap : s.engine.currentVersion + (s'.engine.history.bumps - s.engine.history.bumps) < 2 ^ 64) :
    ∃ new, Takes s.engine s'.engine new := by
  cases System.Step.of_step hstep with
  | call conn command =>
    rw [System.call_engine] at hwrap ⊢
    exact takes_execute h.engine hwrap
  | drainApply entry rest =>
    refine ⟨[], (Takes.refl s.engine).congr ?_ ?_ ?_⟩ <;> cases entry <;> rfl
  | _ => exact ⟨[], (Takes.refl s.engine).congr rfl rfl rfl⟩

/-- **Every move** keeps the invariant of the system. -/
theorem inv_step {x : Move} (h : m.system.Inv rt fun _ ↦ True) (hstep : m.step rt x = some m') :
    m'.system.Inv rt fun _ ↦ True := by
  cases x with
  | act a =>
    obtain ⟨s, hs, rfl⟩ := Option.map_eq_some_iff.1 hstep
    exact (System.step_inv a.columnsIn_true h hs).1
  | undo =>
    obtain rfl := Option.some.inj hstep
    have hbtree : m.system.engine.undo.btree = m.system.engine.btree := by
      rw [undo]
      split <;> rfl
    have hbumps : m.system.engine.history.bumps ≤ m.system.engine.undo.history.bumps := by
      rw [undo]
      split
      · exact Nat.le_add_right _ _
      · exact le_rfl
    refine ⟨inv_undo h.engine, fun hb x hx ↦ ?_⟩
    rw [hbtree]
    exact h.drained ⟨hbtree ▸ hb.pages, hbumps.trans_lt hb.bumps⟩ x hx
  | redo =>
    obtain rfl := Option.some.inj hstep
    exact ⟨inv_redo h.engine, fun hb x hx ↦
      h.drained ⟨hb.pages, (Nat.lt_succ_self _).trans hb.bumps⟩ x hx⟩

/-- What holds in every state of a run that reuses no version. -/
structure Recorded (rt : Runtime) (m : TimeMachine) : Prop where
  inv : m.system.Inv rt fun _ ↦ True
  installs : m.written.map Prod.snd = m.system.engine.history.installs
  moves : ∀ x ∈ m.written, x.1 < m.moves
  unique : m.VersionsUnique

omit [Bincode (WalEntry Bytes Data)] in
theorem recorded_start : start.Recorded rt :=
  ⟨System.inv_start, rfl, nofun, List.Pairwise.nil⟩

theorem Recorded.step (h : m.Recorded rt) {x : Move} (hfresh : m.ReusesNoVersion rt x)
    (hstep : m.step rt x = some m') : m'.Recorded rt := by
  have hinv := inv_step h.inv hstep
  cases x with
  | act a =>
    obtain ⟨s, hs, rfl⟩ := Option.map_eq_some_iff.1 hstep
    obtain ⟨hwrap, hfresh⟩ := hfresh s hs
    obtain ⟨new, htakes⟩ := takes_step h.inv hs hwrap
    have hnew : s.engine.history.installs.drop m.system.engine.history.installs.length = new := by
      rw [htakes.installs, List.drop_left]
    refine ⟨hinv, ?_, fun x hx ↦ ?_, ?_⟩
    · rw [List.map_append, h.installs, hnew, List.map_map, htakes.installs]
      exact congrArg (_ ++ ·) (List.map_id new)
    · rcases List.mem_append.1 hx with hx | hx
      · exact Nat.lt_succ_of_lt (h.moves x hx)
      · obtain ⟨w, -, rfl⟩ := List.mem_map.1 hx
        exact Nat.lt_succ_self _
    · rw [VersionsUnique, hnew]
      refine List.pairwise_append.2 ⟨h.unique, List.pairwise_map.2 ?_, fun x hx y hy _ hinc _ u hu hu' ↦ ?_⟩
      · exact htakes.distinct.imp fun hxy _ hinc hne ↦ hxy (hne.resolve_left fun h ↦ h rfl) hinc
      · obtain ⟨w, hw, rfl⟩ := List.mem_map.1 hy
        have habove := htakes.above w hw hinc u hu'
        rw [htakes.version] at habove
        have hold := hfresh x.2 (h.installs ▸ List.mem_map_of_mem hx) u hu
        omega
  | undo =>
    obtain rfl := Option.some.inj hstep
    have hinstalls : m.system.engine.undo.history.installs = m.system.engine.history.installs := by
      rw [undo]
      split <;> rfl
    exact ⟨hinv, h.installs.trans hinstalls.symm, fun x hx ↦ Nat.lt_succ_of_lt (h.moves x hx),
      h.unique⟩
  | redo =>
    obtain rfl := Option.some.inj hstep
    exact ⟨hinv, h.installs, fun x hx ↦ Nat.lt_succ_of_lt (h.moves x hx), h.unique⟩

theorem Recorded.run : ∀ {moves : List Move} {m m' : TimeMachine}, m.Recorded rt →
    m.Along rt (ReusesNoVersion rt) moves → m.run rt moves = some m' → m'.Recorded rt
  | [], _, _, h, _, hrun => Option.some.inj hrun ▸ h
  | _ :: moves, _, _, h, halong, hrun => by
    obtain ⟨t, ht, hrun⟩ := Option.bind_eq_some_iff.1 hrun
    exact Recorded.run (h.step halong.1 ht) (halong.2 t ht) hrun

/-- What is hidden stays hidden in a move that is no `redo`. -/
theorem Recorded.hidden (h : m.Recorded rt) {x : Move} (hfresh : m.ReusesNoVersion rt x)
    (hx : x ≠ .redo) (hstep : m.step rt x = some m') {w : Install}
    (hw : w ∈ m.system.engine.history.installs) (hhidden : m.Hidden w) :
    w ∈ m'.system.engine.history.installs ∧ m'.Hidden w := by
  obtain ⟨u, hu, hlt⟩ := hhidden
  cases x with
  | act a =>
    obtain ⟨s, hs, rfl⟩ := Option.map_eq_some_iff.1 hstep
    obtain ⟨hwrap, hfresh⟩ := hfresh s hs
    obtain ⟨new, htakes⟩ := takes_step h.inv hs hwrap
    have hold := hfresh w hw u hu
    have hversion := htakes.version
    refine ⟨?_, u, hu, by dsimp only; omega⟩
    dsimp only
    rw [htakes.installs]
    exact List.mem_append_left _ hw
  | undo =>
    obtain rfl := Option.some.inj hstep
    have hundo : m.system.engine.undo.history.installs = m.system.engine.history.installs ∧
        m.system.engine.undo.currentVersion ≤ m.system.engine.currentVersion := by
      rw [undo]
      split
      · exact ⟨rfl, Nat.sub_le _ _⟩
      · exact ⟨rfl, le_rfl⟩
    exact ⟨hundo.1 ▸ hw, u, hu, hundo.2.trans_lt hlt⟩
  | redo => exact absurd rfl hx

theorem Recorded.hidden_run : ∀ {moves : List Move} {m m' : TimeMachine}, m.Recorded rt →
    m.Along rt (ReusesNoVersion rt) moves → .redo ∉ moves → m.run rt moves = some m' →
    ∀ {w : Install}, w ∈ m.system.engine.history.installs → m.Hidden w → m'.Hidden w
  | [], _, _, _, _, _, hrun, _, _, hhidden => Option.some.inj hrun ▸ hhidden
  | x :: moves, _, _, h, halong, hredo, hrun, _, hw, hhidden => by
    obtain ⟨t, ht, hrun⟩ := Option.bind_eq_some_iff.1 hrun
    have hx : x ≠ .redo := fun hx ↦ hredo (hx ▸ List.mem_cons_self)
    obtain ⟨hw', hhidden'⟩ := h.hidden halong.1 hx ht hw hhidden
    exact Recorded.hidden_run (h.step halong.1 ht) (halong.2 t ht)
      (fun hmem ↦ hredo (List.mem_cons_of_mem _ hmem)) hrun hw' hhidden'

/-- The rest of a run keeps the condition. -/
theorem along_append {P : TimeMachine → Move → Prop} : ∀ {before after : List Move}
    {m m₁ : TimeMachine}, m.Along rt P (before ++ after) → m.run rt before = some m₁ →
    m.Along rt P before ∧ m₁.Along rt P after
  | [], _, _, _, halong, hrun => ⟨trivial, Option.some.inj hrun ▸ halong⟩
  | x :: before, after, _, _, halong, hrun => by
    obtain ⟨t, ht, hrun⟩ := Option.bind_eq_some_iff.1 hrun
    obtain ⟨hbefore, hafter⟩ := along_append (halong.2 t ht) hrun
    refine ⟨⟨halong.1, fun t' ht' ↦ ?_⟩, hafter⟩
    rw [ht] at ht'
    exact Option.some.inj ht' ▸ hbefore

theorem run_append {before after : List Move} {m m₁ : TimeMachine}
    (hrun : m.run rt before = some m₁) : m.run rt (before ++ after) = m₁.run rt after := by
  induction before generalizing m with
  | nil => rw [← Option.some.inj hrun]; rfl
  | cons x before ih =>
    obtain ⟨t, ht, hrun⟩ := Option.bind_eq_some_iff.1 hrun
    rw [List.cons_append, run, ht]
    exact ih hrun

/-- **Versions are not reused**, where no increment by a statement wraps the counter around or brings
it to a version that a write carries: in every run any two changes outside transactions and any two
commits took different versions, and what is hidden at some point stays hidden from every connection
outside a transaction up to the next `redo`. -/
theorem versions_unique {moves : List Move} (hrun : start.run rt moves = some m)
    (hfresh : start.Along rt (ReusesNoVersion rt) moves) :
    m.VersionsUnique ∧ ∀ before after m₁, moves = before ++ after → start.run rt before = some m₁ →
      .redo ∉ after → StaysHidden rt m₁ m := by
  refine ⟨(recorded_start.run hfresh hrun).unique, ?_⟩
  rintro before after m₁ rfl hbefore hredo w hw hhidden
  obtain ⟨hfresh₁, hfresh₂⟩ := along_append hfresh hbefore
  rw [run_append hbefore] at hrun
  have hlater := (recorded_start.run hfresh₁ hbefore).hidden_run hfresh₂ hredo hrun hw hhidden
  refine ⟨hlater, fun conn hconn ↦ ?_⟩
  obtain ⟨u, hu, hlt⟩ := hlater
  rcases hdata : w.data with r | key
  · have hversion : r.version = u := by
      rw [Install.version?, hdata] at hu
      exact Option.some.inj hu
    have hread : m.system.engine.readVersion conn < r.version := by
      rw [readVersion, hconn, hversion]
      exact hlt
    rw [Runtime.shown]
    exact if_neg fun h ↦ absurd h.1 (Nat.not_le_of_lt hread)
  · rw [Install.version?, hdata] at hu
    cases hu

end Moves

/-! ### Two rows -/

open Engine

/-- A table with two rows, of which one is updated; all that is queued is flushed. -/
def updatedFirst : List Action :=
  [.call 1 (createTableOf "u" ["id"]), .call 1 (insertTwo "u" "a" "b"), .flushRound, .flushRound,
    .flushRound, .flushRound, .call 1 (updateOf "u" "id" "c" (some (whereIs "id" "a"))), .flushRound,
    .flushRound]

/-- The other row is updated. -/
def updateSecond : Move := .act (.call 1 (updateOf "u" "id" "d" (some (whereIs "id" "b"))))

/-- An `undo` that is taken back before the next write, and one behind it. -/
theorem versions_unique_redone : let _ := plainBincode []
    ∃ m, start.run .plain (updatedFirst.map .act ++ [.undo, .redo, updateSecond, .undo]) = some m ∧
      m.written.filterMap (fun x ↦ x.2.version?) = [0, 0, 1, 2] ∧
      m.VersionsUnique ∧ ∀ before after m₁,
        updatedFirst.map .act ++ [.undo, .redo, updateSecond, .undo] = before ++ after →
        start.run .plain before = some m₁ → .redo ∉ after → StaysHidden .plain m₁ m := by
  have hfresh : @Along (plainBincode []) .plain (@ReusesNoVersion (plainBincode []) .plain) start
      (updatedFirst.map .act ++ [.undo, .redo, updateSecond, .undo]) := by decide +kernel
  intro encoding
  obtain ⟨m, hm⟩ : ∃ m, start.run .plain
      (updatedFirst.map .act ++ [.undo, .redo, updateSecond, .undo]) = some m :=
    Option.isSome_iff_exists.1 (by decide +kernel)
  have hversions : (start.run .plain (updatedFirst.map .act ++ [.undo, .redo, updateSecond, .undo])).all
      (fun m ↦ decide (m.written.filterMap (fun x ↦ x.2.version?) = [0, 0, 1, 2])) = true := by
    decide +kernel
  rw [hm, Option.all_some, decide_eq_true_iff] at hversions
  exact ⟨m, hm, hversions, versions_unique hm hfresh⟩

/-- **A version taken twice.** A write behind an `undo` takes the version of the write that was undone,
which is then shown again. -/
theorem not_versions_unique : ¬ ∀ (_ : Bincode (WalEntry Bytes Data)) (rt : Runtime) (moves : List Move)
    (m : TimeMachine), start.run rt moves = some m → m.VersionsUnique ∧ ∀ before after m₁,
      moves = before ++ after → start.run rt before = some m₁ → .redo ∉ after →
        StaysHidden rt m₁ m := by
  intro h
  let _ := plainBincode []
  obtain ⟨m, hm⟩ : ∃ m, start.run .plain (updatedFirst.map .act ++ [.undo, updateSecond]) = some m :=
    Option.isSome_iff_exists.1 (by decide +kernel)
  have hreused : (start.run .plain (updatedFirst.map .act ++ [.undo, updateSecond])).all
      (fun m ↦ decide ¬ m.VersionsUnique) = true := by decide +kernel
  rw [hm, Option.all_some, decide_eq_true_iff] at hreused
  exact hreused (h _ .plain _ m hm).1

end TimeMachine

end KsSql
