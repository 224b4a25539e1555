import KsSql.Parser.Handlers
import KsSql.Parser.System
import KsSql.Storage.WalSteps

/-!
# Runs of the system

Every step of the system keeps coherence (`System.step_inv`), so every state that a run reaches is
coherent while nothing has wrapped around (`coherent_of_run`). The steps beside the statements move
entries from the queue to the drain thread, to a batch or to nowhere, insert what was enqueued into
the tree, or remove entries from the memory tier.
-/

namespace KsSql

open Engine

theorem Command.columnsIn_true (command : Command) : command.ColumnsIn fun _ ↦ True := by
  unfold Command.ColumnsIn
  split
  · exact fun _ _ ↦ trivial
  · exact fun _ _ _ _ ↦ trivial
  · trivial

/-- The columns that a step gives a name to lie in `N`. -/
def Action.ColumnsIn (N : Bytes → Prop) : Action → Prop
  | .call _ command => command.ColumnsIn N
  | _ => True

theorem Action.columnsIn_true (a : Action) : a.ColumnsIn fun _ ↦ True := by
  unfold Action.ColumnsIn
  split
  · exact Command.columnsIn_true _
  · trivial

namespace System

variable {rt : Runtime} {N : Bytes → Prop} {s s' : System}

/-- The engine is coherent, and the drain thread holds entries that were enqueued. -/
structure Inv (rt : Runtime) (N : Bytes → Prop) (s : System) : Prop where
  engine : s.engine.Inv rt N
  drained : s.engine.Bounded → ∀ x ∈ s.drain.entries, x ∈ s.engine.btree.wal.enqueued

theorem inv_start : start.Inv rt N := ⟨fun _ ↦ coherent_empty, fun _ _ hx ↦ nomatch hx⟩

/-! ### The steps beside the statements -/

theorem coherent_withWal {wal : Wal Bytes Data} (h : s.engine.Coherent rt N)
    (hwal : s.engine.btree.wal.Consumes wal) : (s.withWal wal).engine.Coherent rt N := by
  have henqueued : (s.withWal wal).engine.btree.wal.enqueued = s.engine.btree.wal.enqueued :=
    hwal.enqueued
  exact {
    version_eq := h.version_eq
    sound := by
      have hsound : BPlusTree.Sound ((s.withWal wal).engine.Stored N) s.engine.btree :=
        h.sound.mono fun k d hs ↦ hs.mono (henqueued ▸ List.Subset.refl _) le_rfl
      exact hsound.congr rfl
    known := fun k d hd ↦ h.known k d (henqueued ▸ hd)
    queued := fun x hx ↦ by
      rw [henqueued]
      exact h.queued x (hwal.queue.subset hx)
    legit := h.legit
    tier := h.tier
    full := h.full
    columns := h.columns
    snapshot := h.snapshot
    buffered := h.buffered }

theorem coherent_withTier {tier : MemoryTier Bytes Data} (h : s.engine.Coherent rt N)
    (htier : ∀ k d, tier.get k = some d → s.engine.btree.memoryTier.get k = some d) :
    (s.withTier tier).engine.Coherent rt N where
  version_eq := h.version_eq
  sound := h.sound.congr rfl
  known := h.known
  queued := h.queued
  legit := h.legit
  tier k d hd := h.tier k d (htier k d hd)
  full hev := absurd hev (Nat.succ_ne_zero _)
  columns := h.columns
  snapshot := h.snapshot
  buffered := h.buffered

theorem grows_withWal {wal : Wal Bytes Data} (hwal : s.engine.btree.wal.Consumes wal) :
    Grows s.engine (s.withWal wal).engine :=
  ⟨List.prefix_rfl, by rw [withWal, hwal.enqueued], List.prefix_rfl, le_rfl, le_rfl, le_rfl, le_rfl⟩

theorem inv_withWal {wal : Wal Bytes Data} (h : s.Inv rt N)
    (hwal : s.engine.btree.wal.Consumes wal) : (s.withWal wal).Inv rt N where
  engine hb := coherent_withWal (h.engine ((grows_withWal hwal).bounded hb)) hwal
  drained hb x hx := by
    rw [withWal, hwal.enqueued]
    exact h.drained ((grows_withWal hwal).bounded hb) x hx

/-- The drain thread inserting an entry. -/
theorem grows_applyEntry (e : Engine) (entry : WalEntry Bytes Data) :
    Grows e (applyEntry rt e entry) := by
  cases entry with
  | recordUpdate key data =>
    have hframe := BPlusTree.insert_frame rt.search e.btree key data
    obtain ⟨images, -, hwal⟩ := hframe.wal
    exact ⟨List.prefix_rfl, by rw [applyEntry, hwal]; exact List.prefix_append _ _,
      List.prefix_rfl, hframe.handedOut, le_rfl, le_rfl, le_rfl⟩
  | _ => exact Grows.refl e

theorem inv_applyEntry {e : Engine} {entry : WalEntry Bytes Data} (h : e.Inv rt N)
    (hentry : e.Bounded → entry ∈ e.btree.wal.enqueued) : (applyEntry rt e entry).Inv rt N := by
  intro hb
  have hb₀ := (grows_applyEntry e entry).bounded hb
  have hco := h hb₀
  cases entry with
  | recordUpdate key data => exact hco.insertTree (Or.inl (hentry hb₀)) hb.pages
  | _ => exact hco

/-! ### Every step -/

/-- What a request leaves of the engine. -/
theorem call_engine (rt : Runtime) (s : System) (conn : Nat) (command : Command) :
    (s.call rt conn command).engine = (execute rt command conn s.engine).2 := by
  rw [call]
  split <;> rename_i heq <;> rw [heq]

theorem inv_call {conn : Nat} {command : Command} (h : s.Inv rt N)
    (hcolumns : command.ColumnsIn N) :
    Progress rt N command conn s.engine (s.call rt conn command).engine ∧
      (s.call rt conn command).Inv rt N := by
  have hprog : Progress rt N command conn s.engine _ := progress_execute h.engine hcolumns
  have hdrain : (s.call rt conn command).drain = s.drain := by
    rw [call]
    split <;> rfl
  rw [← call_engine] at hprog
  exact ⟨hprog, hprog.inv h.engine, fun hb x hx ↦
    hprog.grows.enqueued.subset (h.drained (hprog.grows.bounded hb) x (hdrain ▸ hx))⟩

variable [Bincode (WalEntry Bytes Data)]

/-- **What a step can do**, one constructor for each outcome. -/
inductive Step (rt : Runtime) (s : System) : Action → System → Prop
  | call (conn : Nat) (command : Command) :
      s.phase = .idle → Step rt s (.call conn command) (s.call rt conn command)
  | flushRound (f : Wal.Flush) (discard : Bool) (phase : Phase) :
      s.phase = .flushing f discard →
      Step rt s .flushRound
        { s.withWal (s.engine.btree.wal.flushRound f).1 with phase := phase }
  | discardEntry (entry : WalEntry Bytes Data) (wal : Wal Bytes Data) :
      s.phase = .discarding → s.engine.btree.wal.popEntry = some (entry, wal) →
      Step rt s .discardRound (s.withWal wal)
  | discardEnd : s.phase = .discarding → Step rt s .discardRound { s with phase := .idle }
  | drainPop (entry : WalEntry Bytes Data) (wal : Wal Bytes Data) :
      s.engine.btree.wal.popEntry = some (entry, wal) →
      Step rt s .drainPop
        { s.withWal wal with drain := { s.drain with entries := s.drain.entries ++ [entry] } }
  | drainStart : Step rt s .drainStart { s with drain := { s.drain with applying := true } }
  | drainApply (entry : WalEntry Bytes Data) (rest : List (WalEntry Bytes Data)) :
      s.drain.entries = entry :: rest →
      Step rt s .drainApply { s with engine := applyEntry rt s.engine entry
                                     drain := { s.drain with entries := rest } }
  | drainEnd : s.drain.entries = [] → Step rt s .drainApply { s with drain := {} }
  | writeBatch : Step rt s .writeBatch (s.withWal s.engine.btree.wal.writeBatch)
  | evict (keys : List Bytes) :
      Step rt s (.evict keys)
        (s.withTier (keys.foldl (fun tier key ↦ tier.remove key) s.engine.btree.memoryTier))
  | purge : Step rt s .purge (s.withTier s.engine.btree.memoryTier.clear)

theorem Step.of_step {a : Action} (h : s.step rt a = some s') : Step rt s a s' := by
  cases a <;> rw [step] at h
  case call conn command =>
    split at h
    · rename_i hphase
      cases h
      exact .call conn command hphase
    · cases h
  case flushRound =>
    split at h
    · rename_i f discard hphase
      split at h <;> rename_i heq <;> cases h
      · have hstep : Step rt s _ _ := .flushRound f discard s.phase hphase
        rw [heq] at hstep
        exact hstep
      · have hstep : Step rt s _ _ := .flushRound f discard (if discard then .discarding else .idle) hphase
        rw [heq] at hstep
        exact hstep
    · cases h
  case discardRound =>
    split at h
    · rename_i hphase
      split at h
      · rename_i heq
        cases h
        exact .discardEntry _ _ hphase heq
      · cases h
        exact .discardEnd hphase
    · cases h
  case drainPop =>
    split at h
    · split at h
      · rename_i heq
        cases h
        exact .drainPop _ _ heq
      · cases h
    · cases h
  case drainStart =>
    split at h
    · cases h
      exact .drainStart
    · cases h
  case drainApply =>
    split at h
    · split at h
      · rename_i hentries
        cases h
        exact .drainEnd hentries
      · rename_i hentries
        cases h
        exact .drainApply _ _ hentries
    · cases h
  case writeBatch =>
    split at h
    · cases h
    · cases h
      exact .writeBatch
  case evict keys =>
    cases h
    exact .evict keys
  case purge =>
    cases h
    exact .purge

/-- **Every step** keeps the invariant, and only adds to what was done. -/
theorem step_inv {a : Action} (ha : a.ColumnsIn N) (h : s.Inv rt N)
    (hstep : s.step rt a = some s') : s'.Inv rt N ∧ Grows s.engine s'.engine := by
  cases Step.of_step hstep with
  | call conn command _ =>
    obtain ⟨hprog, hinv⟩ : Progress rt N command conn s.engine _ ∧ _ := inv_call h ha
    exact ⟨hinv, hprog.grows⟩
  | flushRound f discard phase _ =>
    have hwal := Wal.consumes_flushRound (w := s.engine.btree.wal) f
    have hinv := inv_withWal h hwal
    exact ⟨⟨hinv.engine, hinv.drained⟩, grows_withWal hwal⟩
  | discardEntry entry wal _ heq =>
    have hwal := (Wal.consumes_popEntry heq).1
    exact ⟨inv_withWal h hwal, grows_withWal hwal⟩
  | discardEnd _ | drainStart => exact ⟨⟨h.engine, h.drained⟩, Grows.refl _⟩
  | drainPop entry wal heq =>
    obtain ⟨hwal, hqueue⟩ := Wal.consumes_popEntry heq
    have hinv := inv_withWal h hwal
    have hgrows := grows_withWal hwal
    refine ⟨⟨hinv.engine, fun hb x hx ↦ ?_⟩, hgrows⟩
    rcases List.mem_append.1 hx with hx | hx
    · exact hinv.drained hb x hx
    · have hco := h.engine (hgrows.bounded hb)
      rw [List.mem_singleton.1 hx]
      show entry ∈ (s.withWal wal).engine.btree.wal.enqueued
      rw [withWal, hwal.enqueued]
      exact hco.queued entry (hqueue ▸ List.mem_cons_self)
  | drainApply entry rest hentries =>
    have hmem : s.engine.Bounded → ∀ x ∈ entry :: rest,
        x ∈ s.engine.btree.wal.enqueued := hentries ▸ h.drained
    have hgrows : Grows s.engine (applyEntry rt s.engine entry) := grows_applyEntry _ _
    refine ⟨⟨inv_applyEntry h.engine fun hb ↦ hmem hb entry List.mem_cons_self,
      fun hb x hx ↦ ?_⟩, hgrows⟩
    exact hgrows.enqueued.subset (hmem (hgrows.bounded hb) x (List.mem_cons_of_mem _ hx))
  | drainEnd _ => exact ⟨⟨h.engine, fun _ x hx ↦ (nomatch hx)⟩, Grows.refl _⟩
  | writeBatch =>
    have hwal := Wal.consumes_writeBatch (w := s.engine.btree.wal)
    exact ⟨inv_withWal h hwal, grows_withWal hwal⟩
  | evict keys =>
    refine ⟨⟨fun hb ↦ coherent_withTier (h.engine ⟨hb.pages, hb.bumps⟩)
      fun k d hd ↦ MemoryTier.get_of_get_foldl_remove hd,
      fun hb ↦ h.drained ⟨hb.pages, hb.bumps⟩⟩, ?_⟩
    exact ⟨List.prefix_rfl, List.prefix_rfl, List.prefix_rfl, le_rfl, le_rfl, le_rfl, Nat.le_succ _⟩
  | purge =>
    refine ⟨⟨fun hb ↦ coherent_withTier (h.engine ⟨hb.pages, hb.bumps⟩)
      fun k d hd ↦ (nomatch hd), fun hb ↦ h.drained ⟨hb.pages, hb.bumps⟩⟩, ?_⟩
    exact ⟨List.prefix_rfl, List.prefix_rfl, List.prefix_rfl, le_rfl, le_rfl, le_rfl, Nat.le_succ _⟩

/-- **Every run** keeps the invariant. -/
theorem inv_of_run {actions : List Action} (ha : ∀ a ∈ actions, a.ColumnsIn N)
    (hrun : start.run rt actions = some s) : s.Inv rt N :=
  run_invariant (I := fun s ↦ s.Inv rt N) (fun _ _ _ ha h hstep ↦ (step_inv ha h hstep).1) ha
    inv_start hrun

/-- Every state that a run reaches is coherent while nothing has wrapped around. -/
theorem coherent_of_run {actions : List Action} (hrun : start.run rt actions = some s)
    (hb : s.engine.Bounded) : s.engine.Coherent rt fun _ ↦ True :=
  (inv_of_run (fun a _ ↦ a.columnsIn_true) hrun).engine hb

end System

end KsSql
