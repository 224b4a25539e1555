import KsSql.Parser.Progress

/-!
# Coherence is kept

Each of the changes that statements make keeps the invariant `Coherent`, one lemma for each kind of
change, and so does `Progress`.
-/

namespace KsSql

namespace Engine

variable {rt : Runtime} {N : Bytes → Prop} {command : Command} {conn : Nat} {e e' : Engine}

/-! ### What is known stays known -/

theorem Known.mono {key : Bytes} {data : Data} (h : e.Known N key data)
    (hi : e.history.installs ⊆ e'.history.installs) (hv : e.currentVersion ≤ e'.currentVersion) :
    e'.Known N key data := by
  rcases h with ⟨w, hw, heq⟩ | ⟨hlegit, hkey⟩
  · exact Or.inl ⟨w, hi hw, heq⟩
  · exact Or.inr ⟨hlegit.mono hv, hkey⟩

theorem Origin.mono {key : Bytes} {data : Data} (h : e.Origin key data)
    (hi : e.history.installs ⊆ e'.history.installs) : e'.Origin key data :=
  h.imp (fun ⟨w, hw, heq⟩ ↦ ⟨w, hi hw, heq⟩) id

theorem HasRecord.mono {key : Bytes} (h : e.HasRecord rt N key)
    (hi : e.history.installs ⊆ e'.history.installs) (hv : e.currentVersion ≤ e'.currentVersion) :
    e'.HasRecord rt N key := by
  obtain ⟨data, record, hknown, hrecord⟩ := h
  exact ⟨data, record, hknown.mono hi hv, hrecord⟩

theorem Stored.mono {key : Bytes} {data : Data} (h : e.Stored N key data)
    (hi : e.btree.wal.enqueued ⊆ e'.btree.wal.enqueued)
    (hv : e.currentVersion ≤ e'.currentVersion) : e'.Stored N key data := by
  rcases h with h | ⟨hkey, hlegit⟩
  · exact Or.inl (hi h)
  · exact Or.inr ⟨hkey, hlegit.mono hv⟩

/-- What the tree stores is known. -/
theorem Coherent.known_of_stored (h : e.Coherent rt N) {key : Bytes} {data : Data}
    (hs : e.Stored N key data) : e.Known N key data := by
  rcases hs with hs | ⟨hkey, hlegit⟩
  · exact h.known key data hs
  · exact Or.inr ⟨hlegit, Or.inl hkey⟩

/-- What is known may be stored. -/
theorem Coherent.legit_of_known (h : e.Coherent rt N) {key : Bytes} {data : Data}
    (hk : e.Known N key data) : Legit N e.currentVersion key data := by
  rcases hk with ⟨w, hw, rfl, rfl⟩ | ⟨hlegit, -⟩
  · exact h.legit w hw
  · exact hlegit

theorem mem_installs_of_lastInstalled {key : Bytes} {data : Data}
    (h : e.lastInstalled key = some data) :
    ∃ w ∈ e.history.installs, w.key = key ∧ w.data = data := by
  have hmem := BPlusTree.mem_of_lookup_eq_some h
  rw [List.mem_reverse, List.mem_map] at hmem
  obtain ⟨w, hw, heq⟩ := hmem
  exact ⟨w, hw, (Prod.mk.inj heq).1, (Prod.mk.inj heq).2⟩

/-- Something was installed last under a key that was written. -/
theorem exists_lastInstalled {w : Install} (hw : w ∈ e.history.installs) :
    ∃ data, e.lastInstalled w.key = some data :=
  exists_lastInserted (List.mem_map_of_mem (f := fun w : Install ↦ (w.key, w.data)) hw)

/-- What the memory tier holds is known. -/
theorem Coherent.known_of_tier (h : e.Coherent rt N) {key : Bytes} {data : Data}
    (ht : e.btree.memoryTier.get key = some data) : e.Known N key data :=
  Or.inl (mem_installs_of_lastInstalled (h.tier key data ht))

/-- A lookup does not fail, and what it finds is known. -/
theorem Coherent.fetch (h : e.Coherent rt N) (key : Bytes) :
    ∃ data, e.fetch rt key = .ok data ∧ ∀ d, data = some d → e.Known N key d := by
  rcases htier : e.btree.memoryTier.get key with - | d
  · obtain ⟨r, hr, hrel⟩ := BPlusTree.getPages_sound rt.search h.sound key
    refine ⟨r, ?_, fun d hd ↦ h.known_of_stored (hrel d hd)⟩
    simp only [Engine.fetch, BPlusTree.get, htier, hr]
  · refine ⟨some d, ?_, fun d' hd ↦ ?_⟩
    · simp only [Engine.fetch, BPlusTree.get, htier]
    · cases hd
      exact h.known_of_tier htier

/-- The entries that a scan meets are known. -/
theorem Coherent.known_of_entries (h : e.Coherent rt N) {x : Bytes × Data}
    (hx : x ∈ e.entries rt) : e.Known N x.1 x.2 := by
  rcases List.mem_append.1 hx with hx | hx
  · exact h.known_of_tier (mem_iterate_iff.1 hx)
  · exact h.known_of_stored (BPlusTree.rel_of_mem_leafEntries h.sound hx)

/-! ### Each change keeps coherence -/

theorem Coherent.draw (h : e.Coherent rt N) (key : Bytes) : (e.draw conn key).Coherent rt N where
  version_eq := h.version_eq
  sound := h.sound
  known := h.known
  queued := h.queued
  legit := h.legit
  tier := h.tier
  full := h.full
  columns := h.columns
  snapshot := h.snapshot
  buffered c tx htx k d hd := by
    obtain ⟨hrecord, horigin⟩ := h.buffered c tx htx k d hd
    exact ⟨hrecord, horigin.imp id fun hk ↦ List.mem_append_left _ hk⟩

theorem Coherent.bump (h : e.Coherent rt N) (hb : e.bump.Bounded) : e.bump.Coherent rt N := by
  have hversion : e.bump.currentVersion = e.currentVersion + 1 := by
    have := hb.bumps
    refine Nat.mod_eq_of_lt ?_
    rw [h.version_eq]
    exact this
  have hle : e.currentVersion ≤ e.bump.currentVersion := hversion ▸ Nat.le_succ _
  exact {
    version_eq := by rw [hversion, h.version_eq]; rfl
    sound := h.sound.mono fun k d hs ↦ Stored.mono hs (List.Subset.refl _) hle
    known := fun k d hd ↦ (h.known k d hd).mono (List.Subset.refl _) hle
    queued := h.queued
    legit := fun w hw ↦ (h.legit w hw).mono hle
    tier := h.tier
    full := h.full
    columns := h.columns
    snapshot := fun c tx htx ↦ (h.snapshot c tx htx).trans hle
    buffered := fun c tx htx k d hd ↦ by
      obtain ⟨hrecord, horigin⟩ := h.buffered c tx htx k d hd
      exact ⟨hrecord, horigin.imp (fun hk ↦ hk.mono (List.Subset.refl _) hle) id⟩ }

theorem lastInstalled_install (w : Install) (e : Engine) (key : Bytes) :
    (e.install rt w).lastInstalled key =
      if key = w.key then some w.data else e.lastInstalled key := by
  rw [lastInstalled, Engine.install, List.map_append, List.map_singleton, lastInserted_append]
  rfl

theorem Coherent.install (h : e.Coherent rt N) {w : Install}
    (hw : Legit N e.currentVersion w.key w.data) : (e.install rt w).Coherent rt N where
  version_eq := h.version_eq
  sound := h.sound.congr rfl
  known k d hd := (h.known k d hd).mono (List.subset_append_left _ _) le_rfl
  queued := h.queued
  legit w' hw' := by
    rcases List.mem_append.1 hw' with hw' | hw'
    · exact h.legit w' hw'
    · rw [List.mem_singleton.1 hw']
      exact hw
  tier k d hd := by
    rw [lastInstalled_install]
    rcases MemoryTier.get_insert_cases hd with ⟨rfl, rfl⟩ | ⟨hne, hd⟩
    · rw [if_pos rfl]
    · rw [if_neg hne]
      exact h.tier k d hd
  full hev k := by
    have hev : e.history.evictions + (if e.btree.memoryTier.overLimit then 1 else 0) = 0 := hev
    have hlimit : e.btree.memoryTier.overLimit = false := by
      by_contra hover
      rw [if_pos (by simpa using hover)] at hev
      omega
    rw [lastInstalled_install, ← h.full (by omega) k]
    exact MemoryTier.get_insert hlimit _ _ _ _
  columns := h.columns
  snapshot := h.snapshot
  buffered c tx htx k d hd := by
    obtain ⟨hrecord, horigin⟩ := h.buffered c tx htx k d hd
    exact ⟨hrecord, horigin.imp (fun hk ↦ hk.mono (List.subset_append_left _ _) le_rfl) id⟩

theorem Coherent.buffer (h : e.Coherent rt N) {tx : Transaction}
    (htx : e.activeTransactions.lookup conn = some tx) {key : Bytes} {r : Record}
    (hr : PayloadOk N key r.value)
    (horigin : e.HasRecord rt N key ∨ (conn, key) ∈ e.history.drawn) :
    (e.buffer conn tx key (.record r)).Coherent rt N where
  version_eq := h.version_eq
  sound := h.sound
  known := h.known
  queued := h.queued
  legit := h.legit
  tier := h.tier
  full := h.full
  columns := h.columns
  snapshot c tx' htx' := by
    rw [Engine.buffer, HashMap.lookup_insert_eq_ite] at htx'
    split at htx'
    · cases htx'
      exact h.snapshot conn tx htx
    · exact h.snapshot c tx' htx'
  buffered c tx' htx' k d hd := by
    rw [Engine.buffer, HashMap.lookup_insert_eq_ite] at htx'
    split at htx'
    · rename_i hc
      cases htx'
      subst hc
      rw [HashMap.lookup_insert_eq_ite] at hd
      split at hd
      · rename_i hk
        cases hd
        subst hk
        exact ⟨⟨r, rfl, hr⟩, horigin⟩
      · exact h.buffered c tx htx k d hd
    · exact h.buffered c tx' htx' k d hd

theorem Coherent.pushed (h : e.Coherent rt N) {key : Bytes} {data : Data}
    (hknown : e.Known N key data) : (e.pushed key data).Coherent rt N where
  version_eq := h.version_eq
  sound := by
    have hsound : BPlusTree.Sound ((e.pushed key data).Stored N) e.btree :=
      h.sound.mono fun k d hs ↦ hs.mono (List.subset_append_left _ _) le_rfl
    exact hsound.congr rfl
  known k d hd := by
    rcases List.mem_append.1 hd with hd | hd
    · exact h.known k d hd
    · cases List.mem_singleton.1 hd
      exact hknown
  queued x hx := by
    rcases List.mem_append.1 hx with hx | hx
    · exact List.mem_append_left _ (h.queued x hx)
    · exact List.mem_append_right _ hx
  legit := h.legit
  tier := h.tier
  full := h.full
  columns := h.columns
  snapshot := h.snapshot
  buffered := h.buffered

/-- The tree may be given data that it may store. -/
theorem Coherent.insertTree (h : e.Coherent rt N) {key : Bytes} {data : Data}
    (hs : e.Stored N key data)
    (hb : (e.btree.insert rt.search key data).2.PagesBelow) :
    ({ e with btree := (e.btree.insert rt.search key data).2 } : Engine).Coherent rt N := by
  have hframe := BPlusTree.insert_frame rt.search e.btree key data
  obtain ⟨images, himages, hwal⟩ := hframe.wal
  have henqueued : ∀ k d, WalEntry.recordUpdate k d ∈
      (e.btree.insert rt.search key data).2.wal.enqueued →
        WalEntry.recordUpdate k d ∈ e.btree.wal.enqueued := by
    intro k d hd
    rw [hwal] at hd
    rcases List.mem_append.1 hd with hd | hd
    · exact hd
    · obtain ⟨pid, n, heq⟩ := himages _ hd
      cases heq
  have hsound := (BPlusTree.insert_sound rt.search h.sound hs hb).1
  exact {
    version_eq := h.version_eq
    sound := hsound.mono fun k d hkd ↦ hkd.imp
      (fun hd ↦ by rw [hwal]; exact List.mem_append_left _ hd) id
    known := fun k d hd ↦ h.known k d (henqueued k d hd)
    queued := fun x hx ↦ by
      rw [hwal] at hx ⊢
      exact List.mem_append.2 ((List.mem_append.1 hx).imp (h.queued x) id)
    legit := h.legit
    tier := fun k d hd ↦ h.tier k d (by rwa [hframe.memoryTier] at hd)
    full := fun hev k ↦ by
      show (e.btree.insert rt.search key data).2.memoryTier.get k = _
      rw [hframe.memoryTier]
      exact h.full hev k
    columns := h.columns
    snapshot := h.snapshot
    buffered := h.buffered }

theorem Coherent.opened (h : e.Coherent rt N) : (e.opened conn).Coherent rt N where
  version_eq := h.version_eq
  sound := h.sound
  known := h.known
  queued := h.queued
  legit := h.legit
  tier := h.tier
  full := h.full
  columns := h.columns
  snapshot c tx htx := by
    rw [Engine.opened, HashMap.lookup_insert_eq_ite] at htx
    split at htx
    · cases htx; exact le_rfl
    · exact h.snapshot c tx htx
  buffered c tx htx k d hd := by
    rw [Engine.opened, HashMap.lookup_insert_eq_ite] at htx
    split at htx
    · cases htx; cases hd
    · exact h.buffered c tx htx k d hd

/-- A transaction that is open after one was closed was open before. -/
theorem lookup_of_lookup_closed {c : Nat} {tx : Transaction}
    (htx : (e.closed conn).activeTransactions.lookup c = some tx) :
    c ≠ conn ∧ e.activeTransactions.lookup c = some tx := by
  by_cases hc : c = conn
  · subst hc
    rw [Engine.closed, AList.lookup_erase] at htx
    cases htx
  · rw [Engine.closed, AList.lookup_erase_ne hc] at htx
    exact ⟨hc, htx⟩

theorem Coherent.closed (h : e.Coherent rt N) : (e.closed conn).Coherent rt N where
  version_eq := h.version_eq
  sound := h.sound
  known := h.known
  queued := h.queued
  legit := h.legit
  tier := h.tier
  full := h.full
  columns := h.columns
  snapshot c tx htx := h.snapshot c tx (lookup_of_lookup_closed htx).2
  buffered c tx htx := h.buffered c tx (lookup_of_lookup_closed htx).2

/-- The records that statements write may be stored at the current version. -/
theorem legit_of_payloadOk {key : Bytes} {r : Record} {v : Nat} (h : PayloadOk N key r.value) :
    Legit N v key (.record { r with version := v }) := legit_record le_rfl h

/-- **Every change keeps coherence.** -/
theorem Primitive.inv (h : Primitive rt N command conn e e') (he : e.Inv rt N) : e'.Inv rt N := by
  intro hb
  have hb₀ := h.grows.bounded hb
  have hco := he hb₀
  cases h with
  | tick | refuse | indices =>
    exact ⟨hco.version_eq, hco.sound, hco.known, hco.queued, hco.legit, hco.tier, hco.full,
      hco.columns, hco.snapshot, hco.buffered⟩
  | insertRow t source columns timestamp _ _ hcolumns =>
    exact (hco.draw _).install (legit_record le_rfl (Or.inr (Or.inr ⟨columns, rfl, hcolumns hb₀⟩)))
  | bufferRow t source columns timestamp tx _ htx hcolumns =>
    exact (hco.draw _).buffer htx (Or.inr (Or.inr ⟨columns, rfl, hcolumns hb₀⟩))
      (Or.inr (List.mem_append_right _ (List.mem_singleton.2 rfl)))
  | change key r _ _ hguard =>
    have hbump := hco.bump ⟨hb.pages, hb.bumps⟩
    exact hbump.install (legit_of_payloadOk (hguard hb₀).2)
  | bufferChange key r tx htx hguard =>
    exact hco.buffer htx (hguard hb₀).2.1 (Or.inl (hguard hb₀).1)
  | bump _ => exact hco.bump hb
  | commitKey key r _ _ hguard => exact hco.install (legit_of_payloadOk (hguard hb₀).2.1)
  | index key target _ hkey _ => exact hco.install ⟨fun _ hr ↦ (nomatch hr), Or.inl hkey⟩
  | push key data _ hknown => exact hco.pushed (hknown hb₀)
  | schemas schemas _ hcolumns =>
    exact ⟨hco.version_eq, hco.sound, hco.known, hco.queued, hco.legit, hco.tier, hco.full,
      hcolumns hb₀, hco.snapshot, hco.buffered⟩
  | storeSchemas tables timestamp _ =>
    refine hco.insertTree (Or.inr ⟨rfl, ?_, Or.inr (Or.inl rfl)⟩) hb.pages
    intro r hr
    cases hr
    exact le_rfl
  | opened => exact hco.opened
  | closed => exact hco.closed

theorem Progress.inv (h : Progress rt N command conn e e') (he : e.Inv rt N) : e'.Inv rt N := by
  induction h with
  | refl => exact he
  | tail _ hstep ih => exact hstep.inv ih

/-- The engine just started is coherent. -/
theorem coherent_empty : Engine.empty.Coherent rt N where
  version_eq := rfl
  sound := BPlusTree.sound_openEmpty _
  known _ _ h := nomatch h
  queued _ h := nomatch h
  legit _ h := nomatch h
  tier _ _ h := nomatch h
  full _ _ := rfl
  columns _ _ h := nomatch h
  snapshot _ _ h := nomatch h
  buffered _ _ h := nomatch h

end Engine

end KsSql
