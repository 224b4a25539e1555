import KsSql.Parser.Runs
import KsSql.Storage.Contents

/-!
# What is stored

`Engine.Stores R` says of an engine that all bindings in its pages and in the entries of its log are in
the relation `R`. Statements keep it as long as what they enqueue is in the relation, and so do the steps
of the threads beside them, whatever the shape of the tree is and however many pages it has.
-/

namespace KsSql

open BPlusTree

namespace Engine

variable {rt : Runtime} {R R' : Bytes → Data → Prop} {e e' : Engine}

/-- The bindings in pages and in the entries of the log are in the relation `R`. -/
structure Stores (R : Bytes → Data → Prop) (e : Engine) : Prop where
  pages : ∀ q, Contents R (e.btree.pager.pages q)
  enqueued : ∀ x ∈ e.btree.wal.enqueued, EntryOk R x
  queue : e.btree.wal.queue ⊆ e.btree.wal.enqueued
  logged : e.btree.wal.logged ⊆ e.btree.wal.enqueued

theorem Stores.congr (h : e.Stores R) (hpager : e'.btree.pager = e.btree.pager)
    (hwal : e'.btree.wal = e.btree.wal) (hR : ∀ key data, R key data → R' key data) :
    e'.Stores R' where
  pages q := by
    rw [hpager]
    exact (h.pages q).mono hR
  enqueued := by
    rw [hwal]
    exact fun x hx ↦ (h.enqueued x hx).mono hR
  queue := hwal ▸ h.queue
  logged := hwal ▸ h.logged

theorem Stores.pushed (h : e.Stores R) {key : Bytes} {data : Data} (hR : R key data) :
    (e.pushed key data).Stores R where
  pages := h.pages
  enqueued x hx := by
    rcases List.mem_append.1 hx with hx | hx
    · exact h.enqueued x hx
    · rw [List.mem_singleton.1 hx]
      exact hR
  queue := List.append_subset.2 ⟨fun _ hx ↦ List.mem_append_left _ (h.queue hx),
    List.subset_append_right _ _⟩
  logged _ hx := List.mem_append_left _ (h.logged hx)

theorem Stores.insertTree (h : e.Stores R) {key : Bytes} {data : Data} (hR : R key data) :
    ({ e with btree := (e.btree.insert rt.search key data).2 } : Engine).Stores R := by
  obtain ⟨hpages, hentries⟩ := contents_insert rt.search h.pages hR
  obtain ⟨images, -, hwal⟩ := (insert_frame rt.search e.btree key data).wal
  exact {
    pages := hpages
    enqueued := fun x hx ↦ by
      rcases hentries x hx with hx | ⟨q, n, rfl, hn⟩
      · exact h.enqueued x hx
      · exact hn
    queue := by
      rw [hwal]
      exact List.append_subset.2 ⟨fun _ hx ↦ List.mem_append_left _ (h.queue hx),
        List.subset_append_right _ _⟩
    logged := by
      rw [hwal]
      exact fun _ hx ↦ List.mem_append_left _ (h.logged hx) }

theorem stores_empty : Engine.empty.Stores R where
  pages q := by
    by_cases hq : q = rootPageId
    · rw [hq]
      exact contents_newLeaf
    · have hblank : Engine.empty.btree.pager.pages q = .newInternal := Function.update_of_ne hq _ _
      rw [hblank]
      exact .of_values rfl rfl
  enqueued _ hx := nomatch hx
  queue _ hx := nomatch hx
  logged _ hx := nomatch hx

end Engine

namespace System

open Engine

variable {rt : Runtime} {R : Bytes → Data → Prop} {s : System}

theorem stores_withWal {wal : Wal Bytes Data} (h : s.engine.Stores R)
    (hwal : s.engine.btree.wal.Consumes wal)
    (hlogged : wal.logged ⊆ s.engine.btree.wal.logged ++ s.engine.btree.wal.queue) :
    (s.withWal wal).engine.Stores R where
  pages := h.pages
  enqueued x hx := h.enqueued x (hwal.enqueued ▸ hx)
  queue := by
    rw [withWal, hwal.enqueued]
    exact fun x hx ↦ h.queue (hwal.queue.subset hx)
  logged := by
    rw [withWal, hwal.enqueued]
    exact fun x hx ↦ (List.append_subset.2 ⟨h.logged, h.queue⟩) (hlogged hx)

variable [Bincode (WalEntry Bytes Data)] {s' : System}

/-- **A step**, taken apart by what it does to the engine: it executes a statement, consumes entries of
the log, removes entries from the memory tier, or inserts an enqueued entry into the tree. A property of
engines that all of these keep is kept, and the drain thread goes on holding entries that were
enqueued. -/
theorem step_parts {J : Engine → Prop} {a : Action}
    (hcall : ∀ conn command, J (execute rt command conn s.engine).2 ∧
      s.engine.btree.wal.enqueued ⊆ (execute rt command conn s.engine).2.btree.wal.enqueued)
    (hwal : ∀ wal, s.engine.btree.wal.Consumes wal →
      wal.logged ⊆ s.engine.btree.wal.logged ++ s.engine.btree.wal.queue → J (s.withWal wal).engine)
    (htier : ∀ tier : MemoryTier Bytes Data, (∀ k d, tier.get k = some d →
      s.engine.btree.memoryTier.get k = some d) → J (s.withTier tier).engine)
    (happly : ∀ entry ∈ s.engine.btree.wal.enqueued, J (applyEntry rt s.engine entry))
    (hqueue : s.engine.btree.wal.queue ⊆ s.engine.btree.wal.enqueued) (hJ : J s.engine)
    (hdrained : s.drain.entries ⊆ s.engine.btree.wal.enqueued) (hstep : s.step rt a = some s') :
    J s'.engine ∧ s'.drain.entries ⊆ s'.engine.btree.wal.enqueued := by
  cases Step.of_step hstep with
  | call conn command _ =>
    have hdrain : (s.call rt conn command).drain = s.drain := by
      rw [System.call]
      split <;> rfl
    obtain ⟨hengine, henqueued⟩ := hcall conn command
    rw [call_engine, hdrain]
    exact ⟨hengine, fun x hx ↦ henqueued (hdrained hx)⟩
  | flushRound f discard phase _ =>
    have hconsumes := Wal.consumes_flushRound (w := s.engine.btree.wal) f
    refine ⟨hwal _ hconsumes (Wal.flushRound_logged f), ?_⟩
    show s.drain.entries ⊆ (s.engine.btree.wal.flushRound f).1.enqueued
    rw [hconsumes.enqueued]
    exact hdrained
  | discardEntry entry wal _ heq =>
    obtain ⟨hconsumes, -⟩ := Wal.consumes_popEntry heq
    refine ⟨hwal _ hconsumes ?_, ?_⟩
    · rw [Wal.popEntry_logged heq]
      exact List.subset_append_left _ _
    · rw [withWal, hconsumes.enqueued]
      exact hdrained
  | discardEnd _ => exact ⟨hJ, hdrained⟩
  | drainStart => exact ⟨hJ, hdrained⟩
  | drainPop entry wal heq =>
    obtain ⟨hconsumes, hentry⟩ := Wal.consumes_popEntry heq
    refine ⟨hwal _ hconsumes ?_, ?_⟩
    · rw [Wal.popEntry_logged heq]
      exact List.subset_append_left _ _
    show s.drain.entries ++ [entry] ⊆ wal.enqueued
    rw [hconsumes.enqueued]
    refine List.append_subset.2 ⟨hdrained, List.cons_subset.2 ⟨hqueue ?_, List.nil_subset _⟩⟩
    rw [hentry]
    exact List.mem_cons_self
  | drainApply entry rest hentries =>
    have hmem : entry :: rest ⊆ s.engine.btree.wal.enqueued := hentries ▸ hdrained
    refine ⟨happly entry (hmem List.mem_cons_self), fun x hx ↦ ?_⟩
    have hgrows : Grows s.engine (applyEntry rt s.engine entry) := grows_applyEntry s.engine entry
    exact hgrows.enqueued.subset (hmem (List.mem_cons_of_mem _ hx))
  | drainEnd _ => exact ⟨hJ, fun _ hx ↦ absurd hx List.not_mem_nil⟩
  | writeBatch =>
    have hconsumes := Wal.consumes_writeBatch (w := s.engine.btree.wal)
    refine ⟨hwal _ hconsumes ?_, ?_⟩
    · rw [Wal.writeBatch_logged]
      exact List.subset_append_left _ _
    · rw [withWal, hconsumes.enqueued]
      exact hdrained
  | evict keys => exact ⟨htier _ fun _ _ ↦ MemoryTier.get_of_get_foldl_remove, hdrained⟩
  | purge =>
    refine ⟨htier _ fun _ _ hd ↦ ?_, hdrained⟩
    cases hd

end System

end KsSql
