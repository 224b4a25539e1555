import KsSql.Storage.Wal

/-!
# What the consumers of the queue do

The drain thread, a flush and the writer thread take entries from the front of the queue and enqueue
nothing (`Consumes`), and what a flush adds to the log was in the queue (`flushRound_logged`).
-/

namespace KsSql

namespace Wal

variable {K V : Type} {w w' : Wal K V}

/-- A change of the log that enqueues nothing. -/
structure Consumes (w w' : Wal K V) : Prop where
  queue : w'.queue <:+ w.queue
  enqueued : w'.enqueued = w.enqueued

theorem Consumes.refl (w : Wal K V) : Consumes w w := ⟨List.suffix_rfl, rfl⟩

theorem consumes_popEntry {entry : WalEntry K V} (h : w.popEntry = some (entry, w')) :
    Consumes w w' ∧ w.queue = entry :: w'.queue := by
  rw [popEntry] at h
  split at h
  · cases h
  · rename_i hqueue
    cases h
    exact ⟨⟨hqueue ▸ List.suffix_cons _ _, rfl⟩, hqueue⟩

theorem consumes_writeBatch [Bincode (WalEntry K V)] : Consumes w w.writeBatch := by
  rw [writeBatch]
  split <;> exact ⟨List.suffix_rfl, rfl⟩

@[simp] theorem setBuffer_queue (w : Wal K V) (isA : Bool) (batch : Bytes) :
    (w.setBuffer isA batch).queue = w.queue := by
  cases isA <;> rfl

@[simp] theorem setBuffer_enqueued (w : Wal K V) (isA : Bool) (batch : Bytes) :
    (w.setBuffer isA batch).enqueued = w.enqueued := by
  cases isA <;> rfl

theorem consumes_closeBatch (f : Flush) : Consumes w (w.closeBatch f) := by
  unfold closeBatch
  dsimp only
  split
  · exact ⟨List.suffix_rfl, rfl⟩
  · exact ⟨by rw [setBuffer_queue], setBuffer_enqueued w _ _⟩

theorem Consumes.trans {w₁ w₂ w₃ : Wal K V} (h₁ : Consumes w₁ w₂) (h₂ : Consumes w₂ w₃) :
    Consumes w₁ w₃ :=
  ⟨h₂.queue.trans h₁.queue, h₂.enqueued.trans h₁.enqueued⟩

theorem consumes_flushRound [Bincode (WalEntry K V)] (f : Flush) :
    Consumes w (w.flushRound f).1 := by
  unfold flushRound
  split
  · exact consumes_closeBatch f
  · rename_i entry rest hqueue
    have htake : Consumes w { w.setBuffer f.isA (w.buffer f.isA ++ frame entry) with
        queue := rest, logged := w.logged ++ [entry] } :=
      ⟨hqueue ▸ List.suffix_cons _ _, setBuffer_enqueued w _ _⟩
    dsimp only
    split
    · exact htake.trans (consumes_closeBatch f)
    · exact htake

@[simp] theorem setBuffer_logged (w : Wal K V) (isA : Bool) (batch : Bytes) :
    (w.setBuffer isA batch).logged = w.logged := by
  cases isA <;> rfl

theorem closeBatch_logged (w : Wal K V) (f : Flush) : (w.closeBatch f).logged = w.logged := by
  rw [closeBatch]
  dsimp only
  split
  · rfl
  · exact setBuffer_logged w _ _

theorem closeBatch_queue (w : Wal K V) (f : Flush) : (w.closeBatch f).queue = w.queue := by
  rw [closeBatch]
  dsimp only
  split
  · rfl
  · exact setBuffer_queue w _ _

theorem popEntry_logged {w' : Wal K V} {entry : WalEntry K V} (h : w.popEntry = some (entry, w')) :
    w'.logged = w.logged := by
  rw [popEntry] at h
  split at h <;> cases h
  rfl

/-- A round of a flush takes one entry from the queue to the log, if there is one. -/
theorem flushRound_cases [Bincode (WalEntry K V)] (f : Flush) :
    ((w.flushRound f).1.queue = w.queue ∧ (w.flushRound f).1.logged = w.logged) ∨
      ∃ entry, w.queue = entry :: (w.flushRound f).1.queue ∧
        (w.flushRound f).1.logged = w.logged ++ [entry] := by
  rw [flushRound]
  split
  · exact .inl ⟨closeBatch_queue w f, closeBatch_logged w f⟩
  · rename_i entry rest hqueue
    right
    dsimp only
    split
    · exact ⟨entry, hqueue.trans (by rw [closeBatch_queue]), closeBatch_logged _ f⟩
    · exact ⟨entry, hqueue, rfl⟩

/-- A round of a flush takes its entry from the queue. -/
theorem flushRound_logged [Bincode (WalEntry K V)] (f : Flush) :
    (w.flushRound f).1.logged ⊆ w.logged ++ w.queue := by
  rcases flushRound_cases (w := w) f with ⟨-, hlogged⟩ | ⟨entry, hqueue, hlogged⟩
  · rw [hlogged]
    exact List.subset_append_left _ _
  · rw [hlogged, hqueue]
    exact List.append_subset.2 ⟨List.subset_append_left _ _,
      List.cons_subset.2 ⟨List.mem_append_right _ List.mem_cons_self, List.nil_subset _⟩⟩

theorem writeBatch_queue [Bincode (WalEntry K V)] : w.writeBatch.queue = w.queue := by
  rw [writeBatch]
  split <;> rfl

theorem writeBatch_logged [Bincode (WalEntry K V)] : w.writeBatch.logged = w.logged := by
  rw [writeBatch]
  split <;> rfl

end Wal

end KsSql
