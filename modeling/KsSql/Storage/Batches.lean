import KsSql.Storage.WalRecovery

/-!
# The batches of a flush

What `flush_pipeline` takes when no other call runs beside it. The loop pops at least one entry, however
small the limit is, and goes on only while the batch is shorter than the limit: so the batch is the frames
of a prefix of the queue, and without its last frame it would be below the limit (`flush_takes_prefix`).
A flush that finds anything makes the queue shorter, and calls enough of them empty it.

Between two calls the log is `Ready`: both buffers are empty, and the queue is within its capacity. That
is how `Wal::open` leaves it, and each call keeps it so (`ready_calls`).
-/

namespace KsSql

namespace Wal

variable {K V : Type}

/-- The log between two calls. -/
structure Ready (w : Wal K V) : Prop extends Quiet w where
  capacity : w.queue.length ≤ queueCapacity

variable [Bincode (WalEntry K V)] {w : Wal K V}

theorem Ready.enqueue (h : w.Ready) (entry : WalEntry K V) : (w.call (.enqueue entry)).Ready := by
  rw [call, Wal.enqueue]
  split
  · rename_i w' heq
    split at heq
    · rename_i hroom
      cases heq
      refine ⟨⟨h.bufferA, h.bufferB⟩, ?_⟩
      rw [List.length_append, List.length_singleton]
      exact hroom
    · cases heq
  · exact h

theorem Ready.flushPipeline (h : w.Ready) : w.flushPipeline.Ready := by
  rcases flushPipeline_spec h.toQuiet with hsame | ⟨taken, rest, hsplit, -, hquiet, hrest, -⟩
  · exact hsame.symm ▸ h
  · refine ⟨hquiet, ?_⟩
    have hcapacity := h.capacity
    rw [hsplit, List.length_append] at hcapacity
    rw [hrest]
    omega

/-- Every call keeps the log ready. -/
theorem Ready.call (h : w.Ready) : ∀ c : Call K V, (w.call c).Ready
  | .enqueue entry => h.enqueue entry
  | .setBatchLimit _ => ⟨⟨h.bufferA, h.bufferB⟩, h.capacity⟩
  | .flushPipeline => h.flushPipeline
  | .writeBatch => by
    show w.writeBatch.Ready
    rw [writeBatch]
    split
    · exact h
    · exact ⟨⟨h.bufferA, h.bufferB⟩, h.capacity⟩

/-- The log is ready behind any calls, each of which runs alone. -/
theorem ready_calls (limit : Nat) (file : Bytes) (cs : List (Call K V)) :
    (({ batchLimit := limit, file := file } : Wal K V).calls cs).Ready := by
  have hall : ∀ (cs : List (Call K V)) {w : Wal K V}, w.Ready → (w.calls cs).Ready := by
    intro cs
    induction cs with
    | nil => exact fun h ↦ h
    | cons c cs ih => exact fun h ↦ ih (h.call c)
  exact hall cs ⟨⟨rfl, rfl⟩, Nat.zero_le _⟩

/-- Calls enough empty the queue, and send the frames of its entries in their order. -/
theorem flushPipeline_iterate : ∀ (n : Nat) {w : Wal K V}, w.Ready → w.queue.length ≤ n →
    (flushPipeline^[n] w).queue = [] ∧
      ∃ batches, (flushPipeline^[n] w).sent = w.sent ++ batches ∧ batches.flatten = batchOf w.queue
  | 0, w, _, hn => by
    have hqueue : w.queue = [] := List.eq_nil_of_length_eq_zero (Nat.le_zero.1 hn)
    refine ⟨hqueue, [], (List.append_nil _).symm, ?_⟩
    rw [hqueue]
    rfl
  | n + 1, w, h, hn => by
    rw [Function.iterate_succ_apply]
    rcases eq_or_ne w.queue [] with hqueue | hqueue
    · rw [flushPipeline_of_queue_eq_nil hqueue]
      exact flushPipeline_iterate n h (by rw [hqueue]; exact Nat.zero_le n)
    · obtain ⟨taken, rest, hsplit, htaken, -, hrest, -, hsent, -⟩ :=
        flushPipeline_takes h.toQuiet hqueue
      have hless : w.flushPipeline.queue.length ≤ n := by
        have hpos := List.length_pos_iff.2 htaken
        rw [hsplit, List.length_append] at hn
        rw [hrest]
        omega
      obtain ⟨hempty, batches, hbatches, hflatten⟩ := flushPipeline_iterate n h.flushPipeline hless
      refine ⟨hempty, batchOf taken :: batches, ?_, ?_⟩
      · rw [hbatches, hsent, List.append_assoc]
        rfl
      · rw [List.flatten_cons, hflatten, hrest, hsplit, batchOf, batchOf, batchOf,
          List.flatMap_append]

/-- **A flush takes a prefix and makes progress**, whatever the limit is: it sends one batch, of the
frames of the first entries, at least one of them, and without its last frame the batch would be below
the limit. So calls enough, running alone, send the frames of all entries in their order. -/
theorem flush_takes_prefix (h : w.Ready) :
    (w.queue = [] → w.flushPipeline = w) ∧
      (w.queue ≠ [] → ∃ taken rest, taken ≠ [] ∧ w.queue = taken ++ rest ∧
        w.flushPipeline.sent = w.sent ++ [batchOf taken] ∧ w.flushPipeline.queue = rest ∧
        (1 < taken.length → (batchOf taken.dropLast).length < w.batchLimit)) ∧
      w.flushPipeline.bufferA = [] ∧ w.flushPipeline.bufferB = [] ∧
      ∀ n, w.queue.length ≤ n → (flushPipeline^[n] w).queue = [] ∧
        ∃ batches, (flushPipeline^[n] w).sent = w.sent ++ batches ∧
          batches.flatten = batchOf w.queue := by
  refine ⟨flushPipeline_of_queue_eq_nil, fun hqueue ↦ ?_, h.flushPipeline.bufferA,
    h.flushPipeline.bufferB, fun n hn ↦ flushPipeline_iterate n h hn⟩
  obtain ⟨taken, rest, hsplit, htaken, -, hrest, -, hsent, -, -, hbelow⟩ :=
    flushPipeline_takes h.toQuiet hqueue
  refine ⟨taken, rest, htaken, hsplit, hsent, hrest, fun hlength ↦ ?_⟩
  have hinit : taken.dropLast ≠ [] := by
    refine List.ne_nil_of_length_pos ?_
    rw [List.length_dropLast]
    omega
  have hlimit := hbelow taken.dropLast (taken.getLast htaken)
    (List.dropLast_append_getLast htaken).symm hinit
  -- the queue holds no more than its capacity, so the limit is not raised
  have hcapacity : ¬ w.queue.length > 1000000 := Nat.not_lt_of_le h.capacity
  rwa [if_neg hcapacity] at hlimit

/-- Three entries with frames of 26 bytes, and a limit that the second one reaches. -/
def threeEntries : List (Call Bytes Bytes) :=
  [.setBatchLimit 30, .enqueue (.recordUpdate [1] [5]), .enqueue (.recordUpdate [2] [7]),
    .enqueue (.recordUpdate [3] [9])]

theorem flush_takes_prefix_threeEntries :
    let _ := knownEncoding []
    ∃ w, ({} : Wal Bytes Bytes).calls threeEntries = w ∧ w.queue.length = 3 ∧
      (flushPipeline^[3] w).queue = [] ∧
        ∃ batches, (flushPipeline^[3] w).sent = w.sent ++ batches ∧
          batches.flatten = batchOf w.queue := by
  intro encoding
  have hflush := flush_takes_prefix (ready_calls (32 * 1024 * 1024) [] threeEntries)
  exact ⟨_, rfl, by decide +kernel, hflush.2.2.2.2 3 (by decide +kernel)⟩

end Wal

end KsSql
