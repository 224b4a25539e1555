import KsSql.Storage.Wal
import Mathlib.Data.List.Chain

/-!
# Reading the log back

What `Wal::open` recovers from the file that the writer thread has written. The file is a sequence of
batches, each a sequence of frames padded with zeroes to whole blocks, and the recovery loop reads it
frame by frame; a length word of zero it takes for padding, and goes on at the next block.

After a batch whose padding has fewer than four bytes, the loop reads a word that reaches into the
batch behind it. Unless that word is zero by chance, the loop takes it for a length, and what it
recovers from there on is not what was written (`recover_short_padding`). Where no batch is followed
so (`SkipsPadding`), the loop recovers exactly what was flushed (`recover_eq_logged`).
-/

namespace KsSql

namespace Wal

variable {K V : Type}

/-- The number of zeroes behind a batch. -/
def padding (batch : Bytes) : Nat :=
  (batch.length + (blockSize - 1)) / blockSize * blockSize - batch.length

/-- The recovery loop gets from the end of a batch to the next one: there is no padding between them,
or the word that starts where the batch ends is zero. -/
def SkipsPadding (batch next : Bytes) : Prop :=
  padding batch = 0 ∨ ofLe ((List.replicate (padding batch) 0 ++ next).take 4) = 0

instance : DecidableRel SkipsPadding := fun _ _ ↦ inferInstanceAs (Decidable (_ ∨ _))

/-- Padding of at least one word is skipped, whatever is behind it. -/
theorem skipsPadding_of_four_le {batch : Bytes} (h : 4 ≤ padding batch) (next : Bytes) :
    SkipsPadding batch next := by
  refine Or.inr ?_
  rw [List.take_append_of_le_length (by rwa [List.length_replicate]), List.take_replicate,
    ofLe_replicate_zero]

theorem padded_eq (batch : Bytes) : padded batch = batch ++ List.replicate (padding batch) 0 := rfl

theorem length_padded_mod (batch : Bytes) : (padded batch).length % blockSize = 0 := by
  rw [padded_eq, List.length_append, List.length_replicate, padding, blockSize]
  omega

theorem padding_lt (batch : Bytes) : padding batch < blockSize := by
  rw [padding, blockSize]
  omega

section Encoding

variable [Bincode (WalEntry K V)]

/-- The encoding of an entry is read back: it decodes to the entry, is not empty, and its length fits
into a word. -/
structure Recoverable (entry : WalEntry K V) : Prop where
  round_trip : Bincode.deserialize (Bincode.serialize entry) = some entry
  nonempty : Bincode.serialize entry ≠ []
  length_lt : (Bincode.serialize entry).length < 2 ^ 32

/-- A batch: the frames of its entries. -/
def batchOf (entries : List (WalEntry K V)) : Bytes := entries.flatMap frame

theorem length_frame (entry : WalEntry K V) :
    (frame entry).length = 4 + (Bincode.serialize entry).length := by
  rw [frame, List.length_append, length_u32le]

/-! ### The recovery loop -/

section Loop

variable {buffer : Bytes}

/-- The end of the file. -/
theorem recoverLoop_end {fuel cursor : Nat} (h : buffer.length < cursor + 4) :
    recoverLoop buffer fuel cursor = ([] : List (WalEntry K V)) := by
  cases fuel with
  | zero => rfl
  | succ fuel => rw [recoverLoop, if_neg (by omega)]

/-- A frame is read back. -/
theorem recoverLoop_frame {fuel cursor : Nat} {entry : WalEntry K V} {rest : Bytes} (he : Recoverable entry)
    (h : buffer.drop cursor = frame entry ++ rest) :
    recoverLoop buffer (fuel + 1) cursor =
      entry :: recoverLoop buffer fuel (cursor + (frame entry).length) := by
  have hlen : buffer.length - cursor = (frame entry).length + rest.length := by
    rw [← List.length_drop, h, List.length_append]
  have hpos : 0 < (Bincode.serialize entry).length := List.length_pos_iff.2 he.nonempty
  rw [length_frame] at hlen ⊢
  have hword : (buffer.drop cursor).take 4 = u32le (Bincode.serialize entry).length := by
    rw [h, frame, List.append_assoc, List.take_append_of_le_length (by rw [length_u32le]),
      List.take_of_length_le (by rw [length_u32le])]
  have hencoded : (buffer.drop (cursor + 4)).take (Bincode.serialize entry).length =
      Bincode.serialize entry := by
    rw [← List.drop_drop, h, frame, List.append_assoc, List.drop_left' (length_u32le _),
      List.take_left' rfl]
  rw [recoverLoop, if_pos (by omega)]
  simp only [hword, ofLe_u32le he.length_lt, hpos.ne', if_false]
  rw [if_pos (by omega), hencoded, he.round_trip, Nat.add_assoc]

/-- The frames of a batch are read back. -/
theorem recoverLoop_batchOf {rest : Bytes} : ∀ (entries : List (WalEntry K V)) (fuel cursor : Nat),
    (∀ entry ∈ entries, Recoverable entry) → buffer.drop cursor = batchOf entries ++ rest →
    buffer.length < fuel + cursor → ∃ fuel', recoverLoop buffer fuel cursor =
      entries ++ recoverLoop buffer fuel' (cursor + (batchOf entries).length) ∧
        buffer.length < fuel' + (cursor + (batchOf entries).length)
  | [], fuel, cursor, _, _, hfuel => ⟨fuel, rfl, hfuel⟩
  | entry :: entries, fuel, cursor, he, h, hfuel => by
    have hcons : batchOf (entry :: entries) = frame entry ++ batchOf entries := rfl
    have hentry := he entry List.mem_cons_self
    rw [hcons, List.append_assoc] at h
    have hpos : 4 ≤ (frame entry).length := by rw [length_frame]; omega
    -- there is fuel left, as the frame lies inside the buffer
    obtain ⟨fuel, rfl⟩ : ∃ n, fuel = n + 1 := by
      have hlen := congrArg List.length h
      rw [List.length_drop, List.length_append] at hlen
      exact ⟨fuel - 1, by omega⟩
    obtain ⟨fuel', heq, hfuel'⟩ := recoverLoop_batchOf entries fuel (cursor + (frame entry).length)
      (fun e h ↦ he e (List.mem_cons_of_mem _ h)) (by rw [← List.drop_drop, h, List.drop_left])
      (by omega)
    rw [hcons, List.length_append, ← Nat.add_assoc]
    exact ⟨fuel', by rw [recoverLoop_frame hentry h, heq]; rfl, hfuel'⟩

/-- The padding behind a batch is skipped. -/
theorem recoverLoop_padding (fuel cursor : Nat) {pad : Nat} {rest : Bytes} (hcursor : cursor ≤ buffer.length)
    (hblock : (cursor + pad) % blockSize = 0) (hpad : pad < blockSize)
    (h : buffer.drop cursor = List.replicate pad 0 ++ rest)
    (hskip : pad = 0 ∨ rest = [] ∨ ofLe ((List.replicate pad 0 ++ rest).take 4) = 0)
    (hfuel : buffer.length < fuel + cursor) : ∃ fuel',
      (recoverLoop buffer fuel cursor : List (WalEntry K V)) =
        recoverLoop buffer fuel' (cursor + pad) ∧ buffer.length < fuel' + (cursor + pad) := by
  by_cases hzero : pad = 0
  · subst hzero
    exact ⟨fuel, rfl, hfuel⟩
  have hlen := congrArg List.length h
  rw [List.length_drop, List.length_append, List.length_replicate] at hlen
  obtain ⟨fuel, rfl⟩ : ∃ n, fuel = n + 1 := ⟨fuel - 1, by omega⟩
  by_cases hword : cursor + 4 ≤ buffer.length
  · refine ⟨fuel, ?_, by omega⟩
    have hread : ofLe ((buffer.drop cursor).take 4) = 0 := by
      rw [h]
      rcases hskip with hskip | rfl | hskip
      · exact absurd hskip hzero
      · rw [List.append_nil, List.take_replicate, ofLe_replicate_zero]
      · exact hskip
    have hnext : (cursor / 4096 + 1) * 4096 = cursor + pad := by
      rw [blockSize] at hblock hpad
      omega
    rw [recoverLoop, if_pos hword]
    simp only [hread, if_true, hnext]
  · -- fewer than four bytes are left: that is the end of the file
    refine ⟨fuel + 1, ?_, by omega⟩
    rw [recoverLoop_end (by omega), recoverLoop_end (by omega)]

/-- What lies behind a batch, if anything does, starts with the next piece of the file, which has at
least one word. -/
theorem exists_next {batches : List (List (WalEntry K V))} {pieces : List Bytes}
    (hne : ∀ entries ∈ batches, entries ≠ []) (hpieces : ∀ piece ∈ pieces, 4 ≤ piece.length) :
    (batches = [] ∧ pieces = []) ∨ ∃ next more behind, batches.map batchOf ++ pieces = next :: more ∧
      4 ≤ next.length ∧
      batches.flatMap (fun entries ↦ padded (batchOf entries)) ++ pieces.flatten = next ++ behind := by
  rcases batches with - | ⟨entries, batches⟩
  · rcases pieces with - | ⟨piece, pieces⟩
    · exact Or.inl ⟨rfl, rfl⟩
    · exact Or.inr ⟨piece, pieces, pieces.flatten, rfl, hpieces piece List.mem_cons_self, rfl⟩
  · refine Or.inr ⟨batchOf entries, batches.map batchOf ++ pieces,
      List.replicate (padding (batchOf entries)) 0 ++
        (batches.flatMap (fun entries ↦ padded (batchOf entries)) ++ pieces.flatten), rfl, ?_, ?_⟩
    · obtain ⟨entry, rest, rfl⟩ := List.exists_cons_of_ne_nil (hne entries List.mem_cons_self)
      rw [batchOf, List.flatMap_cons, List.length_append, length_frame]
      omega
    · rw [List.flatMap_cons, padded_eq, List.append_assoc, List.append_assoc]

/-- **The file is read back**, batch by batch, where each batch is followed by padding that is
skipped, up to whatever is behind the last batch. -/
theorem recoverLoop_batches_append {pieces : List Bytes} (hpieces : ∀ piece ∈ pieces, 4 ≤ piece.length) :
    ∀ (batches : List (List (WalEntry K V))) (fuel cursor : Nat),
    (∀ entries ∈ batches, ∀ entry ∈ entries, Recoverable entry) → (∀ entries ∈ batches, entries ≠ []) →
    (batches.map batchOf ++ pieces).IsChain SkipsPadding → cursor % blockSize = 0 →
    cursor ≤ buffer.length →
    buffer.drop cursor =
      batches.flatMap (fun entries ↦ padded (batchOf entries)) ++ pieces.flatten →
    buffer.length < fuel + cursor → ∃ fuel' cursor', recoverLoop buffer fuel cursor =
      batches.flatten ++ recoverLoop buffer fuel' cursor' ∧ buffer.drop cursor' = pieces.flatten ∧
        buffer.length < fuel' + cursor'
  | [], fuel, cursor, _, _, _, _, _, h, hfuel => ⟨fuel, cursor, rfl, h, hfuel⟩
  | entries :: batches, fuel, cursor, he, hne, hchain, hblock, hcursor, h, hfuel => by
    rw [List.flatMap_cons, padded_eq, List.append_assoc, List.append_assoc] at h
    have hlen := congrArg List.length h
    simp only [List.length_drop, List.length_append, List.length_replicate] at hlen
    obtain ⟨fuel₁, heq₁, hfuel₁⟩ := recoverLoop_batchOf entries fuel cursor
      (he entries List.mem_cons_self) h hfuel
    have hne' := fun e hmem ↦ hne e (List.mem_cons_of_mem _ hmem)
    rw [List.map_cons, List.cons_append] at hchain
    -- what follows the padding is the next piece, or nothing
    have hskip : padding (batchOf entries) = 0 ∨
        batches.flatMap (fun entries ↦ padded (batchOf entries)) ++ pieces.flatten = [] ∨
        ofLe ((List.replicate (padding (batchOf entries)) 0 ++
          (batches.flatMap (fun entries ↦ padded (batchOf entries)) ++ pieces.flatten)).take 4) =
            0 := by
      rcases exists_next hne' hpieces with ⟨rfl, rfl⟩ | ⟨next, more, behind, hnext, hfour, hbehind⟩
      · exact Or.inr (Or.inl rfl)
      · rw [hnext, List.isChain_cons_cons] at hchain
        refine hchain.1.imp id fun hword ↦ Or.inr ?_
        rw [hbehind, ← List.append_assoc, List.take_append_of_le_length]
        · exact hword
        · rw [List.length_append]
          omega
    have hblock' : (cursor + (batchOf entries).length + padding (batchOf entries)) % blockSize = 0 := by
      have hmod := length_padded_mod (batchOf entries)
      rw [padded_eq, List.length_append, List.length_replicate] at hmod
      rw [Nat.add_assoc, Nat.add_mod, hblock, hmod, Nat.zero_mod]
    obtain ⟨fuel₂, heq₂, hfuel₂⟩ := recoverLoop_padding (K := K) (V := V) fuel₁
      (cursor + (batchOf entries).length) (by omega) hblock' (padding_lt _)
      (by rw [← List.drop_drop, h, List.drop_left]) hskip hfuel₁
    obtain ⟨fuel', cursor', hrest, hdrop, hfuel'⟩ := recoverLoop_batches_append hpieces batches
      fuel₂ _ (fun e hmem ↦ he e (List.mem_cons_of_mem _ hmem)) hne' hchain.tail hblock' (by omega)
      (by rw [← List.drop_drop, ← List.drop_drop, h, List.drop_left, List.drop_left'
        List.length_replicate]) hfuel₂
    exact ⟨fuel', cursor', by rw [heq₁, heq₂, hrest, List.flatten_cons, List.append_assoc], hdrop,
      hfuel'⟩

/-- A file of batches is read back, where each batch is followed by padding that is skipped. -/
theorem recover_batches {batches : List (List (WalEntry K V))}
    (he : ∀ entries ∈ batches, ∀ entry ∈ entries, Recoverable entry)
    (hne : ∀ entries ∈ batches, entries ≠ []) (hchain : (batches.map batchOf).IsChain SkipsPadding) :
    recover (batches.flatMap fun entries ↦ padded (batchOf entries)) = batches.flatten := by
  obtain ⟨fuel, cursor, heq, hdrop, -⟩ := recoverLoop_batches_append (List.forall_mem_nil _) batches
    (_ + 1) 0 he hne (by rwa [List.append_nil]) rfl (Nat.zero_le _)
    (by rw [List.drop_zero, List.flatten_nil, List.append_nil]) (Nat.lt_succ_self _)
  have hend := congrArg List.length hdrop
  rw [List.length_drop, List.flatten_nil, List.length_nil] at hend
  rw [recover, heq, recoverLoop_end (by omega), List.append_nil]

end Loop

/-! ### Flushing -/

/-- The log between two calls: no batch is under construction. -/
structure Quiet (w : Wal K V) : Prop where
  bufferA : w.bufferA = []
  bufferB : w.bufferB = []

/-- The log after a flush took the entries `taken` and left `rest` in the queue, before the batch is
closed. -/
def took (w : Wal K V) (f : Flush) (taken rest : List (WalEntry K V)) : Wal K V :=
  { w.setBuffer f.isA (w.buffer f.isA ++ batchOf taken) with
    queue := rest, logged := w.logged ++ taken }

omit [Bincode (WalEntry K V)] in
theorem setBuffer_buffer (w : Wal K V) (isA : Bool) : w.setBuffer isA (w.buffer isA) = w := by
  cases isA <;> rfl

omit [Bincode (WalEntry K V)] in
theorem buffer_setBuffer (w : Wal K V) (isA : Bool) (batch : Bytes) :
    (w.setBuffer isA batch).buffer isA = batch := by
  cases isA <;> rfl

theorem took_nil (w : Wal K V) (f : Flush) : w.took f [] w.queue = w := by
  rw [took, batchOf, List.flatMap_nil, List.append_nil, List.append_nil, setBuffer_buffer]

theorem took_took (w : Wal K V) (f : Flush) (entry : WalEntry K V)
    (rest taken left : List (WalEntry K V)) :
    (w.took f [entry] rest).took f taken left = w.took f (entry :: taken) left := by
  obtain ⟨isA, limit⟩ := f
  cases isA <;> simp [took, setBuffer, buffer, batchOf]

theorem batchOf_cons (entry : WalEntry K V) (entries : List (WalEntry K V)) :
    batchOf (entry :: entries) = frame entry ++ batchOf entries := List.flatMap_cons

theorem buffer_took (w : Wal K V) (f : Flush) (entry : WalEntry K V) (rest : List (WalEntry K V)) :
    (w.took f [entry] rest).buffer f.isA = w.buffer f.isA ++ frame entry := by
  obtain ⟨isA, limit⟩ := f
  cases isA <;> simp [took, setBuffer, buffer, batchOf]

theorem flushRound_cons {w : Wal K V} {entry : WalEntry K V} {rest : List (WalEntry K V)}
    (f : Flush) (h : w.queue = entry :: rest) : w.flushRound f =
      if ((w.took f [entry] rest).buffer f.isA).length ≥ f.limit then
        ((w.took f [entry] rest).closeBatch f, true)
      else (w.took f [entry] rest, false) := by
  rw [buffer_took, flushRound, h]
  simp only [took, batchOf, List.flatMap_cons, List.flatMap_nil, List.append_nil]

/-- The loop takes entries from the front of the queue, and closes the batch. It goes on only while the
batch is shorter than the limit. -/
theorem flushRounds_spec (f : Flush) : ∀ (n : Nat) (w : Wal K V), w.queue.length < n →
    ∃ taken rest, w.queue = taken ++ rest ∧ (w.queue ≠ [] → taken ≠ []) ∧
      (∀ init last, taken = init ++ [last] → init ≠ [] →
        (w.buffer f.isA ++ batchOf init).length < f.limit) ∧
      flushRounds f n w = (w.took f taken rest).closeBatch f
  | 0, w, h => absurd h (Nat.not_lt_zero _)
  | n + 1, w, h => by
    rcases hqueue : w.queue with - | ⟨entry, rest⟩
    · refine ⟨[], [], rfl, fun h ↦ absurd rfl h, fun init last hsplit ↦ ?_, ?_⟩
      · exact absurd hsplit.symm (List.append_ne_nil_of_right_ne_nil _ (List.cons_ne_nil _ _))
      · have htook := took_nil w f
        rw [hqueue] at htook
        rw [flushRounds, flushRound, hqueue, htook]
    · rw [flushRounds, flushRound_cons f hqueue]
      by_cases hlimit : ((w.took f [entry] rest).buffer f.isA).length ≥ f.limit
      · rw [if_pos hlimit]
        refine ⟨[entry], rest, rfl, fun _ ↦ List.cons_ne_nil _ _, fun init last hsplit hinit ↦ ?_, rfl⟩
        -- a batch of one entry has nothing before its last one
        rw [← List.nil_append [entry]] at hsplit
        exact absurd (List.append_inj_left' hsplit rfl).symm hinit
      · rw [if_neg hlimit]
        have hless : (w.took f [entry] rest).queue.length < n := by
          rw [hqueue, List.length_cons] at h
          exact Nat.lt_of_succ_lt_succ h
        obtain ⟨taken, left, hsplit, -, hbelow, hrounds⟩ := flushRounds_spec f n _ hless
        have hsplit : rest = taken ++ left := hsplit
        refine ⟨entry :: taken, left, by rw [hsplit, List.cons_append],
          fun _ ↦ List.cons_ne_nil _ _, fun init last heq hinit ↦ ?_, ?_⟩
        · obtain ⟨first, init, rfl⟩ := List.exists_cons_of_ne_nil hinit
          obtain ⟨rfl, htail⟩ := List.cons.inj heq
          have hcons : w.buffer f.isA ++ batchOf (entry :: init) =
              (w.took f [entry] rest).buffer f.isA ++ batchOf init := by
            rw [buffer_took, batchOf_cons, List.append_assoc]
          rw [hcons]
          rcases init with - | ⟨second, init⟩
          · rw [batchOf, List.flatMap_nil, List.append_nil]
            exact Nat.lt_of_not_ge hlimit
          · exact hbelow _ last htail (List.cons_ne_nil _ _)
        · exact hrounds.trans (by rw [took_took])

/-- **A flush** running alone, with something in the queue, sends one batch with the first entries of the
queue. -/
theorem flushPipeline_takes {w : Wal K V} (hquiet : w.Quiet) (hqueue : w.queue ≠ []) :
    ∃ taken rest, w.queue = taken ++ rest ∧ taken ≠ [] ∧
      w.flushPipeline.Quiet ∧ w.flushPipeline.queue = rest ∧
      w.flushPipeline.logged = w.logged ++ taken ∧
      w.flushPipeline.sent = w.sent ++ [batchOf taken] ∧ w.flushPipeline.file = w.file ∧
      w.flushPipeline.enqueued = w.enqueued ∧
      ∀ init last, taken = init ++ [last] → init ≠ [] → (batchOf init).length <
        if w.queue.length > 1000000 then w.batchLimit * 4 else w.batchLimit := by
  rw [flushPipeline, startFlush, if_neg fun h ↦ hqueue (List.eq_nil_of_length_eq_zero h)]
  generalize hf : (⟨w.activeIsA, if w.queue.length > 1000000 then w.batchLimit * 4 else w.batchLimit⟩ :
    Flush) = f
  obtain ⟨taken, rest, hsplit, htaken, hbelow, hrounds⟩ :=
    flushRounds_spec f (w.queue.length + 1) w (Nat.lt_succ_self _)
  have htaken : taken ≠ [] := htaken hqueue
  have hbuffer : w.buffer f.isA = [] := by
    unfold buffer
    split
    · exact hquiet.bufferA
    · exact hquiet.bufferB
  have hbatch : (w.took f taken rest).buffer f.isA = batchOf taken := by
    have := buffer_setBuffer w f.isA (w.buffer f.isA ++ batchOf taken)
    rw [hbuffer, List.nil_append] at this
    rw [took, hbuffer, List.nil_append]
    exact this
  have hnonempty : (batchOf taken).length ≠ 0 := by
    obtain ⟨entry, more, rfl⟩ := List.exists_cons_of_ne_nil htaken
    rw [batchOf, List.flatMap_cons, List.length_append, length_frame]
    omega
  have hlimit : f.limit = if w.queue.length > 1000000 then w.batchLimit * 4 else w.batchLimit :=
    (congrArg Flush.limit hf).symm
  simp only [hbuffer, List.nil_append, hlimit] at hbelow
  refine ⟨taken, rest, hsplit, htaken, ?_⟩
  simp only [hrounds, closeBatch, hbatch, if_neg hnonempty]
  obtain ⟨isA, limit⟩ := f
  cases isA
  · exact ⟨⟨hquiet.bufferA, rfl⟩, rfl, rfl, rfl, rfl, rfl, hbelow⟩
  · exact ⟨⟨rfl, hquiet.bufferB⟩, rfl, rfl, rfl, rfl, rfl, hbelow⟩

omit [Bincode (WalEntry K V)] in
theorem startFlush_of_queue_eq_nil {w : Wal K V} (h : w.queue = []) : w.startFlush = none := by
  rw [startFlush, h, List.length_nil, if_pos rfl]

/-- A flush that finds nothing in the queue does nothing. -/
theorem flushPipeline_of_queue_eq_nil {w : Wal K V} (h : w.queue = []) : w.flushPipeline = w := by
  rw [flushPipeline, startFlush_of_queue_eq_nil h]

/-- **A flush** running alone sends one batch with the first entries of the queue, or finds nothing
to do. -/
theorem flushPipeline_spec {w : Wal K V} (hquiet : w.Quiet) :
    w.flushPipeline = w ∨ ∃ taken rest, w.queue = taken ++ rest ∧ taken ≠ [] ∧
      w.flushPipeline.Quiet ∧ w.flushPipeline.queue = rest ∧
      w.flushPipeline.logged = w.logged ++ taken ∧
      w.flushPipeline.sent = w.sent ++ [batchOf taken] ∧ w.flushPipeline.file = w.file ∧
      w.flushPipeline.enqueued = w.enqueued := by
  rcases eq_or_ne w.queue [] with hqueue | hqueue
  · exact Or.inl (flushPipeline_of_queue_eq_nil hqueue)
  · obtain ⟨taken, rest, hsplit, htaken, hquiet', hrest, hlogged, hsent, hfile, henqueued, -⟩ :=
      flushPipeline_takes hquiet hqueue
    exact Or.inr ⟨taken, rest, hsplit, htaken, hquiet', hrest, hlogged, hsent, hfile, henqueued⟩

/-! ### Runs of the log -/

/-- A call on the log, or a step of the writer thread. -/
inductive Call (K V : Type)
  | enqueue (entry : WalEntry K V)
  | setBatchLimit (limit : Nat)
  | flushPipeline
  | writeBatch

/-- Make a call. An entry that the queue refuses is not enqueued. -/
def call (w : Wal K V) : Call K V → Wal K V
  | .enqueue entry => match w.enqueue entry with
    | .ok w => w
    | .error _ => w
  | .setBatchLimit limit => { w with batchLimit := limit }
  | .flushPipeline => w.flushPipeline
  | .writeBatch => w.writeBatch

/-- Make calls one after another. -/
def calls (w : Wal K V) (cs : List (Call K V)) : Wal K V := cs.foldl call w

/-- The batches that calls send to the writer thread, oldest first. -/
def sentBy (w : Wal K V) : List (Call K V) → List Bytes
  | [] => []
  | c :: cs => (match c with
    | .flushPipeline => w.flushPipeline.sent.drop w.sent.length
    | _ => []) ++ sentBy (w.call c) cs

/-- What is in the file, or on its way there. -/
def written (w : Wal K V) : Bytes := w.file ++ w.sent.flatMap padded

/-- Along any calls the file and the batches on their way to it hold the entries that were flushed,
batch by batch. -/
theorem calls_spec : ∀ (cs : List (Call K V)) (w : Wal K V), w.Quiet →
    ∃ batches : List (List (WalEntry K V)), w.sentBy cs = batches.map batchOf ∧
      (∀ entries ∈ batches, entries ≠ []) ∧ (w.calls cs).logged = w.logged ++ batches.flatten ∧
      (w.calls cs).written = w.written ++ batches.flatMap fun entries ↦ padded (batchOf entries)
  | [], w, _ => ⟨[], rfl, nofun, (List.append_nil _).symm, (List.append_nil _).symm⟩
  | c :: cs, w, hquiet => by
    -- every call but a flush leaves alone what was flushed
    have hother : ∀ w' : Wal K V, w'.Quiet → w'.logged = w.logged → w'.written = w.written →
        ∃ batches : List (List (WalEntry K V)), w'.sentBy cs = batches.map batchOf ∧
          (∀ entries ∈ batches, entries ≠ []) ∧
          (w'.calls cs).logged = w.logged ++ batches.flatten ∧ (w'.calls cs).written =
            w.written ++ batches.flatMap fun entries ↦ padded (batchOf entries) := by
      intro w' hquiet' hlogged hwritten
      rw [← hlogged, ← hwritten]
      exact calls_spec cs w' hquiet'
    cases c with
    | enqueue entry =>
      refine hother _ ?_ ?_ ?_ <;> rw [call, enqueue] <;> split <;> rename_i heq <;>
        split at heq <;> cases heq <;> first | exact ⟨hquiet.bufferA, hquiet.bufferB⟩ | rfl
    | setBatchLimit limit => exact hother _ ⟨hquiet.bufferA, hquiet.bufferB⟩ rfl rfl
    | writeBatch =>
      refine hother _ ?_ ?_ ?_ <;> rw [call, writeBatch] <;> split
      · exact hquiet
      · exact ⟨hquiet.bufferA, hquiet.bufferB⟩
      · rfl
      · rfl
      · rfl
      · rename_i hsent
        rw [written, written, hsent, List.flatMap_cons, List.append_assoc]
    | flushPipeline =>
      rcases flushPipeline_spec hquiet with hsame | ⟨taken, rest, -, htaken, hquiet', -, hlogged,
        hsent, hfile, -⟩
      · obtain ⟨batches, hbatches, hrest⟩ := hother _ hquiet rfl rfl
        refine ⟨batches, ?_, by rw [calls, List.foldl_cons, call, hsame]; exact hrest⟩
        rw [sentBy, call, hsame, List.drop_length, List.nil_append, hbatches]
      · obtain ⟨batches, hbatches, hne, hlogged', hwritten'⟩ := calls_spec cs _ hquiet'
        refine ⟨taken :: batches, ?_, ?_, ?_, ?_⟩
        · rw [sentBy, call, hsent, List.drop_left, hbatches]
          rfl
        · exact List.forall_mem_cons.2 ⟨htaken, hne⟩
        · exact hlogged'.trans (by rw [hlogged, List.append_assoc, List.flatten_cons])
        · refine hwritten'.trans ?_
          rw [written, written, hsent, hfile, List.flatMap_append, List.flatMap_cons,
            List.flatMap_nil, List.append_nil, List.flatMap_cons, List.append_assoc,
            List.append_assoc, List.append_assoc]

/-- **The log's round trip.** After any calls one after another, with any batch limits, on a new log:
once the writer thread has written all batches, recovery gives back exactly the entries that were
flushed, in their order, if their encodings can be read back and no batch is followed by padding that
is not skipped. -/
theorem recover_eq_logged (limit : Nat) (cs : List (Call K V)) (w : Wal K V)
    (hw : ({ batchLimit := limit } : Wal K V).calls cs = w) (hsent : w.sent = [])
    (hentries : ∀ entry ∈ w.logged, Recoverable entry)
    (hpadding : (sentBy { batchLimit := limit } cs).IsChain SkipsPadding) :
    recover w.file = w.logged := by
  obtain ⟨batches, hbatches, hne, hlogged, hwritten⟩ :=
    calls_spec cs ({ batchLimit := limit } : Wal K V) ⟨rfl, rfl⟩
  rw [hw] at hlogged hwritten
  rw [hbatches] at hpadding
  have hlogged : w.logged = batches.flatten := hlogged
  have hfile : w.file = batches.flatMap fun entries ↦ padded (batchOf entries) := by
    rw [written, hsent, List.flatMap_nil, List.append_nil] at hwritten
    exact hwritten
  rw [hlogged] at hentries ⊢
  rw [hfile]
  exact recover_batches (fun entries hmem entry hentry ↦ hentries entry
    (List.mem_flatten.2 ⟨entries, hmem, hentry⟩)) hne hpadding

end Encoding

/-! ### Two batches -/

/-- The encoding of an entry, record updates as `bincode` writes them. -/
def plainEncoding : WalEntry Bytes Bytes → Bytes
  | .recordUpdate key data => u32le 1 ++ u64le key.length ++ key ++ u64le data.length ++ data
  | _ => u32le 2

/-- An encoding whose decoder knows the entries it is given. -/
@[reducible] def knownEncoding (entries : List (WalEntry Bytes Bytes)) :
    Bincode (WalEntry Bytes Bytes) where
  serialize := plainEncoding
  deserialize encoded := entries.find? fun entry ↦ plainEncoding entry == encoded

/-- Byte strings behind their lengths are told apart, whatever follows. -/
theorem lengthPrefixed_inj {b b' rest rest' : Bytes} (hb : b.length < 2 ^ 64)
    (hb' : b'.length < 2 ^ 64)
    (h : u64le b.length ++ (b ++ rest) = u64le b'.length ++ (b' ++ rest')) :
    b = b' ∧ rest = rest' := by
  obtain ⟨hword, hrest⟩ := List.append_inj h (by rw [u64le, u64le, length_toLe, length_toLe])
  refine List.append_inj hrest ?_
  have hlen := congrArg ofLe hword
  have hpow : 256 ^ 8 = 2 ^ 64 := by norm_num
  rwa [u64le, u64le, ofLe_toLe, ofLe_toLe, hpow, Nat.mod_eq_of_lt hb, Nat.mod_eq_of_lt hb'] at hlen

/-- A decoder that knows record updates only recovers them. -/
theorem recoverable_of_known {entries : List (WalEntry Bytes Bytes)}
    (h : ∀ entry ∈ entries, ∃ key data, entry = .recordUpdate key data ∧
      20 + key.length + data.length < 2 ^ 32) :
    let _ := knownEncoding entries
    ∀ entry ∈ entries, Recoverable entry := by
  intro _ entry hentry
  obtain ⟨key, data, rfl, hlen⟩ := h entry hentry
  have hlength : (plainEncoding (.recordUpdate key data)).length = 20 + key.length + data.length := by
    simp only [plainEncoding, List.length_append, length_u32le, u64le, length_toLe]
    omega
  refine ⟨?_, List.ne_nil_of_length_pos (hlength ▸ by omega), hlength ▸ hlen⟩
  -- what the decoder finds has the same encoding, which determines key and data
  obtain ⟨found, hfound⟩ : ∃ found, entries.find? (fun e ↦ plainEncoding e ==
      plainEncoding (.recordUpdate key data)) = some found :=
    Option.isSome_iff_exists.1 (List.find?_isSome.2 ⟨_, hentry, beq_self_eq_true _⟩)
  have hsame : plainEncoding found = plainEncoding (.recordUpdate key data) := by
    have hbeq := List.find?_some hfound
    exact eq_of_beq hbeq
  obtain ⟨key', data', rfl, hlen'⟩ := h found (List.mem_of_find?_eq_some hfound)
  simp only [plainEncoding, List.append_assoc] at hsame
  obtain ⟨rfl, hdata⟩ := lengthPrefixed_inj (by omega) (by omega) (List.append_cancel_left hsame)
  have hdata : u64le data'.length ++ (data' ++ []) = u64le data.length ++ (data ++ []) := by
    rwa [List.append_nil, List.append_nil]
  rwa [(lengthPrefixed_inj (by omega) (by omega) hdata).1] at hfound

/-- Two entries, each flushed and written before the next call. -/
def oneByOne (first second : WalEntry Bytes Bytes) : List (Call Bytes Bytes) :=
  [.enqueue first, .flushPipeline, .writeBatch, .enqueue second, .flushPipeline, .writeBatch]

/-- Two small entries, each in a block of its own, are recovered. -/
theorem recover_two_blocks :
    let _ := knownEncoding [.recordUpdate [1] [5], .recordUpdate [2] [7]]
    ∃ w, ({ batchLimit := 10 } : Wal Bytes Bytes).calls
        (oneByOne (.recordUpdate [1] [5]) (.recordUpdate [2] [7])) = w ∧
      w.logged = [.recordUpdate [1] [5], .recordUpdate [2] [7]] ∧ recover w.file = w.logged := by
  let _ := knownEncoding [.recordUpdate [1] [5], .recordUpdate [2] [7]]
  obtain ⟨w, hw⟩ : ∃ w, ({ batchLimit := 10 } : Wal Bytes Bytes).calls
      (oneByOne (.recordUpdate [1] [5]) (.recordUpdate [2] [7])) = w := ⟨_, rfl⟩
  have hlogged : w.logged = [.recordUpdate [1] [5], .recordUpdate [2] [7]] := by
    rw [← hw]; decide +kernel
  have hsent : w.sent = [] := by rw [← hw]; decide +kernel
  have hentries : ∀ entry ∈ w.logged, Recoverable entry := by
    rw [hlogged]
    exact recoverable_of_known (List.forall_mem_cons.2 ⟨⟨[1], [5], rfl, by decide⟩,
      List.forall_mem_singleton.2 ⟨[2], [7], rfl, by decide⟩⟩)
  exact ⟨w, hw, hlogged, recover_eq_logged 10 _ w hw hsent hentries (by decide +kernel)⟩

/-- An entry whose frame has 4095 bytes. -/
def almostBlock : WalEntry Bytes Bytes := .recordUpdate [1] (List.replicate 4070 0)

/-- **Short padding.** Not every entry that was flushed is recovered: behind a batch of 4095 bytes
the recovery loop takes the one byte of padding and the first three bytes of the next batch for a
length. -/
theorem recover_short_padding : ¬ ∀ (_ : Bincode (WalEntry Bytes Bytes)) (limit : Nat)
    (cs : List (Call Bytes Bytes)) (w : Wal Bytes Bytes), ({ batchLimit := limit } : Wal _ _).calls cs = w →
      w.sent = [] → (∀ entry ∈ w.logged, Recoverable entry) → recover w.file = w.logged := by
  intro h
  let _ := knownEncoding [almostBlock, .recordUpdate [2] [7]]
  obtain ⟨w, hw⟩ : ∃ w, ({ batchLimit := 10 } : Wal Bytes Bytes).calls
      (oneByOne almostBlock (.recordUpdate [2] [7])) = w := ⟨_, rfl⟩
  have hlogged : w.logged = [almostBlock, .recordUpdate [2] [7]] := by rw [← hw]; decide +kernel
  have hsent : w.sent = [] := by rw [← hw]; decide +kernel
  have hrecovered : (recover w.file : List (WalEntry Bytes Bytes)).length = 1 := by rw [← hw]; decide +kernel
  have hentries : ∀ entry ∈ w.logged, Recoverable entry := by
    rw [hlogged]
    exact recoverable_of_known (List.forall_mem_cons.2
      ⟨⟨[1], _, rfl, by rw [List.length_replicate]; decide⟩,
        List.forall_mem_singleton.2 ⟨[2], [7], rfl, by decide⟩⟩)
  rw [h _ 10 _ w hw hsent hentries, hlogged] at hrecovered
  cases hrecovered

end Wal

end KsSql
