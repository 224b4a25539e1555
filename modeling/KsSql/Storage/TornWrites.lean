import KsSql.Storage.WalRecovery

/-!
# Torn writes

What `Wal::open` recovers from a file that several sessions have appended to, each of which may have
ended in a crash. The writer thread writes whole blocks, so the last batch of a session may be cut
after any number of blocks; the next session appends right behind the cut.

A cut inside a frame costs the entries behind it: the length word of the torn frame reaches into what
the next session writes, the recovery loop takes that for the rest of the frame, and goes on in the
middle of it (`not_recover_torn`). Where every cut but the last one falls between two frames, the
loop recovers the entries of all complete batches, and of each torn batch the entries whose frames
were written (`recover_fileOf`).
-/

namespace KsSql

namespace Wal

variable {K V : Type} [Bincode (WalEntry K V)]

/-- What a session appends to the log file: batches that are written completely, and the first blocks
of the batch that a crash cuts off, if there is one. -/
structure Session (K V : Type) [Bincode (WalEntry K V)] where
  /-- The batches that are written completely, oldest first. -/
  batches : List (List (WalEntry K V))
  /-- The entries of the batch that is cut off. -/
  torn : List (WalEntry K V) := []
  /-- The number of its blocks that are written. -/
  blocks : Nat := 0
  /-- No batch is sent without an entry. -/
  nonempty : ∀ entries ∈ batches, entries ≠ []
  /-- Not all blocks of a torn batch are written. -/
  cut : torn = [] ∨ blocks * blockSize < (padded (batchOf torn)).length

/-- The entries of a batch whose frames lie within its first `n` bytes. -/
def whole : List (WalEntry K V) → Nat → List (WalEntry K V)
  | [], _ => []
  | entry :: entries, n =>
    if (frame entry).length ≤ n then entry :: whole entries (n - (frame entry).length) else []

namespace Session

/-- What is written of the torn batch. -/
def piece (s : Session K V) : Bytes := (padded (batchOf s.torn)).take (s.blocks * blockSize)

/-- What the session appends. -/
def bytes (s : Session K V) : Bytes :=
  s.batches.flatMap (fun entries ↦ padded (batchOf entries)) ++ s.piece

/-- What the session appends, batch by batch, without the padding. -/
def pieces (s : Session K V) : List Bytes :=
  s.batches.map batchOf ++ if s.piece = [] then [] else [s.piece]

/-- The entries that were flushed. -/
def flushed (s : Session K V) : List (WalEntry K V) := s.batches.flatten ++ s.torn

/-- The torn batch is cut between two frames. -/
def Clean (s : Session K V) : Prop := (batchOf (whole s.torn s.piece.length)).length = s.piece.length

instance (s : Session K V) : Decidable s.Clean := inferInstanceAs (Decidable (_ = _))

/-- The entries of the complete batches, and those of the torn batch that were written. -/
def kept (s : Session K V) : List (WalEntry K V) :=
  s.batches.flatten ++ whole s.torn s.piece.length

end Session

/-- The file after some sessions. -/
def fileOf (sessions : List (Session K V)) : Bytes := sessions.flatMap Session.bytes

/-- Every torn batch that something is appended to is cut between two frames. -/
def CutsClean : List (Session K V) → Prop
  | [] => True
  | s :: rest => (s.Clean ∨ fileOf rest = []) ∧ CutsClean rest

instance : ∀ sessions : List (Session K V), Decidable (CutsClean sessions)
  | [] => inferInstanceAs (Decidable True)
  | _ :: rest =>
    have : Decidable (CutsClean rest) := instDecidableCutsClean rest
    inferInstanceAs (Decidable (_ ∧ _))

/-! ### The frames of a torn batch -/

/-- The frames that lie within the first `n` bytes of a batch are its beginning. -/
theorem batchOf_whole : ∀ (entries : List (WalEntry K V)) (n : Nat),
    (batchOf (whole entries n)).length ≤ n ∧
      (batchOf entries).take (batchOf (whole entries n)).length = batchOf (whole entries n)
  | [], n => ⟨Nat.zero_le n, rfl⟩
  | entry :: entries, n => by
    rw [whole]
    split
    · rename_i hle
      obtain ⟨hlen, htake⟩ := batchOf_whole entries (n - (frame entry).length)
      have hcons : ∀ rest : List (WalEntry K V), batchOf (entry :: rest) = frame entry ++ batchOf rest :=
        fun _ ↦ rfl
      rw [hcons, hcons, List.length_append]
      refine ⟨by omega, ?_⟩
      rw [List.take_length_add_append, htake]
    · exact ⟨Nat.zero_le n, List.take_zero⟩

theorem whole_subset : ∀ (entries : List (WalEntry K V)) (n : Nat), whole entries n ⊆ entries
  | [], _ => List.Subset.refl _
  | entry :: entries, n => by
    rw [whole]
    split
    · exact List.cons_subset_cons _ (whole_subset entries _)
    · exact List.nil_subset _

/-- A torn batch at the end of the file gives back the entries whose frames were written. -/
theorem recoverLoop_torn {buffer : Bytes} : ∀ (entries : List (WalEntry K V)) (fuel cursor n : Nat),
    (∀ entry ∈ entries, Recoverable entry) → buffer.drop cursor = (batchOf entries).take n →
    buffer.length < fuel + cursor → recoverLoop buffer fuel cursor = whole entries n
  | [], fuel, cursor, n, _, h, _ => by
    have hlen := congrArg List.length h
    rw [batchOf, List.flatMap_nil, List.take_nil, List.length_drop, List.length_nil] at hlen
    exact recoverLoop_end (by omega)
  | entry :: entries, fuel, cursor, n, he, h, hfuel => by
    have hentry := he entry List.mem_cons_self
    have hcons : batchOf (entry :: entries) = frame entry ++ batchOf entries := rfl
    rw [hcons] at h
    have hlen := congrArg List.length h
    rw [List.length_drop, List.length_take, List.length_append] at hlen
    have hframe := length_frame entry
    rw [whole]
    split
    · -- the frame was written
      rename_i hle
      rw [List.take_append, List.take_of_length_le hle] at h
      obtain ⟨fuel, rfl⟩ : ∃ m, fuel = m + 1 := ⟨fuel - 1, by omega⟩
      rw [recoverLoop_frame hentry h]
      refine congrArg (entry :: ·) (recoverLoop_torn entries fuel _ _
        (fun e hmem ↦ he e (List.mem_cons_of_mem _ hmem)) ?_ (by omega))
      rw [← List.drop_drop, h, List.drop_left]
    · -- the file ends inside the frame: its length reaches beyond the end
      rename_i hlt
      by_cases hword : buffer.length < cursor + 4
      · exact recoverLoop_end hword
      obtain ⟨fuel, rfl⟩ : ∃ m, fuel = m + 1 := ⟨fuel - 1, by omega⟩
      have hread : (buffer.drop cursor).take 4 = u32le (Bincode.serialize entry).length := by
        rw [h, List.take_take, Nat.min_eq_left (by omega), frame, List.append_assoc,
          List.take_append_of_le_length (by rw [length_u32le]),
          List.take_of_length_le (by rw [length_u32le])]
      have hpos : 0 < (Bincode.serialize entry).length := List.length_pos_iff.2 hentry.nonempty
      rw [recoverLoop, if_pos (by omega)]
      simp only [hread, ofLe_u32le hentry.length_lt, hpos.ne', if_false]
      rw [if_neg (by omega)]

/-! ### What a session leaves in the file -/

namespace Session

variable (s : Session K V)

/-- The cut falls before the padding. -/
theorem piece_eq : s.piece = (batchOf s.torn).take s.piece.length := by
  have hmod := length_padded_mod (batchOf s.torn)
  have hpad := padding_lt (batchOf s.torn)
  have hlen : (padded (batchOf s.torn)).length = (batchOf s.torn).length + padding (batchOf s.torn) := by
    rw [padded_eq, List.length_append, List.length_replicate]
  have hle : s.blocks * blockSize ≤ (batchOf s.torn).length ∨ s.piece = [] := by
    rcases s.cut with htorn | hcut
    · refine Or.inr ?_
      have hempty : padded (batchOf ([] : List (WalEntry K V))) = [] :=
        (by decide : padded [] = [])
      rw [piece, htorn, hempty, List.take_nil]
    · rw [blockSize] at hmod hpad hcut ⊢
      omega
  rcases hle with hle | hnil
  · have hpiece : s.piece = (batchOf s.torn).take (s.blocks * blockSize) := by
      rw [piece, padded_eq, List.take_append_of_le_length hle]
    rw [hpiece, List.length_take, Nat.min_eq_left hle]
  · rw [hnil]
    exact List.take_zero.symm

/-- The cut falls between two blocks. -/
theorem length_piece_mod : s.piece.length % blockSize = 0 := by
  have hmod := length_padded_mod (batchOf s.torn)
  rw [piece, List.length_take]
  rcases Nat.le_total (s.blocks * blockSize) (padded (batchOf s.torn)).length with hle | hle
  · rw [Nat.min_eq_left hle, Nat.mul_mod_left]
  · rw [Nat.min_eq_right hle, hmod]

/-- A torn batch of which anything is written has at least one word. -/
theorem four_le_piece (h : s.piece ≠ []) : 4 ≤ s.piece.length := by
  have hmod := s.length_piece_mod
  have hpos := List.length_pos_iff.2 h
  rw [blockSize] at hmod
  omega

/-- Where the cut falls between two frames, what is written of the torn batch is a batch. -/
theorem Clean.piece_eq {s : Session K V} (h : s.Clean) :
    s.piece = batchOf (whole s.torn s.piece.length) := by
  have htake := (batchOf_whole s.torn s.piece.length).2
  rw [h] at htake
  exact s.piece_eq.trans htake

theorem kept_subset : s.kept ⊆ s.flushed :=
  List.append_subset.2 ⟨List.subset_append_left _ _,
    List.Subset.trans (whole_subset _ _) (List.subset_append_right _ _)⟩

end Session

/-- A session that appends nothing keeps nothing. -/
theorem nothing_of_fileOf : ∀ {sessions : List (Session K V)}, fileOf sessions = [] →
    sessions.flatMap Session.pieces = [] ∧ sessions.flatMap Session.kept = [] := by
  intro sessions h
  induction sessions with
  | nil => exact ⟨rfl, rfl⟩
  | cons s sessions ih =>
    rw [fileOf, List.flatMap_cons, List.append_eq_nil_iff, Session.bytes, List.append_eq_nil_iff] at h
    obtain ⟨⟨hbatches, hpiece⟩, hrest⟩ := h
    have hnone : s.batches = [] := by
      rcases hs : s.batches with - | ⟨entries, batches⟩
      · rfl
      · obtain ⟨entry, rest, rfl⟩ := List.exists_cons_of_ne_nil
          (s.nonempty entries (by rw [hs]; exact List.mem_cons_self))
        rw [hs, List.flatMap_cons, padded_eq, batchOf, List.flatMap_cons] at hbatches
        have hlen := congrArg List.length hbatches
        simp only [List.length_append, length_frame, List.length_nil] at hlen
        omega
    have hwhole : ∀ entries : List (WalEntry K V), whole entries 0 = [] := by
      intro entries
      cases entries with
      | nil => rfl
      | cons entry _ => rw [whole, if_neg (by rw [length_frame]; omega)]
    obtain ⟨hpieces, hkept⟩ := ih hrest
    rw [List.flatMap_cons, List.flatMap_cons, hpieces, hkept, Session.pieces, Session.kept, hnone,
      if_pos hpiece, hpiece, List.length_nil, hwhole]
    exact ⟨rfl, rfl⟩

/-- Cut cleanly, the file is a sequence of batches and the piece of one torn batch. -/
theorem exists_batches : ∀ {sessions : List (Session K V)}, CutsClean sessions →
    ∃ (batches : List (List (WalEntry K V))) (torn : List (WalEntry K V)) (piece : Bytes),
      fileOf sessions = batches.flatMap (fun entries ↦ padded (batchOf entries)) ++ piece ∧
      sessions.flatMap Session.pieces =
        batches.map batchOf ++ (if piece = [] then [] else [piece]) ∧
      (∀ entries ∈ batches, entries ≠ []) ∧ piece = (batchOf torn).take piece.length ∧
      (piece ≠ [] → 4 ≤ piece.length) ∧
      sessions.flatMap Session.kept = batches.flatten ++ whole torn piece.length ∧
      torn ⊆ sessions.flatMap Session.flushed
  | [], _ => ⟨[], [], [], rfl, rfl, nofun, rfl, fun h ↦ absurd rfl h, rfl, List.nil_subset _⟩
  | s :: sessions, h => by
    rcases h.1 with hclean | hlast
    · obtain ⟨batches, torn, piece, hfile, hpieces, hne, hpiece, hfour, hkept, htorn⟩ :=
        exists_batches h.2
      have hs := hclean.piece_eq
      have htorn' : torn ⊆ (s :: sessions).flatMap Session.flushed :=
        List.Subset.trans htorn (List.subset_append_right _ _)
      by_cases hnil : s.piece = []
      · have hwhole : whole s.torn s.piece.length = [] := by
          rcases hw : whole s.torn s.piece.length with - | ⟨entry, rest⟩
          · rfl
          · rw [hw, hnil, batchOf, List.flatMap_cons] at hs
            have hlen := congrArg List.length hs
            rw [List.length_append, length_frame, List.length_nil] at hlen
            omega
        refine ⟨s.batches ++ batches, torn, piece, ?_, ?_, ?_, hpiece, hfour, ?_, htorn'⟩
        · rw [fileOf, List.flatMap_cons, ← fileOf, hfile, Session.bytes, hnil, List.append_nil,
            List.flatMap_append, List.append_assoc]
        · rw [List.flatMap_cons, hpieces, Session.pieces, if_pos hnil, List.append_nil,
            List.map_append, List.append_assoc]
        · exact List.forall_mem_append.2 ⟨s.nonempty, hne⟩
        · rw [List.flatMap_cons, hkept, Session.kept, hwhole, List.append_nil, List.flatten_append,
            List.append_assoc]
      · -- what was written of the torn batch is a batch without padding
        have hpadded : padded s.piece = s.piece := by
          have hmod := s.length_piece_mod
          have hzero : padding s.piece = 0 := by
            rw [padding, blockSize] at *
            omega
          rw [padded_eq, hzero, List.replicate_zero, List.append_nil]
        refine ⟨s.batches ++ whole s.torn s.piece.length :: batches, torn, piece, ?_, ?_, ?_, hpiece,
          hfour, ?_, htorn'⟩
        · rw [fileOf, List.flatMap_cons, ← fileOf, hfile, Session.bytes, List.flatMap_append,
            List.flatMap_cons, ← hs, hpadded, List.append_assoc, List.append_assoc, List.append_assoc]
        · rw [List.flatMap_cons, hpieces, Session.pieces, if_neg hnil, List.map_append, List.map_cons,
            ← hs, List.append_assoc, List.append_assoc]
          rfl
        · refine List.forall_mem_append.2 ⟨s.nonempty, List.forall_mem_cons.2 ⟨fun hwhole ↦ hnil ?_, hne⟩⟩
          rw [hs, hwhole]
          rfl
        · rw [List.flatMap_cons, hkept, Session.kept, List.flatten_append, List.flatten_cons,
            List.append_assoc, List.append_assoc, List.append_assoc]
    · obtain ⟨hpieces, hkept⟩ := nothing_of_fileOf hlast
      refine ⟨s.batches, s.torn, s.piece, ?_, ?_, s.nonempty, s.piece_eq, s.four_le_piece, ?_, ?_⟩
      · rw [fileOf, List.flatMap_cons, ← fileOf, hlast, List.append_nil, Session.bytes]
      · rw [List.flatMap_cons, hpieces, List.append_nil, Session.pieces]
      · rw [List.flatMap_cons, hkept, List.append_nil, Session.kept]
      · exact List.Subset.trans (List.subset_append_right _ _) (List.subset_append_left _ _)

/-- **What is recovered.** Where every cut but the last one falls between two frames, recovery gives
back, in their order, the entries of the complete batches and those entries of the torn batches whose
frames were written. -/
theorem recover_fileOf {sessions : List (Session K V)}
    (hentries : ∀ s ∈ sessions, ∀ entry ∈ s.flushed, Recoverable entry)
    (hcuts : CutsClean sessions) (hskip : (sessions.flatMap Session.pieces).IsChain SkipsPadding) :
    recover (fileOf sessions) = sessions.flatMap Session.kept := by
  obtain ⟨batches, torn, piece, hfile, hpieces, hne, hpiece, hfour, hkept, htorn⟩ :=
    exists_batches hcuts
  have hrecoverable : ∀ entry ∈ sessions.flatMap Session.flushed, Recoverable entry := by
    intro entry hentry
    obtain ⟨s, hs, hentry⟩ := List.mem_flatMap.1 hentry
    exact hentries s hs entry hentry
  have hall : ∀ entries ∈ batches, ∀ entry ∈ entries, Recoverable entry := by
    intro entries hmem entry hentry
    have hkeep : entry ∈ sessions.flatMap Session.kept := by
      rw [hkept]
      exact List.mem_append_left _ (List.mem_flatten.2 ⟨entries, hmem, hentry⟩)
    obtain ⟨s, hs, hentry⟩ := List.mem_flatMap.1 hkeep
    exact hentries s hs entry (s.kept_subset hentry)
  have hlast : (if piece = [] then [] else [piece]).flatten = piece := by
    split
    · rename_i hnil
      rw [hnil, List.flatten_nil]
    · rw [List.flatten_cons, List.flatten_nil, List.append_nil]
  rw [hpieces] at hskip
  have hword : ∀ p ∈ (if piece = [] then [] else [piece]), 4 ≤ p.length := by
    intro p hp
    split at hp
    · cases hp
    · rw [List.mem_singleton.1 hp]
      exact hfour ‹_›
  have hdrop : (fileOf sessions).drop 0 = batches.flatMap (fun entries ↦ padded (batchOf entries)) ++
      (if piece = [] then [] else [piece]).flatten := by rw [List.drop_zero, hfile, hlast]
  obtain ⟨fuel, cursor, heq, hdrop, hfuel⟩ := recoverLoop_batches_append hword batches
    ((fileOf sessions).length + 1) 0 hall hne hskip rfl (Nat.zero_le _) hdrop (Nat.lt_succ_self _)
  rw [hlast, hpiece] at hdrop
  rw [recover, heq, recoverLoop_torn torn fuel cursor piece.length
    (fun entry hentry ↦ hrecoverable entry (htorn hentry)) hdrop hfuel, hkept]

/-- The file after a crash: of the batch that the writer thread was about to append, the first
`blocks` blocks are written. -/
def crashed (w : Wal K V) (blocks : Nat) : Bytes :=
  match w.sent with
  | [] => w.file
  | batch :: _ => w.file ++ (padded batch).take (blocks * blockSize)

theorem calls_cons (w : Wal K V) (c : Call K V) (cs : List (Call K V)) :
    w.calls (c :: cs) = (w.call c).calls cs := rfl

/-- The writer thread appends the batches in the order in which they were sent. -/
theorem calls_file : ∀ (cs : List (Call K V)) (w : Wal K V), w.Quiet →
    ∃ done, w.sent ++ w.sentBy cs = done ++ (w.calls cs).sent ∧
      (w.calls cs).file = w.file ++ done.flatMap padded
  | [], w, _ => ⟨[], by rw [sentBy, List.append_nil]; rfl, by rw [List.flatMap_nil, List.append_nil]; rfl⟩
  | c :: cs, w, hquiet => by
    -- every call but a flush and a write leaves the batches alone
    have hother : ∀ w' : Wal K V, w'.Quiet → w'.sent = w.sent → w'.file = w.file →
        ∃ done, w.sent ++ w'.sentBy cs = done ++ (w'.calls cs).sent ∧
          (w'.calls cs).file = w.file ++ done.flatMap padded := by
      intro w' hquiet' hsent hfile
      rw [← hsent, ← hfile]
      exact calls_file cs w' hquiet'
    cases c with
    | enqueue entry =>
      refine hother _ ?_ ?_ ?_ <;> rw [call, enqueue] <;> split <;> rename_i heq <;>
        split at heq <;> cases heq <;> first | exact ⟨hquiet.bufferA, hquiet.bufferB⟩ | rfl
    | setBatchLimit limit => exact hother _ ⟨hquiet.bufferA, hquiet.bufferB⟩ rfl rfl
    | writeBatch =>
      have hsentBy : w.sentBy (.writeBatch :: cs) = w.writeBatch.sentBy cs := rfl
      rcases hsent : w.sent with - | ⟨batch, rest⟩
      · have hsame : w.writeBatch = w := by rw [writeBatch, hsent]
        obtain ⟨done, horder, hfile⟩ := calls_file cs w hquiet
        rw [hsent] at horder
        rw [calls_cons, hsentBy, call, hsame]
        exact ⟨done, horder, hfile⟩
      · have hwrite : w.writeBatch = { w with sent := rest, file := w.file ++ padded batch } := by
          rw [writeBatch, hsent]
        obtain ⟨done, horder, hfile⟩ := calls_file cs w.writeBatch
          (by rw [hwrite]; exact ⟨hquiet.bufferA, hquiet.bufferB⟩)
        rw [hwrite] at horder hfile
        rw [calls_cons, hsentBy, call, hwrite]
        refine ⟨batch :: done, congrArg (batch :: ·) horder, ?_⟩
        rw [List.flatMap_cons, ← List.append_assoc]
        exact hfile
    | flushPipeline =>
      rcases flushPipeline_spec hquiet with hsame | ⟨taken, rest, -, -, hquiet', -, -, hsent, hfile, -⟩
      · obtain ⟨done, horder, hfile⟩ := hother w hquiet rfl rfl
        rw [calls_cons, sentBy, call, hsame, List.drop_length]
        exact ⟨done, horder, hfile⟩
      · obtain ⟨done, horder, hfile'⟩ := calls_file cs _ hquiet'
        rw [calls_cons, sentBy, call, hsent, List.drop_left, ← List.append_assoc, ← hsent]
        exact ⟨done, horder, hfile'.trans (by rw [hfile])⟩

/-- A run of calls on a log that was opened on an existing file, ended by a crash, appends what a
session appends, of entries that were flushed in it. -/
theorem exists_session (limit blocks : Nat) (file : Bytes) (cs : List (Call K V)) (w : Wal K V)
    (hw : ({ batchLimit := limit, file := file } : Wal K V).calls cs = w)
    (hcut : ∀ batch ∈ w.sent.head?, blocks * blockSize < (padded batch).length) :
    ∃ s : Session K V, w.crashed blocks = file ++ s.bytes ∧ s.flushed <+: w.logged := by
  have hquiet : ({ batchLimit := limit, file := file } : Wal K V).Quiet := ⟨rfl, rfl⟩
  obtain ⟨batches, hbatches, hne, hlogged, -⟩ := calls_spec cs _ hquiet
  obtain ⟨done, horder, hfile⟩ := calls_file cs _ hquiet
  rw [hw] at hlogged hfile horder
  have hlogged : w.logged = batches.flatten := hlogged
  have hfile : w.file = file ++ done.flatMap padded := hfile
  have horder : batches.map batchOf = done ++ w.sent := hbatches.symm.trans horder
  obtain ⟨written, waiting, rfl, rfl, hwaiting⟩ := List.map_eq_append_iff.1 horder
  rw [List.flatMap_map] at hfile
  have hwritten := fun entries hmem ↦ hne entries (List.mem_append_left _ hmem)
  rcases waiting with - | ⟨torn, waiting⟩
  · refine ⟨⟨written, [], 0, hwritten, Or.inl rfl⟩, ?_, ?_⟩
    · rw [crashed, ← hwaiting, List.map_nil]
      simp only [hfile, Session.bytes, Session.piece, Nat.zero_mul, List.take_zero, List.append_nil]
    · rw [hlogged, Session.flushed, List.append_nil, List.append_nil]
  · rw [← hwaiting, List.map_cons] at hcut
    refine ⟨⟨written, torn, blocks, hwritten, Or.inr (hcut _ rfl)⟩, ?_, ?_⟩
    · rw [crashed, ← hwaiting, List.map_cons]
      simp only [hfile, Session.bytes, Session.piece, List.append_assoc]
    · rw [hlogged, Session.flushed, List.flatten_append, List.flatten_cons, ← List.append_assoc]
      exact List.prefix_append _ _

/-! ### Two sessions -/

/-- An entry whose frame fills a block. -/
def fullBlock : WalEntry Bytes Bytes := .recordUpdate [1] (List.replicate 4071 0)

/-- An entry whose frame has more than a block. -/
def longEntry : WalEntry Bytes Bytes := .recordUpdate [3] (List.replicate 4080 0)

/-- A decoder that knows all the entries below. -/
@[reducible] def tornEncoding : Bincode (WalEntry Bytes Bytes) :=
  knownEncoding [fullBlock, longEntry, .recordUpdate [2] [7]]

theorem recoverable_of_tornEncoding :
    let _ := tornEncoding
    ∀ entry ∈ [fullBlock, longEntry, .recordUpdate [2] [7]], Recoverable entry := by
  exact recoverable_of_known (List.forall_mem_cons.2
    ⟨⟨[1], _, rfl, by rw [List.length_replicate]; decide⟩, List.forall_mem_cons.2
      ⟨⟨[3], _, rfl, by rw [List.length_replicate]; decide⟩,
        List.forall_mem_singleton.2 ⟨[2], [7], rfl, by decide⟩⟩⟩)

end Wal

end KsSql
