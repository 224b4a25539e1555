import KsSql.Storage.WalRecovery
import Mathlib.Logic.Function.Basic

/-!
# Flushes that overlap

Any number of calls of `flush_pipeline` at a time, step by step, with entries coming into the queue
and leaving it through the background drain in between. A call chooses one of the two buffers, takes
that buffer's lock, and keeps it until its batch is sent; it flips `active_is_a` before it sends.

The next call therefore chooses the other buffer, and may send its batch first
(`not_received_in_order`). The log keeps the order in which entries were enqueued where every batch
is sent in its turn: no other call holds an entry that was popped earlier (`received_in_order`).
-/

namespace KsSql

namespace Wal

variable {K V : Type}

/-- How far a call of `flush_pipeline` is. `popped` records the entries it took, each with its place
in the order in which entries were enqueued. -/
inductive Flusher (K V : Type)
  /-- Not in a call. -/
  | idle
  /-- The queue had entries. -/
  | counted (queued : Nat)
  /-- `active_is_a` is read; the next step takes the lock of that buffer. -/
  | chose (queued : Nat) (isA : Bool)
  /-- In the pop loop. -/
  | filling (f : Flush) (popped : List (Nat × WalEntry K V))
  /-- Behind the pop loop. -/
  | filled (f : Flush) (popped : List (Nat × WalEntry K V))
  /-- The batch is taken out of the buffer. -/
  | taken (f : Flush) (batch : Bytes) (popped : List (Nat × WalEntry K V))
  /-- `active_is_a` is flipped. -/
  | toggled (f : Flush) (batch : Bytes) (popped : List (Nat × WalEntry K V))

/-- The log, and the calls of `flush_pipeline` on it. -/
structure FlushRace (K V : Type) where
  /-- The log. -/
  wal : Wal K V
  /-- The calls. -/
  flushers : List (Flusher K V)
  /-- Which call holds the lock of a buffer. -/
  holder : Bool → Option Nat := fun _ ↦ none
  /-- History: the entries of the batches sent, in the order in which the writer thread receives
  them. -/
  received : List (List (Nat × WalEntry K V)) := []

/-- The entries that a call has popped and not sent. -/
def Flusher.held : Flusher K V → List (Nat × WalEntry K V)
  | .filling _ popped | .filled _ popped | .taken _ _ popped | .toggled _ _ popped => popped
  | _ => []

/-- The entries whose frames a call has put into its buffer. -/
def Flusher.buffered : Flusher K V → List (Nat × WalEntry K V)
  | .filling _ popped | .filled _ popped => popped
  | _ => []

/-- The entries of the batch that a call sends in its next step. -/
def Flusher.sending : Flusher K V → List (Nat × WalEntry K V)
  | .toggled _ _ popped => popped
  | _ => []

/-- The buffer whose lock a call holds. -/
def Flusher.locked : Flusher K V → Option Bool
  | .filling f _ | .filled f _ | .taken f _ _ | .toggled f _ _ => some f.isA
  | _ => none

/-- A step of the race: one step of a call, or one of the other operations on the log. -/
inductive FlushStep (K V : Type)
  | enqueue (entry : WalEntry K V)
  | popEntry
  | setBatchLimit (limit : Nat)
  | writeBatch
  | flush (i : Nat)

namespace FlushRace

/-- How far the call `i` is. -/
def flusher (r : FlushRace K V) (i : Nat) : Flusher K V := r.flushers.getD i .idle

/-- The call `i` goes on. -/
def set (r : FlushRace K V) (i : Nat) (fl : Flusher K V) : FlushRace K V :=
  { r with flushers := r.flushers.set i fl }

/-- Give the lock of a buffer to a call, or back. -/
def setHolder (r : FlushRace K V) (isA : Bool) (i : Option Nat) : FlushRace K V :=
  { r with holder := Function.update r.holder isA i }

/-- The place of the oldest entry in the queue. -/
def next (r : FlushRace K V) : Nat := r.wal.enqueued.length - r.wal.queue.length

variable [Bincode (WalEntry K V)]

/-- The next step of the call `i`. -/
def advance (r : FlushRace K V) (i : Nat) : FlushRace K V :=
  match r.flusher i with
  | .idle =>
    if r.wal.queue.length = 0 then r else r.set i (.counted r.wal.queue.length)
  | .counted queued => r.set i (.chose queued r.wal.activeIsA)
  | .chose queued isA =>
    match r.holder isA with
    | some _ => r
    | none =>
      let limit := if queued > 1000000 then r.wal.batchLimit * 4 else r.wal.batchLimit
      (r.setHolder isA (some i)).set i (.filling ⟨isA, limit⟩ [])
  | .filling f popped =>
    match r.wal.queue with
    | [] => r.set i (.filled f popped)
    | entry :: rest =>
      let active := r.wal.buffer f.isA ++ frame entry
      let popped := popped ++ [(r.next, entry)]
      { r with wal := { r.wal.setBuffer f.isA active with
                        queue := rest, logged := r.wal.logged ++ [entry] } }.set i
        (if active.length ≥ f.limit then .filled f popped else .filling f popped)
  | .filled f popped =>
    let batch := r.wal.buffer f.isA
    if batch.length = 0 then (r.setHolder f.isA none).set i .idle
    else { r with wal := r.wal.setBuffer f.isA [] }.set i (.taken f batch popped)
  | .taken f batch popped =>
    { r with wal := { r.wal with activeIsA := !f.isA } }.set i (.toggled f batch popped)
  | .toggled f batch popped =>
    ({ r with wal := { r.wal with sent := r.wal.sent ++ [batch] }
              received := r.received ++ [popped] }.setHolder f.isA none).set i .idle

/-- Take a step. -/
def step (r : FlushRace K V) : FlushStep K V → FlushRace K V
  | .enqueue entry =>
    match r.wal.enqueue entry with
    | .ok w => { r with wal := w }
    | .error _ => r
  | .popEntry =>
    match r.wal.popEntry with
    | some (_, w) => { r with wal := w }
    | none => r
  | .setBatchLimit limit => { r with wal := { r.wal with batchLimit := limit } }
  | .writeBatch => { r with wal := r.wal.writeBatch }
  | .flush i => r.advance i

/-- Take steps one after another. -/
def run (r : FlushRace K V) (steps : List (FlushStep K V)) : FlushRace K V := steps.foldl step r

/-- A log that was opened on an existing file, and `n` calls that may start. -/
def start (n limit : Nat) (file : Bytes) : FlushRace K V :=
  { wal := { batchLimit := limit, file := file }, flushers := List.replicate n .idle }

/-- A batch is sent in its turn: every entry that another call has popped and not sent was enqueued
after the entries of the batch. -/
def InTurn (r : FlushRace K V) : FlushStep K V → Prop
  | .flush i => ∀ j < r.flushers.length, j ≠ i →
      ∀ p ∈ (r.flusher i).sending, ∀ q ∈ (r.flusher j).held, p.1 < q.1
  | _ => True

instance (r : FlushRace K V) : ∀ s, Decidable (r.InTurn s)
  | .flush i => inferInstanceAs (Decidable (∀ j < r.flushers.length, j ≠ i →
      ∀ p ∈ (r.flusher i).sending, ∀ q ∈ (r.flusher j).held, p.1 < q.1))
  | .enqueue _ | .popEntry | .setBatchLimit _ | .writeBatch => inferInstanceAs (Decidable True)

/-- Every batch of a run is sent in its turn. -/
def AllInTurn (r : FlushRace K V) : List (FlushStep K V) → Prop
  | [] => True
  | s :: steps => r.InTurn s ∧ AllInTurn (r.step s) steps

instance : ∀ (steps : List (FlushStep K V)) (r : FlushRace K V), Decidable (r.AllInTurn steps)
  | [], _ => inferInstanceAs (Decidable True)
  | s :: steps, r =>
    have : Decidable ((r.step s).AllInTurn steps) := instDecidableAllInTurn steps (r.step s)
    inferInstanceAs (Decidable (_ ∧ _))

/-! ### What the calls hold -/

section Steps

variable (r : FlushRace K V)

omit [Bincode (WalEntry K V)] in
/-- Only the call that goes on changes. -/
theorem flusher_set (i j : Nat) (fl : Flusher K V) :
    (r.set i fl).flusher j = if j = i ∧ i < r.flushers.length then fl else r.flusher j := by
  simp only [flusher, set, List.getD_eq_getElem?_getD, List.getElem?_set]
  split <;> rename_i h
  · subst h
    split <;> rename_i hlt
    · rw [if_pos ⟨rfl, hlt⟩]
      rfl
    · rw [if_neg (by omega), List.getElem?_eq_none (by omega)]
  · rw [if_neg (by omega)]

omit [Bincode (WalEntry K V)] in
/-- A call that is under way is one of the calls. -/
theorem lt_of_flusher_ne {i : Nat} (h : r.flusher i ≠ .idle) : i < r.flushers.length := by
  by_contra hle
  exact h (by rw [flusher, List.getD_eq_getElem?_getD, List.getElem?_eq_none (by omega)]; rfl)

omit [Bincode (WalEntry K V)] in
/-- One of the calls goes on. -/
theorem flusher_set_of_lt {r r' : FlushRace K V} {i : Nat} (hlt : i < r.flushers.length)
    (hflushers : r'.flushers = r.flushers) (fl : Flusher K V) (j : Nat) :
    (r'.set i fl).flusher j = if j = i then fl else r.flusher j := by
  rw [flusher_set, hflushers]
  by_cases hj : j = i
  · rw [if_pos ⟨hj, hlt⟩, if_pos hj]
  · rw [if_neg (fun h ↦ hj h.1), if_neg hj, flusher, flusher, hflushers]

/-- A step of a call that takes no entry from the queue and sends none. -/
structure Quiet (r r' : FlushRace K V) : Prop where
  queue : r'.wal.queue = r.wal.queue
  enqueued : r'.wal.enqueued = r.wal.enqueued
  received : r'.received = r.received
  held : ∀ j, (r'.flusher j).held.Sublist (r.flusher j).held

/-- A step of the call `i` that pops an entry. -/
structure Pops (r r' : FlushRace K V) (i : Nat) (entry : WalEntry K V) : Prop where
  queue : r.wal.queue = entry :: r'.wal.queue
  enqueued : r'.wal.enqueued = r.wal.enqueued
  received : r'.received = r.received
  held : ∀ j, (r'.flusher j).held =
    if j = i then (r.flusher i).held ++ [(r.next, entry)] else (r.flusher j).held

/-- A step of the call `i` that sends its batch. -/
structure Sends (r r' : FlushRace K V) (i : Nat) : Prop where
  queue : r'.wal.queue = r.wal.queue
  enqueued : r'.wal.enqueued = r.wal.enqueued
  received : r'.received = r.received ++ [(r.flusher i).held]
  held : ∀ j, (r'.flusher j).held = if j = i then [] else (r.flusher j).held
  sending : (r.flusher i).sending = (r.flusher i).held

omit [Bincode (WalEntry K V)] in
/-- A call that goes on, and holds no more than it held. -/
theorem quiet_set {r r' : FlushRace K V} {i : Nat} {fl : Flusher K V}
    (hqueue : r'.wal.queue = r.wal.queue) (henqueued : r'.wal.enqueued = r.wal.enqueued)
    (hreceived : r'.received = r.received) (hflushers : r'.flushers = r.flushers)
    (hheld : fl.held.Sublist (r.flusher i).held) : r.Quiet (r'.set i fl) := by
  refine ⟨hqueue, henqueued, hreceived, fun j ↦ ?_⟩
  rw [flusher_set]
  split
  · rename_i hj
    rw [hj.1]
    exact hheld
  · rw [flusher, flusher, hflushers]

/-- **What a step of a call does** to the entries: nothing, or it pops one, or it sends those it
holds. -/
theorem advance_cases (i : Nat) :
    r.Quiet (r.advance i) ∨ (∃ entry, r.Pops (r.advance i) i entry) ∨ r.Sends (r.advance i) i := by
  have hstay : r.Quiet r := ⟨rfl, rfl, rfl, fun _ ↦ List.Sublist.refl _⟩
  rw [advance]
  cases hi : r.flusher i with
  | idle =>
    dsimp only
    split
    · exact Or.inl hstay
    · exact Or.inl (quiet_set rfl rfl rfl rfl (List.nil_sublist _))
  | counted queued => exact Or.inl (quiet_set rfl rfl rfl rfl (List.nil_sublist _))
  | chose queued isA =>
    dsimp only
    split
    · exact Or.inl hstay
    · exact Or.inl (quiet_set rfl rfl rfl rfl (List.nil_sublist _))
  | filling f popped =>
    have hheld : (r.flusher i).held = popped := by rw [hi]; rfl
    dsimp only
    split
    · exact Or.inl (quiet_set rfl rfl rfl rfl (hheld ▸ List.Sublist.refl _))
    · rename_i entry rest hqueue
      refine Or.inr (Or.inl ⟨entry, hqueue, ?_, rfl, fun j ↦ ?_⟩)
      · simp only [FlushRace.set, setBuffer]
        split <;> rfl
      · have hlt : i < r.flushers.length := r.lt_of_flusher_ne (by rw [hi]; rintro ⟨⟩)
        refine (congrArg Flusher.held (flusher_set_of_lt hlt rfl _ j)).trans ?_
        rw [hheld]
        split
        · split <;> rfl
        · rfl
  | filled f popped =>
    have hheld : (r.flusher i).held = popped := by rw [hi]; rfl
    dsimp only
    split
    · exact Or.inl (quiet_set rfl rfl rfl rfl (List.nil_sublist _))
    · refine Or.inl (quiet_set ?_ ?_ rfl rfl (hheld ▸ List.Sublist.refl _)) <;>
        · rw [setBuffer]
          split <;> rfl
  | taken f batch popped =>
    have hheld : (r.flusher i).held = popped := by rw [hi]; rfl
    exact Or.inl (quiet_set rfl rfl rfl rfl (hheld ▸ List.Sublist.refl _))
  | toggled f batch popped =>
    refine Or.inr (Or.inr ⟨rfl, rfl, by rw [hi]; rfl, fun j ↦ ?_, by rw [hi]; rfl⟩)
    have hlt : i < r.flushers.length := r.lt_of_flusher_ne (by rw [hi]; rintro ⟨⟩)
    refine (congrArg Flusher.held (flusher_set_of_lt hlt rfl _ j)).trans ?_
    split <;> rfl

end Steps

/-! ### The order of the entries -/

/-- The entries received so far and those held by the calls are in the order in which they were
enqueued, and come before those in the queue. -/
structure InOrder (r : FlushRace K V) : Prop where
  queued : r.wal.queue.length ≤ r.wal.enqueued.length
  held_lt : ∀ i, ∀ p ∈ (r.flusher i).held, p.1 < r.next
  held_sorted : ∀ i, (r.flusher i).held.Pairwise fun p q ↦ p.1 < q.1
  received_lt : ∀ p ∈ r.received.flatten, p.1 < r.next
  received_sorted : r.received.flatten.Pairwise fun p q ↦ p.1 < q.1
  received_held : ∀ p ∈ r.received.flatten, ∀ i, ∀ q ∈ (r.flusher i).held, p.1 < q.1

omit [Bincode (WalEntry K V)] in
/-- A step that leaves alone what was received, and after which no call holds more than before, keeps
the order. -/
theorem InOrder.frame {r r' : FlushRace K V} (h : r.InOrder)
    (hqueued : r'.wal.queue.length ≤ r'.wal.enqueued.length) (hnext : r.next ≤ r'.next)
    (hheld : ∀ i, (r'.flusher i).held.Sublist (r.flusher i).held)
    (hreceived : r'.received = r.received) : r'.InOrder := by
  refine ⟨hqueued, fun i p hp ↦ ?_, fun i ↦ ?_, fun p hp ↦ ?_, ?_, fun p hp i q hq ↦ ?_⟩
  · exact (h.held_lt i p ((hheld i).subset hp)).trans_le hnext
  · exact (h.held_sorted i).sublist (hheld i)
  · exact (h.received_lt p (hreceived ▸ hp)).trans_le hnext
  · rw [hreceived]
    exact h.received_sorted
  · exact h.received_held p (hreceived ▸ hp) i q ((hheld i).subset hq)

omit [Bincode (WalEntry K V)] in
/-- A call that pops an entry keeps the order: the entry was enqueued after all that were popped. -/
theorem InOrder.pops {r r' : FlushRace K V} (h : r.InOrder) {i : Nat} {entry : WalEntry K V}
    (hpops : r.Pops r' i entry) : r'.InOrder := by
  have hlen := h.queued
  rw [hpops.queue, List.length_cons] at hlen
  have hnext : r'.next = r.next + 1 := by
    rw [next, next, hpops.enqueued, hpops.queue, List.length_cons]
    omega
  refine ⟨by rw [hpops.enqueued]; omega, fun j p hp ↦ ?_, fun j ↦ ?_, fun p hp ↦ ?_, ?_,
    fun p hp j q hq ↦ ?_⟩
  · rw [hnext]
    rw [hpops.held] at hp
    split at hp
    · rcases List.mem_append.1 hp with hp | hp
      · exact Nat.lt_succ_of_lt (h.held_lt i p hp)
      · rw [List.mem_singleton.1 hp]
        exact Nat.lt_succ_self _
    · exact Nat.lt_succ_of_lt (h.held_lt j p hp)
  · rw [hpops.held]
    split
    · refine List.pairwise_append.2 ⟨h.held_sorted i, List.pairwise_singleton _ _, fun p hp q hq ↦ ?_⟩
      rw [List.mem_singleton.1 hq]
      exact h.held_lt i p hp
    · exact h.held_sorted j
  · rw [hnext]
    exact Nat.lt_succ_of_lt (h.received_lt p (hpops.received ▸ hp))
  · rw [hpops.received]
    exact h.received_sorted
  · rw [hpops.received] at hp
    rw [hpops.held] at hq
    split at hq
    · rcases List.mem_append.1 hq with hq | hq
      · exact h.received_held p hp i q hq
      · rw [List.mem_singleton.1 hq]
        exact h.received_lt p hp
    · exact h.received_held p hp j q hq

omit [Bincode (WalEntry K V)] in
/-- A call that sends its batch in its turn keeps the order. -/
theorem InOrder.sends {r r' : FlushRace K V} (h : r.InOrder) {i : Nat} (hsends : r.Sends r' i)
    (hturn : r.InTurn (.flush i)) : r'.InOrder := by
  have hnext : r'.next = r.next := by rw [next, next, hsends.queue, hsends.enqueued]
  have hreceived : r'.received.flatten = r.received.flatten ++ (r.flusher i).held := by
    rw [hsends.received, List.flatten_append, List.flatten_cons, List.flatten_nil, List.append_nil]
  refine ⟨by rw [hsends.queue, hsends.enqueued]; exact h.queued, fun j p hp ↦ ?_, fun j ↦ ?_,
    fun p hp ↦ ?_, ?_, fun p hp j q hq ↦ ?_⟩
  · rw [hnext]
    rw [hsends.held] at hp
    split at hp
    · cases hp
    · exact h.held_lt j p hp
  · rw [hsends.held]
    split
    · exact List.Pairwise.nil
    · exact h.held_sorted j
  · rw [hnext]
    rw [hreceived] at hp
    rcases List.mem_append.1 hp with hp | hp
    · exact h.received_lt p hp
    · exact h.held_lt i p hp
  · rw [hreceived]
    exact List.pairwise_append.2 ⟨h.received_sorted, h.held_sorted i,
      fun p hp q hq ↦ h.received_held p hp i q hq⟩
  · rw [hreceived] at hp
    rw [hsends.held] at hq
    split at hq
    · cases hq
    · rename_i hj
      rcases List.mem_append.1 hp with hp | hp
      · exact h.received_held p hp j q hq
      · refine hturn j (r.lt_of_flusher_ne fun hidle ↦ ?_) hj p (hsends.sending ▸ hp) q hq
        rw [hidle] at hq
        cases hq

/-- Every step keeps the order, if a batch is sent in its turn. -/
theorem InOrder.step {r : FlushRace K V} (h : r.InOrder) {s : FlushStep K V} (hturn : r.InTurn s) :
    (r.step s).InOrder := by
  cases s with
  | enqueue entry =>
    rw [FlushRace.step, enqueue]
    split <;> rename_i heq
    · split at heq <;> cases heq
      have hlen := h.queued
      refine h.frame ?_ (Nat.le_of_eq ?_) (fun _ ↦ List.Sublist.refl _) rfl
      · simp only [List.length_append]
        omega
      · simp only [next, List.length_append]
        omega
    · exact h
  | popEntry =>
    rw [FlushRace.step, popEntry]
    split <;> rename_i heq
    · split at heq <;> cases heq
      rename_i hqueue
      have hlen := h.queued
      rw [hqueue, List.length_cons] at hlen
      refine h.frame (Nat.le_of_succ_le hlen) ?_ (fun _ ↦ List.Sublist.refl _) rfl
      rw [next, next, hqueue, List.length_cons]
      exact Nat.sub_le_sub_left (Nat.le_succ _) _
    · exact h
  | setBatchLimit limit => exact h.frame h.queued (Nat.le_refl _) (fun _ ↦ List.Sublist.refl _) rfl
  | writeBatch =>
    have hwal : r.wal.writeBatch.queue = r.wal.queue ∧ r.wal.writeBatch.enqueued = r.wal.enqueued := by
      rw [writeBatch]
      split <;> exact ⟨rfl, rfl⟩
    refine h.frame ?_ (Nat.le_of_eq ?_) (fun _ ↦ List.Sublist.refl _) rfl
    · rw [FlushRace.step, hwal.1, hwal.2]
      exact h.queued
    · rw [next, next, FlushRace.step, hwal.1, hwal.2]
  | flush i =>
    rcases r.advance_cases i with hquiet | ⟨entry, hpops⟩ | hsends
    · refine h.frame ?_ (Nat.le_of_eq ?_) hquiet.held hquiet.received
      · rw [FlushRace.step, hquiet.queue, hquiet.enqueued]
        exact h.queued
      · rw [next, next, FlushRace.step, hquiet.queue, hquiet.enqueued]
    · exact h.pops hpops
    · exact h.sends hsends hturn

/-- Every run keeps the order, if every batch is sent in its turn. -/
theorem InOrder.run : ∀ {steps : List (FlushStep K V)} {r : FlushRace K V}, r.InOrder →
    r.AllInTurn steps → (r.run steps).InOrder
  | [], _, h, _ => h
  | _ :: _, r, h, hturn =>
    have hrun : ((r.step _).run _).InOrder := InOrder.run (h.step hturn.1) hturn.2
    hrun

/-! ### The places of the entries -/

/-- The queue holds the last entries enqueued, and every entry that is held or was received is at its
place in the order in which entries were enqueued. -/
structure Numbered (r : FlushRace K V) : Prop where
  queue : r.wal.queue <:+ r.wal.enqueued
  held : ∀ i, ∀ p ∈ (r.flusher i).held, r.wal.enqueued[p.1]? = some p.2
  received : ∀ p ∈ r.received.flatten, r.wal.enqueued[p.1]? = some p.2

omit [Bincode (WalEntry K V)] in
/-- What is held or received afterwards was held or received before, or is at its place. -/
theorem Numbered.frame {r r' : FlushRace K V} (h : r.Numbered)
    (hqueue : r'.wal.queue <:+ r'.wal.enqueued) (henqueued : r.wal.enqueued <+: r'.wal.enqueued)
    (hheld : ∀ i, ∀ p ∈ (r'.flusher i).held,
      p ∈ (r.flusher i).held ∨ r.wal.enqueued[p.1]? = some p.2)
    (hreceived : ∀ p ∈ r'.received.flatten,
      p ∈ r.received.flatten ∨ r.wal.enqueued[p.1]? = some p.2) : r'.Numbered := by
  have hkept : ∀ p : Nat × WalEntry K V, r.wal.enqueued[p.1]? = some p.2 →
      r'.wal.enqueued[p.1]? = some p.2 := by
    intro p hp
    obtain ⟨more, hmore⟩ := henqueued
    rw [← hmore, List.getElem?_append_left (List.getElem?_eq_some_iff.1 hp).1, hp]
  refine ⟨hqueue, fun i p hp ↦ hkept p ?_, fun p hp ↦ hkept p ?_⟩
  · exact (hheld i p hp).elim (h.held i p) id
  · exact (hreceived p hp).elim (h.received p) id

/-- Every step keeps the places. -/
theorem Numbered.step {r : FlushRace K V} (h : r.Numbered) (s : FlushStep K V) :
    (r.step s).Numbered := by
  -- the other operations leave the calls alone
  have hother : ∀ w : Wal K V, w.queue <:+ w.enqueued → r.wal.enqueued <+: w.enqueued →
      ({ r with wal := w } : FlushRace K V).Numbered := fun w hqueue henqueued ↦
    h.frame hqueue henqueued (fun _ _ hp ↦ Or.inl hp) (fun _ hp ↦ Or.inl hp)
  cases s with
  | enqueue entry =>
    rw [FlushRace.step, enqueue]
    split <;> rename_i heq
    · split at heq <;> cases heq
      obtain ⟨before, hbefore⟩ := h.queue
      refine hother _ ⟨before, ?_⟩ (List.prefix_append _ _)
      rw [← List.append_assoc, hbefore]
    · exact h
  | popEntry =>
    rw [FlushRace.step, popEntry]
    split <;> rename_i heq
    · split at heq <;> cases heq
      rename_i hqueue
      refine hother _ ?_ (List.prefix_refl _)
      exact (List.suffix_cons _ _).trans (hqueue ▸ h.queue)
    · exact h
  | setBatchLimit limit => exact hother _ h.queue (List.prefix_refl _)
  | writeBatch =>
    have hwal : r.wal.writeBatch.queue = r.wal.queue ∧ r.wal.writeBatch.enqueued = r.wal.enqueued := by
      rw [writeBatch]
      split <;> exact ⟨rfl, rfl⟩
    exact hother _ (by rw [hwal.1, hwal.2]; exact h.queue) (by rw [hwal.2])
  | flush i =>
    rw [FlushRace.step]
    rcases r.advance_cases i with hquiet | ⟨entry, hpops⟩ | hsends
    · refine h.frame (by rw [hquiet.queue, hquiet.enqueued]; exact h.queue)
        (by rw [hquiet.enqueued]) (fun j p hp ↦ Or.inl ((hquiet.held j).subset hp)) fun p hp ↦ Or.inl ?_
      exact hquiet.received ▸ hp
    · have hqueue := h.queue
      rw [hpops.queue] at hqueue
      refine h.frame (by rw [hpops.enqueued]; exact (List.suffix_cons _ _).trans hqueue)
        (by rw [hpops.enqueued]) (fun j p hp ↦ ?_) fun p hp ↦ Or.inl (hpops.received ▸ hp)
      rw [hpops.held] at hp
      split at hp
      · rename_i hj
        rcases List.mem_append.1 hp with hp | hp
        · exact Or.inl (hj ▸ hp)
        · -- the entry popped is the oldest one in the queue
          refine Or.inr ?_
          rw [List.mem_singleton.1 hp]
          obtain ⟨before, hbefore⟩ := hqueue
          have hplace : r.next = before.length := by
            rw [next, ← hbefore, hpops.queue, List.length_append]
            omega
          rw [← hbefore, hplace, List.getElem?_append_right (Nat.le_refl _), Nat.sub_self]
          rfl
      · exact Or.inl hp
    · refine h.frame (by rw [hsends.queue, hsends.enqueued]; exact h.queue)
        (by rw [hsends.enqueued]) (fun j p hp ↦ ?_) fun p hp ↦ ?_
      · rw [hsends.held] at hp
        split at hp
        · cases hp
        · exact Or.inl hp
      · rw [hsends.received, List.flatten_append, List.flatten_cons, List.flatten_nil,
          List.append_nil] at hp
        exact (List.mem_append.1 hp).imp id (h.held i p)

/-! ### What the batches contain -/

omit [Bincode (WalEntry K V)] in
theorem buffer_setBuffer_of_ne (w : Wal K V) {isA b : Bool} (h : isA ≠ b) (batch : Bytes) :
    (w.setBuffer isA batch).buffer b = w.buffer b := by
  cases isA <;> cases b <;> first | exact absurd rfl h | rfl

omit [Bincode (WalEntry K V)] in
theorem written_setBuffer (w : Wal K V) (isA : Bool) (batch : Bytes) :
    (w.setBuffer isA batch).written = w.written := by
  cases isA <;> rfl

/-- The batch that a call has taken out of its buffer consists of the entries it popped. -/
def Batched : Flusher K V → Prop
  | .taken _ batch popped | .toggled _ batch popped => batch = batchOf (popped.map Prod.snd)
  | _ => True

/-- A buffer holds the frames that the holder of its lock has put there, and nothing if there is none;
what is written and what is on its way to the file are the batches received. -/
structure Buffered (file : Bytes) (r : FlushRace K V) : Prop where
  holder_iff : ∀ b i, r.holder b = some i ↔ (r.flusher i).locked = some b
  free : ∀ b, r.holder b = none → r.wal.buffer b = []
  buffer : ∀ b i, r.holder b = some i →
    r.wal.buffer b = batchOf ((r.flusher i).buffered.map Prod.snd)
  batched : ∀ i, Batched (r.flusher i)
  written : r.wal.written =
    file ++ r.received.flatMap fun popped ↦ padded (batchOf (popped.map Prod.snd))

/-- A step of one call keeps what the buffers hold: it leaves alone the buffers of the others, keeps
a lock or takes a free one, and gives back a lock with the buffer empty. -/
theorem Buffered.update {file : Bytes} {r r' : FlushRace K V} (h : Buffered file r) {i : Nat}
    {fl : Flusher K V} (hflusher : ∀ j, r'.flusher j = if j = i then fl else r.flusher j)
    (hown : ∀ b, fl.locked = some b → ((r.flusher i).locked = some b ∨ r.holder b = none) ∧
      r'.holder b = some i ∧ r'.wal.buffer b = batchOf (fl.buffered.map Prod.snd))
    (hleft : ∀ b, (r.flusher i).locked = some b → fl.locked ≠ some b →
      r'.holder b = none ∧ r'.wal.buffer b = [])
    (hother : ∀ b, (r.flusher i).locked ≠ some b → fl.locked ≠ some b →
      r'.holder b = r.holder b ∧ r'.wal.buffer b = r.wal.buffer b)
    (hbatched : Batched fl)
    (hwritten : r'.wal.written =
      file ++ r'.received.flatMap fun popped ↦ padded (batchOf (popped.map Prod.snd))) :
    Buffered file r' := by
  have hcall : ∀ b, r.holder b = some i ↔ (r.flusher i).locked = some b := fun b ↦ h.holder_iff b i
  refine ⟨fun b j ↦ ?_, fun b hb ↦ ?_, fun b j hb ↦ ?_, fun j ↦ ?_, hwritten⟩
  · rw [hflusher]
    by_cases hfl : fl.locked = some b
    · obtain ⟨hbefore, hholder, -⟩ := hown b hfl
      rw [hholder]
      split
      · rename_i hj
        exact ⟨fun _ ↦ hfl, fun _ ↦ by rw [hj]⟩
      · rename_i hj
        refine ⟨fun hi ↦ absurd (Option.some.inj hi).symm hj, fun hlocked ↦ ?_⟩
        have hholds := (h.holder_iff b j).2 hlocked
        rcases hbefore with hbefore | hbefore
        · rw [(hcall b).2 hbefore] at hholds
          exact hholds
        · rw [hbefore] at hholds
          cases hholds
    · by_cases hi : (r.flusher i).locked = some b
      · rw [(hleft b hi hfl).1]
        refine ⟨nofun, fun hlocked ↦ ?_⟩
        split at hlocked
        · exact absurd hlocked hfl
        · rename_i hj
          have hholds := (h.holder_iff b j).2 hlocked
          rw [(hcall b).2 hi] at hholds
          exact absurd (Option.some.inj hholds).symm hj
      · rw [(hother b hi hfl).1]
        split
        · rename_i hj
          rw [hj]
          exact ⟨fun hholds ↦ absurd ((hcall b).1 hholds) hi, fun hlocked ↦ absurd hlocked hfl⟩
        · exact h.holder_iff b j
  · by_cases hfl : fl.locked = some b
    · rw [(hown b hfl).2.1] at hb
      cases hb
    · by_cases hi : (r.flusher i).locked = some b
      · exact (hleft b hi hfl).2
      · obtain ⟨hholder, hbuffer⟩ := hother b hi hfl
        rw [hbuffer]
        exact h.free b (hholder ▸ hb)
  · rw [hflusher]
    by_cases hfl : fl.locked = some b
    · obtain ⟨-, hholder, hbuffer⟩ := hown b hfl
      rw [hholder] at hb
      rw [if_pos (Option.some.inj hb).symm, hbuffer]
    · by_cases hi : (r.flusher i).locked = some b
      · rw [(hleft b hi hfl).1] at hb
        cases hb
      · obtain ⟨hholder, hbuffer⟩ := hother b hi hfl
        rw [hholder] at hb
        split
        · rename_i hj
          rw [hj] at hb
          exact absurd ((hcall b).1 hb) hi
        · rw [hbuffer]
          exact h.buffer b j hb
  · rw [hflusher]
    split
    · exact hbatched
    · exact h.batched j

/-- A step of a call keeps what the buffers hold. -/
theorem Buffered.advance {file : Bytes} {r : FlushRace K V} (h : Buffered file r) (i : Nat) :
    Buffered file (r.advance i) := by
  by_cases hlt : i < r.flushers.length
  case neg =>
    -- there is no such call
    have hidle : r.flusher i = .idle := by
      by_contra hne
      exact hlt (r.lt_of_flusher_ne hne)
    have hset : ∀ fl, r.set i fl = r := fun fl ↦ by
      rw [FlushRace.set, List.set_eq_of_length_le (Nat.le_of_not_lt hlt)]
    rw [FlushRace.advance, hidle]
    dsimp only
    rw [hset, ite_self]
    exact h
  have hset : ∀ (r' : FlushRace K V) (fl : Flusher K V), r'.flushers = r.flushers →
      ∀ j, (r'.set i fl).flusher j = if j = i then fl else r.flusher j :=
    fun r' fl hr' j ↦ flusher_set_of_lt hlt hr' fl j
  -- the call's own buffer is not another one
  have hne : ∀ {a b : Bool}, (r.flusher i).locked = some a → (r.flusher i).locked ≠ some b → a ≠ b :=
    fun ha hb hab ↦ hb (hab ▸ ha)
  cases hi : r.flusher i with
  | idle =>
    rw [FlushRace.advance, hi]
    dsimp only
    split
    · exact h
    · exact h.update (hset r _ rfl) (by rintro - ⟨⟩) (by rw [hi]; rintro - ⟨⟩)
        (fun _ _ _ ↦ ⟨rfl, rfl⟩) trivial h.written
  | counted queued =>
    rw [FlushRace.advance, hi]
    exact h.update (hset r _ rfl) (by rintro - ⟨⟩) (by rw [hi]; rintro - ⟨⟩)
      (fun _ _ _ ↦ ⟨rfl, rfl⟩) trivial h.written
  | chose queued isA =>
    rw [FlushRace.advance, hi]
    dsimp only
    split
    · exact h
    · rename_i hnone
      refine h.update (hset (r.setHolder isA (some i)) _ rfl) (fun b hb ↦ ?_)
        (by rw [hi]; rintro - ⟨⟩)
        (fun b _ hb ↦ ⟨Function.update_of_ne (fun h ↦ hb (congrArg some h.symm)) _ _, rfl⟩) trivial
        h.written
      obtain rfl : isA = b := Option.some.inj hb
      exact ⟨Or.inr hnone, Function.update_self _ _ _, h.free isA hnone⟩
  | filling f popped =>
    have hholder : r.holder f.isA = some i := (h.holder_iff _ _).2 (by rw [hi]; rfl)
    have hbuffer : r.wal.buffer f.isA = batchOf (popped.map Prod.snd) := by
      rw [h.buffer _ _ hholder, hi]
      rfl
    have hlocked : (r.flusher i).locked = some f.isA := by rw [hi]; rfl
    rw [FlushRace.advance, hi]
    rcases hqueue : r.wal.queue with - | ⟨entry, rest⟩
    · dsimp only
      refine h.update (hset r _ rfl) (fun b hb ↦ ?_) (fun b hb hfl ↦ absurd (hlocked.symm.trans hb) hfl)
        (fun _ _ _ ↦ ⟨rfl, rfl⟩) trivial h.written
      obtain rfl : f.isA = b := Option.some.inj hb
      exact ⟨Or.inl hlocked, hholder, hbuffer⟩
    · dsimp only
      generalize hfl : (if (r.wal.buffer f.isA ++ frame entry).length ≥ f.limit then
        Flusher.filled f (popped ++ [(r.next, entry)]) else
        Flusher.filling f (popped ++ [(r.next, entry)])) = fl
      have hfl : fl.locked = some f.isA ∧ fl.buffered = popped ++ [(r.next, entry)] ∧ Batched fl := by
        rw [← hfl]
        split <;> exact ⟨rfl, rfl, trivial⟩
      refine h.update (hset _ fl rfl) (fun b hb ↦ ?_) (fun b hb hleft ↦ ?_) (fun b hb _ ↦ ⟨rfl, ?_⟩)
        hfl.2.2 ((written_setBuffer _ _ _).trans h.written)
      · obtain rfl : f.isA = b := Option.some.inj (hfl.1.symm.trans hb)
        refine ⟨Or.inl hlocked, hholder, ?_⟩
        rw [hfl.2.1, List.map_append, batchOf, List.flatMap_append, ← batchOf, ← hbuffer]
        refine (buffer_setBuffer r.wal f.isA _).trans ?_
        rw [List.map_singleton, List.flatMap_singleton]
      · exact absurd (hfl.1.trans (hlocked.symm.trans hb)) hleft
      · exact buffer_setBuffer_of_ne r.wal (hne hlocked hb) _
  | filled f popped =>
    have hholder : r.holder f.isA = some i := (h.holder_iff _ _).2 (by rw [hi]; rfl)
    have hbuffer : r.wal.buffer f.isA = batchOf (popped.map Prod.snd) := by
      rw [h.buffer _ _ hholder, hi]
      rfl
    have hlocked : (r.flusher i).locked = some f.isA := by rw [hi]; rfl
    rw [FlushRace.advance, hi]
    dsimp only
    split
    · rename_i hempty
      refine h.update (hset (r.setHolder f.isA none) _ rfl) (by rintro - ⟨⟩) (fun b hb _ ↦ ?_)
        (fun b hb _ ↦ ⟨Function.update_of_ne (hne hlocked hb).symm _ _, rfl⟩) trivial h.written
      obtain rfl : f.isA = b := Option.some.inj (hlocked.symm.trans hb)
      exact ⟨Function.update_self _ _ _, List.length_eq_zero_iff.1 hempty⟩
    · refine h.update (hset _ (.taken f (r.wal.buffer f.isA) popped) rfl) (fun b hb ↦ ?_)
        (fun b hb hleft ↦ absurd (hlocked.symm.trans hb) hleft)
        (fun b hb _ ↦ ⟨rfl, buffer_setBuffer_of_ne r.wal (hne hlocked hb) _⟩) hbuffer
        ((written_setBuffer _ _ _).trans h.written)
      obtain rfl : f.isA = b := Option.some.inj hb
      exact ⟨Or.inl hlocked, hholder, buffer_setBuffer r.wal f.isA []⟩
  | taken f batch popped =>
    have hholder : r.holder f.isA = some i := (h.holder_iff _ _).2 (by rw [hi]; rfl)
    have hlocked : (r.flusher i).locked = some f.isA := by rw [hi]; rfl
    have hbatched := h.batched i
    rw [hi] at hbatched
    rw [FlushRace.advance, hi]
    refine h.update (hset _ (.toggled f batch popped) rfl) (fun b hb ↦ ?_)
      (fun b hb hleft ↦ absurd (hlocked.symm.trans hb) hleft) (fun _ _ _ ↦ ⟨rfl, rfl⟩) hbatched h.written
    obtain rfl : f.isA = b := Option.some.inj hb
    refine ⟨Or.inl hlocked, hholder, ?_⟩
    have hempty := h.buffer _ _ hholder
    rw [hi] at hempty
    exact hempty
  | toggled f batch popped =>
    have hholder : r.holder f.isA = some i := (h.holder_iff _ _).2 (by rw [hi]; rfl)
    have hlocked : (r.flusher i).locked = some f.isA := by rw [hi]; rfl
    have hbatched : batch = batchOf (popped.map Prod.snd) := by
      have hbatched := h.batched i
      rwa [hi] at hbatched
    rw [FlushRace.advance, hi]
    refine h.update (hset _ .idle rfl) (by rintro - ⟨⟩) (fun b hb _ ↦ ?_)
      (fun b hb _ ↦ ⟨Function.update_of_ne (hne hlocked hb).symm _ _, rfl⟩) trivial ?_
    · obtain rfl : f.isA = b := Option.some.inj (hlocked.symm.trans hb)
      refine ⟨Function.update_self _ _ _, ?_⟩
      have hempty := h.buffer _ _ hholder
      rw [hi] at hempty
      exact hempty
    · have hwritten := h.written
      rw [Wal.written] at hwritten
      simp only [Wal.written, FlushRace.set, setHolder, List.flatMap_append, List.flatMap_cons,
        List.flatMap_nil, List.append_nil, hbatched]
      rw [← List.append_assoc, hwritten, List.append_assoc]

/-- Every step keeps what the buffers hold. -/
theorem Buffered.step {file : Bytes} {r : FlushRace K V} (h : Buffered file r) (s : FlushStep K V) :
    Buffered file (r.step s) := by
  -- the other operations leave the buffers alone
  have hother : ∀ w : Wal K V, w.buffer = r.wal.buffer → w.written = r.wal.written →
      Buffered file { r with wal := w } := by
    intro w hbuffer hwritten
    refine ⟨h.holder_iff, fun b hb ↦ ?_, fun b i hb ↦ ?_, h.batched, hwritten.trans h.written⟩
    · rw [hbuffer]
      exact h.free b hb
    · rw [hbuffer]
      exact h.buffer b i hb
  cases s with
  | enqueue entry =>
    rw [FlushRace.step, enqueue]
    split <;> rename_i heq
    · split at heq <;> cases heq
      exact hother _ rfl rfl
    · exact h
  | popEntry =>
    rw [FlushRace.step, popEntry]
    split <;> rename_i heq
    · split at heq <;> cases heq
      exact hother _ rfl rfl
    · exact h
  | setBatchLimit limit => exact hother _ rfl rfl
  | writeBatch =>
    refine hother _ ?_ ?_ <;> rw [writeBatch] <;> split
    · rfl
    · rfl
    · rfl
    · rename_i hsent
      rw [Wal.written, Wal.written, hsent, List.flatMap_cons, List.append_assoc]
  | flush i => exact h.advance i

/-! ### The order of the log -/

theorem inOrder_start (n limit : Nat) (file : Bytes) :
    (start n limit file : FlushRace K V).InOrder ∧ (start n limit file : FlushRace K V).Numbered ∧
      Buffered file (start n limit file : FlushRace K V) := by
  have hidle : ∀ i, (start n limit file : FlushRace K V).flusher i = .idle := by
    intro i
    rw [flusher, start, List.getD_eq_getElem?_getD, List.getElem?_replicate]
    split <;> rfl
  refine ⟨⟨Nat.le_refl _, ?_, ?_, nofun, List.Pairwise.nil, nofun⟩, ⟨List.suffix_refl _, ?_, nofun⟩,
    ⟨fun b i ↦ ?_, fun b _ ↦ ?_, nofun, ?_, ?_⟩⟩
  · intro i
    rw [hidle]
    nofun
  · intro i
    rw [hidle]
    exact List.Pairwise.nil
  · intro i
    rw [hidle]
    nofun
  · rw [hidle]
    exact ⟨nofun, nofun⟩
  · cases b <;> rfl
  · intro i
    rw [hidle]
    trivial
  · rfl

/-- What each step keeps, every run keeps. -/
theorem run_induction {P : FlushRace K V → Prop} (hstep : ∀ r s, P r → P (r.step s)) :
    ∀ (steps : List (FlushStep K V)) (r : FlushRace K V), P r → P (r.run steps)
  | [], _, h => h
  | s :: steps, r, h => run_induction hstep steps (r.step s) (hstep r s h)

/-- **The log keeps the order in which entries were enqueued**, where every batch is sent in its turn.
In every race of any number of calls, the batches written and those on their way to the writer thread
consist of entries that were enqueued, each at a later place than the one before it. -/
theorem received_in_order (n limit : Nat) (file : Bytes) (steps : List (FlushStep K V))
    (hturn : (start n limit file).AllInTurn steps) :
    let r := (start n limit file).run steps
    r.wal.written = file ++ r.received.flatMap (fun popped ↦ padded (batchOf (popped.map Prod.snd))) ∧
      (∀ p ∈ r.received.flatten, r.wal.enqueued[p.1]? = some p.2) ∧
      r.received.flatten.Pairwise fun p q ↦ p.1 < q.1 := by
  obtain ⟨horder, hnumbered, hbuffered⟩ := inOrder_start (K := K) (V := V) n limit file
  have hbuffered := run_induction (P := Buffered file) (fun _ s h ↦ h.step s) steps _ hbuffered
  have hnumbered := run_induction (P := Numbered) (fun _ s h ↦ h.step s) steps _ hnumbered
  exact ⟨hbuffered.written, hnumbered.received, (horder.run hturn).received_sorted⟩

/-! ### Two calls -/

/-- A call goes on until its batch is ready to be sent: it counts the queue, chooses a buffer, takes
the lock, pops one entry, which fills the batch, takes it out, and flips `active_is_a`. -/
def untilSend (i : Nat) : List (FlushStep Bytes Bytes) := List.replicate 6 (.flush i)

/-- The first call is about to send its batch when the second one starts, and waits until the second
one has sent its own. -/
def overtaking : List (FlushStep Bytes Bytes) :=
  [.enqueue (.recordUpdate [1] [5])] ++ untilSend 0 ++ [.enqueue (.recordUpdate [1] [7])] ++
    untilSend 1 ++ [.flush 1, .flush 0]

/-- Two calls that overlap and send in the order in which they popped. -/
def overlapping : List (FlushStep Bytes Bytes) :=
  [.enqueue (.recordUpdate [1] [5])] ++ untilSend 0 ++ [.enqueue (.recordUpdate [1] [7])] ++
    untilSend 1 ++ [.flush 0, .flush 1]

/-- Two overlapping calls whose batches are sent in their turn. -/
theorem received_in_order_overlapping :
    let _ := knownEncoding []
    ∃ r, (start 2 10 []).run overlapping = r ∧
      r.received.flatten.map Prod.fst = [0, 1] ∧
      r.wal.written = [] ++ r.received.flatMap (fun popped ↦ padded (batchOf (popped.map Prod.snd))) ∧
      (∀ p ∈ r.received.flatten, r.wal.enqueued[p.1]? = some p.2) ∧
      r.received.flatten.Pairwise fun p q ↦ p.1 < q.1 := by
  intro encoding
  exact ⟨_, rfl, by decide +kernel, received_in_order 2 10 [] overlapping (by decide +kernel)⟩

/-- **An overtaken batch.** The call that popped the older value of a key sends it last, as the other
call uses the other buffer: in the log the older value is behind the newer one. -/
theorem not_received_in_order : ¬ ∀ (_ : Bincode (WalEntry Bytes Bytes)) (n limit : Nat) (file : Bytes)
    (steps : List (FlushStep Bytes Bytes)),
    ((start n limit file).run steps).received.flatten.Pairwise fun p q ↦ p.1 < q.1 := by
  intro h
  let encoding := knownEncoding []
  have hswapped : ((start 2 10 []).run overtaking).received.flatten.map Prod.fst = [1, 0] := by
    decide +kernel
  have hsorted := List.pairwise_map.2 (h encoding 2 10 [] overtaking)
  rw [hswapped] at hsorted
  exact absurd hsorted (by decide)

end FlushRace

end Wal

end KsSql
