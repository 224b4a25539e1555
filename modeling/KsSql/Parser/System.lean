import KsSql.Parser.Engine

/-!
# The running system

The engine with the threads that run beside its statements, as a state and a step function. A client's
request is executed up to its final `flush_pipeline` in one step, as no other statement runs
meanwhile. The pop loop of `flush_pipeline` then takes one step for each round, because the
background drain pops entries from the same queue; only when it is over is the request answered and
another one accepted.

The drain thread, started by `Engine::new`, collects up to a thousand entries and then inserts the
record updates among them into the tree, ignoring errors. The writer thread of the log appends the
batches that were sent to it. Removing entries from the memory tier (the purge endpoint, and the
choice of an eviction) are steps of their own.
-/

namespace KsSql

/-- What the current request is doing. -/
inductive Phase
  /-- No request is under way. -/
  | idle
  /-- A call of `flush_pipeline`; `discard` says that it is the one of a `FLUSH`. -/
  | flushing (f : Wal.Flush) (discard : Bool)
  /-- The loop of `FLUSH` that empties the queue. -/
  | discarding
  deriving DecidableEq

/-- The state of the drain thread: the entries collected, and whether it is inserting them. -/
structure Drain where
  entries : List (WalEntry Bytes Data) := []
  applying : Bool := false

/-- The engine and its threads. -/
structure System where
  engine : Engine
  phase : Phase := .idle
  drain : Drain := {}

/-- The steps of the system. -/
inductive Action
  /-- A request of a connection, up to its final `flush_pipeline`. -/
  | call (conn : Nat) (command : Command)
  /-- A round of the pop loop of `flush_pipeline`. -/
  | flushRound
  /-- A round of the loop of `FLUSH` that empties the queue. -/
  | discardRound
  /-- The drain thread pops an entry. -/
  | drainPop
  /-- The drain thread has collected enough. -/
  | drainStart
  /-- The drain thread inserts an entry. -/
  | drainApply
  /-- The writer thread appends a batch to the log file. -/
  | writeBatch
  /-- Entries are removed from the memory tier. -/
  | evict (keys : List Bytes)
  /-- The memory tier is emptied. -/
  | purge

/-- The number of entries the drain thread collects at most. -/
def drainLimit : Nat := 1000

namespace System

/-- Continue with another log. -/
def withWal (s : System) (wal : Wal Bytes Data) : System :=
  { s with engine := { s.engine with btree := { s.engine.btree with wal := wal } } }

/-- Continue with another memory tier, from which entries were removed. -/
def withTier (s : System) (tier : MemoryTier Bytes Data) : System :=
  { s with engine := { s.engine with
    btree := { s.engine.btree with memoryTier := tier }
    history := { s.engine.history with evictions := s.engine.history.evictions + 1 } } }

/-- The phase after a statement's own work. -/
def phaseAfter (wal : Wal Bytes Data) (reply : Engine.Reply) : Phase :=
  if reply.flush then
    match wal.startFlush with
    | some f => .flushing f reply.discard
    | none => if reply.discard then .discarding else .idle
  else .idle

/-- Execute a request up to its final `flush_pipeline`. -/
def call (rt : Runtime) (s : System) (conn : Nat) (command : Command) : System :=
  match Engine.execute rt command conn s.engine with
  | (.ok reply, e) => { s with engine := e, phase := phaseAfter e.btree.wal reply }
  | (.error _, e) => { s with engine := e }

/-- The drain thread inserts an entry into the tree; page images and markers are passed over. -/
def applyEntry (rt : Runtime) (e : Engine) : WalEntry Bytes Data → Engine
  | .recordUpdate key data => { e with btree := (e.btree.insert rt.search key data).2 }
  | _ => e

section

variable [Bincode (WalEntry Bytes Data)]

/-- A step, if it can be taken. -/
def step (rt : Runtime) (s : System) : Action → Option System
  | .call conn command => match s.phase with
    | .idle => some (s.call rt conn command)
    | _ => none
  | .flushRound => match s.phase with
    | .flushing f discard => match s.engine.btree.wal.flushRound f with
      | (wal, false) => some (s.withWal wal)
      | (wal, true) => some { s.withWal wal with phase := if discard then .discarding else .idle }
    | _ => none
  | .discardRound => match s.phase with
    | .discarding => match s.engine.btree.wal.popEntry with
      | some (_, wal) => some (s.withWal wal)
      | none => some { s with phase := .idle }
    | _ => none
  | .drainPop =>
    if s.drain.applying = false ∧ s.drain.entries.length < drainLimit then
      match s.engine.btree.wal.popEntry with
      | some (entry, wal) =>
        some { s.withWal wal with drain := { s.drain with entries := s.drain.entries ++ [entry] } }
      | none => none
    else none
  | .drainStart =>
    if s.drain.applying = false ∧ s.drain.entries ≠ [] then
      some { s with drain := { s.drain with applying := true } }
    else none
  | .drainApply =>
    if s.drain.applying then
      match s.drain.entries with
      | [] => some { s with drain := {} }
      | entry :: rest =>
        some { s with engine := applyEntry rt s.engine entry
                      drain := { s.drain with entries := rest } }
    else none
  | .writeBatch => match s.engine.btree.wal.sent with
    | [] => none
    | _ => some (s.withWal s.engine.btree.wal.writeBatch)
  | .evict keys =>
    some (s.withTier (keys.foldl (fun tier key ↦ tier.remove key) s.engine.btree.memoryTier))
  | .purge => some (s.withTier s.engine.btree.memoryTier.clear)

/-- A run: steps one after another, each of which can be taken. -/
def run (rt : Runtime) (s : System) : List Action → Option System
  | [] => some s
  | a :: actions => (s.step rt a).bind fun s ↦ run rt s actions

/-- A run on a list and then on another. -/
theorem run_append {rt : Runtime} {s : System} (actions actions' : List Action) :
    s.run rt (actions ++ actions') = (s.run rt actions).bind fun s ↦ s.run rt actions' := by
  induction actions generalizing s with
  | nil => rfl
  | cons a actions ih =>
    rw [List.cons_append, run, run, Option.bind_assoc]
    exact Option.bind_congr fun t _ ↦ ih

/-- **Runs.** What every step keeps holds after every run. -/
theorem run_invariant {rt : Runtime} {I : System → Prop} {P : Action → Prop}
    (hstep : ∀ s a s', P a → I s → s.step rt a = some s' → I s') :
    ∀ {actions : List Action} {s s' : System}, (∀ a ∈ actions, P a) → I s →
      s.run rt actions = some s' → I s'
  | [], s, s', _, hs, hrun => Option.some.inj hrun ▸ hs
  | a :: actions, s, s', hP, hs, hrun => by
    obtain ⟨t, ht, hrun⟩ := Option.bind_eq_some_iff.1 hrun
    exact run_invariant hstep (fun b hb ↦ hP b (List.mem_cons_of_mem a hb))
      (hstep s a t (hP a List.mem_cons_self) hs ht) hrun

/-- The property holds of every step of a run, in the state before the step. -/
def Along (rt : Runtime) (P : System → Action → Prop) (s : System) : List Action → Prop
  | [] => True
  | a :: actions => P s a ∧ ∀ s' ∈ s.step rt a, Along rt P s' actions

/-- What every step keeps that the property holds of, holds after a run of such steps. -/
theorem run_along {rt : Runtime} {I : System → Prop} {P : Action → Prop}
    {Q : System → Action → Prop}
    (hstep : ∀ s a s', P a → Q s a → I s → s.step rt a = some s' → I s') :
    ∀ {actions : List Action} {s s' : System}, (∀ a ∈ actions, P a) → s.Along rt Q actions → I s →
      s.run rt actions = some s' → I s'
  | [], s, s', _, _, hs, hrun => Option.some.inj hrun ▸ hs
  | a :: actions, s, s', hP, hQ, hs, hrun => by
    obtain ⟨t, ht, hrun⟩ := Option.bind_eq_some_iff.1 hrun
    exact run_along hstep (fun b hb ↦ hP b (List.mem_cons_of_mem a hb)) (hQ.2 t ht)
      (hstep s a t (hP a List.mem_cons_self) hQ.1 hs ht) hrun

instance decidableAlong (rt : Runtime) (P : System → Action → Prop) [∀ s, DecidablePred (P s)] :
    ∀ (actions : List Action) (s : System), Decidable (s.Along rt P actions)
  | [], _ => .isTrue trivial
  | a :: actions, s =>
    have := decidableAlong rt P actions
    decidable_of_iff (P s a ∧ ∀ s' ∈ s.step rt a, Along rt P s' actions) Iff.rfl

end

/-- The system just started on empty files. -/
def start : System := { engine := Engine.empty }

end System

end KsSql
