import KsSql.Storage.Node
import KsSql.Util.LittleEndian

/-!
# The write-ahead log

`Wal` of `storage/wal.rs`: the bounded queue, the two batch buffers, the flush requests on their way
to the writer thread, and the bytes of the log file.

An entry enters through `enqueue` and leaves through one of two consumers. `pop_entry` hands it to
the background drain; `flush_pipeline` encodes it into a batch, which it sends to the writer thread,
which appends it to the file, padded with zeroes to a whole number of blocks. The two can run at the
same time, so `flush_pipeline` is given round by round (`flushRound`) as well as running alone.
`recover` is the loop with which `Wal::open` reads the file back.

The encoding of an entry is `bincode`'s, outside this repository, and enters as the class `Bincode`.

`enqueued` and `logged` record the history: every entry the queue ever accepted, and every entry
`flush_pipeline` ever took, oldest first. No operation reads them.
-/

namespace KsSql

/-- A type with an encoding and a decoder, as `bincode::serialize` and `bincode::deserialize` give
to every type that derives the `serde` traits. -/
class Bincode (α : Type) where
  /-- `bincode::serialize` -/
  serialize : α → Bytes
  /-- `bincode::deserialize` -/
  deserialize : Bytes → Option α

/-- `WalEntry` -/
inductive WalEntry (K V : Type)
  | pageUpdate (pageId : Nat) (data : Node K V)
  | recordUpdate (key : K) (data : V)
  | transactionStart (txId : Nat)
  | transactionCommit (txId version : Nat) (timestamp : Int)
  | transactionRollback (txId : Nat)
  deriving DecidableEq

/-- The capacity of the queue. -/
def queueCapacity : Nat := 1000000

/-- The size of a block of the log file. -/
def blockSize : Nat := 4096

/-- `Wal` -/
structure Wal (K V : Type) where
  /-- The queue, oldest entry first. -/
  queue : List (WalEntry K V) := []
  /-- The batch under construction while `activeIsA` holds. -/
  bufferA : Bytes := []
  /-- The batch under construction while `activeIsA` does not hold. -/
  bufferB : Bytes := []
  /-- Which of the two buffers is filled next. -/
  activeIsA : Bool := true
  /-- The size at which a batch is closed. -/
  batchLimit : Nat := 32 * 1024 * 1024
  /-- The batches sent to the writer thread and not yet written, oldest first. -/
  sent : List Bytes := []
  /-- The contents of the log file. -/
  file : Bytes := []
  /-- History: every entry the queue accepted. -/
  enqueued : List (WalEntry K V) := []
  /-- History: every entry that `flush_pipeline` took. -/
  logged : List (WalEntry K V) := []

namespace Wal

variable {K V : Type}

/-- `Wal::enqueue`. The retries wait for a consumer; an entry that finds the queue full throughout
is refused. -/
def enqueue (w : Wal K V) (entry : WalEntry K V) : Except StorageError (Wal K V) :=
  if w.queue.length < queueCapacity then
    .ok { w with queue := w.queue ++ [entry], enqueued := w.enqueued ++ [entry] }
  else .error .walSaturated

/-- `Wal::pop_entry` -/
def popEntry (w : Wal K V) : Option (WalEntry K V × Wal K V) :=
  match w.queue with
  | [] => none
  | entry :: rest => some (entry, { w with queue := rest })

/-- A call of `flush_pipeline` in progress: the buffer it fills and the size at which it stops. -/
structure Flush where
  /-- Whether it fills the first buffer. -/
  isA : Bool
  /-- The size at which the batch is closed. -/
  limit : Nat
  deriving DecidableEq

/-- The start of `flush_pipeline`. With nothing in the queue there is nothing to do. -/
def startFlush (w : Wal K V) : Option Flush :=
  if w.queue.length = 0 then none
  else
    some { isA := w.activeIsA
           limit := if w.queue.length > 1000000 then w.batchLimit * 4 else w.batchLimit }

/-- The contents of one of the two buffers. -/
def buffer (w : Wal K V) (isA : Bool) : Bytes := if isA then w.bufferA else w.bufferB

/-- Replace the contents of one of the two buffers. -/
def setBuffer (w : Wal K V) (isA : Bool) (batch : Bytes) : Wal K V :=
  if isA then { w with bufferA := batch } else { w with bufferB := batch }

/-- The end of `flush_pipeline`: a batch with something in it is sent, and the other buffer is
filled next. -/
def closeBatch (w : Wal K V) (f : Flush) : Wal K V :=
  let batch := w.buffer f.isA
  if batch.length = 0 then w
  else { w.setBuffer f.isA [] with activeIsA := !f.isA, sent := w.sent ++ [batch] }

section Encoding

variable [Bincode (WalEntry K V)]

/-- An entry in a batch: its encoded length, then its encoding. -/
def frame (entry : WalEntry K V) : Bytes :=
  let encoded := Bincode.serialize entry
  u32le encoded.length ++ encoded

/-- One round of the pop loop of `flush_pipeline`, and whether it was the last one: append the frame
of the oldest entry to the buffer, and stop once the buffer has reached the limit or the queue is
empty. -/
def flushRound (w : Wal K V) (f : Flush) : Wal K V × Bool :=
  match w.queue with
  | [] => (w.closeBatch f, true)
  | entry :: rest =>
    let active := w.buffer f.isA ++ frame entry
    let w := { w.setBuffer f.isA active with queue := rest, logged := w.logged ++ [entry] }
    if active.length ≥ f.limit then (w.closeBatch f, true) else (w, false)

/-- The pop loop of `flush_pipeline`, running alone. -/
def flushRounds (f : Flush) : Nat → Wal K V → Wal K V
  | 0, w => w
  | n + 1, w =>
    match w.flushRound f with
    | (w, true) => w
    | (w, false) => flushRounds f n w

/-- `Wal::flush_pipeline`, running alone. The loop takes one entry in each round but the last. -/
def flushPipeline (w : Wal K V) : Wal K V :=
  match w.startFlush with
  | none => w
  | some f => flushRounds f (w.queue.length + 1) w

/-- What the writer thread appends for a batch: the batch, zero-padded to whole blocks. -/
def padded (batch : Bytes) : Bytes :=
  let paddedSize := (batch.length + (blockSize - 1)) / blockSize * blockSize
  batch ++ List.replicate (paddedSize - batch.length) 0

/-- The writer thread receives and appends one batch. -/
def writeBatch (w : Wal K V) : Wal K V :=
  match w.sent with
  | [] => w
  | batch :: rest => { w with sent := rest, file := w.file ++ padded batch }

/-- The recovery loop of `Wal::open` over the file's bytes. Every step moves the cursor forward, so
the length of the buffer bounds the number of steps. -/
def recoverLoop (buffer : Bytes) : Nat → Nat → List (WalEntry K V)
  | 0, _ => []
  | fuel + 1, cursor =>
    if cursor + 4 ≤ buffer.length then
      let len := ofLe ((buffer.drop cursor).take 4)
      if len = 0 then recoverLoop buffer fuel ((cursor / 4096 + 1) * 4096)
      else
        let cursor := cursor + 4
        if cursor + len ≤ buffer.length then
          match Bincode.deserialize ((buffer.drop cursor).take len) with
          | some entry => entry :: recoverLoop buffer fuel (cursor + len)
          | none => recoverLoop buffer fuel (cursor + len)
        else []
    else []

/-- The entries `Wal::open` recovers from the file. -/
def recover (buffer : Bytes) : List (WalEntry K V) := recoverLoop buffer (buffer.length + 1) 0

end Encoding

end Wal

end KsSql
