import KsSql.Storage.BTree
import KsSql.Storage.PageFile
import KsSql.Util.Mailbox

/-!
# The pager's thread

`Pager::open` starts a thread that owns the page file, and the methods of `Pager` send it a request each
and wait for the answer. `PagerRequest` is what they send, `pagerService` what the thread does with it,
and `channelCapacity` how many requests can be under way. The length of the file is not in the thread's
keeping: the tasks load it and store it themselves, in `write_page` after the answer to the write. The
disk does not fail here, so a read has an error only where it is too short.

`Task.ofProgram` is a routine of the tree as the tasks run it: a node is written as the bytes of
`to_bytes` behind their checksum, and what is read is checked and decoded. An image for the log goes into
the queue, which the tasks share as well; the queue keeps the nodes, as in the model of the log.

The length that the tasks know never exceeds that of the file, whatever order they take their steps in
(`fileLength_le_of_runs`).
-/

namespace KsSql

/-- `PagerRequest`. A reload comes with the contents of the file it finds at its path. -/
inductive PagerRequest
  | read (pageId : Nat)
  | write (pageId : Nat) (data : Page)
  | sync
  | reload (file : Bytes)

/-- What the thread sends back. -/
@[reducible]
def PagerRequest.Answer : PagerRequest → Type
  | .read _ => Except PageError Page
  | .write _ _ => Unit
  | .sync => Unit
  | .reload _ => Unit

/-- What the tasks do without the thread. -/
inductive TaskAccess
  /-- Load `file_length`. -/
  | loadLength
  /-- Store `file_length`. -/
  | storeLength (length : Nat)
  /-- `Pager::num_pages` -/
  | numPages
  /-- Put the image of a page into the queue of the log. -/
  | log (pageId : Nat) (node : Node Bytes Bytes)

/-- What comes of it. -/
@[reducible]
def TaskAccess.Outcome : TaskAccess → Type
  | .loadLength => Nat
  | .storeLength _ => Unit
  | .numPages => Nat
  | .log _ _ => Except StorageError Unit

/-- The requests to the thread and the accesses beside it. -/
@[reducible]
def pagerInterface : Interface := ⟨PagerRequest, PagerRequest.Answer, TaskAccess, TaskAccess.Outcome⟩

/-- `mpsc::channel::<PagerRequest>(1024)` -/
def channelCapacity : Nat := 1024

/-- What the thread and the tasks work on. -/
structure Disk where
  /-- The page file, and the length that the tasks know. -/
  pageFile : PageFile
  /-- The log. -/
  wal : Wal Bytes Bytes := {}

/-- `Wal::enqueue` of the image of a page. -/
def Disk.enqueue (s : Disk) (pageId : Nat) (node : Node Bytes Bytes) :
    Except StorageError Unit × Disk :=
  match s.wal.enqueue (.pageUpdate pageId node) with
  | .ok wal => (.ok (), { s with wal := wal })
  | .error e => (.error e, s)

theorem Disk.pageFile_enqueue (s : Disk) (pageId : Nat) (node : Node Bytes Bytes) :
    (s.enqueue pageId node).2.pageFile = s.pageFile := by
  rw [enqueue]
  split <;> rfl

/-- The loop of the pager's thread, and the accesses of the tasks. -/
def pagerService : Service pagerInterface Disk where
  handle
    | .read pageId, s => (s.pageFile.readBlock pageId, s)
    | .write pageId data, s =>
      ((), { s with pageFile := { s.pageFile with
        file := PageFile.writeAt s.pageFile.file (pageId * pageSize) data.1 } })
    | .sync, s => ((), s)
    | .reload file, s => ((), { s with pageFile := .opened file })
  access
    | .loadLength, s => (s.pageFile.fileLength, s)
    | .storeLength length, s =>
      ((), { s with pageFile := { s.pageFile with fileLength := length } })
    | .numPages, s => (s.pageFile.numPages, s)
    | .log pageId node, s => s.enqueue pageId node

/-- What a task can fail with. -/
inductive TaskError
  /-- The routine's own error. -/
  | storage (e : StorageError)
  /-- An error of `read_page`. -/
  | page (e : PageError)
  /-- `Node::from_bytes` finds no node. -/
  | undecodable
  deriving DecidableEq

/-- What a task is about to do. -/
abbrev Task (α : Type) : Type := Session pagerInterface α

namespace Task

variable {α : Type}

/-- The checksum's part of `Pager::read_page`. -/
def verify (pageId : Nat) (page : Page) : Except PageError Page :=
  let storedChecksum := ofLe (page.1.take 4)
  if storedChecksum ≠ 0 ∧ crc32 (page.1.drop 4) ≠ storedChecksum then
    .error (.checksumMismatch pageId)
  else pure page

/-- `Pager::read_page` -/
def readPage (pageId : Nat) (next : Except PageError Page → Task α) : Task α :=
  .ask (.read pageId) fun (block : Except PageError Page) ↦ next (block >>= verify pageId)

/-- `Pager::write_page` -/
def writePage (pageId : Nat) (page : Page) (next : Task α) : Task α :=
  .ask (.write pageId (PageFile.sealed page)) fun _ ↦
    .access .loadLength fun (currentLen : Nat) ↦
      let offset := pageId * pageSize
      if offset ≥ currentLen then .access (.storeLength (offset + pageSize)) fun _ ↦ next else next

/-- `Pager::num_pages` -/
def numPages (next : Nat → Task α) : Task α := .access .numPages next

/-- The `?` operator. -/
def propagate {β : Type} : Except TaskError β → (β → Task (Except TaskError α)) →
    Task (Except TaskError α)
  | .error e, _ => .done (.error e)
  | .ok b, next => next b

/-- `Node::from_bytes` of what `read_page` returns. -/
def decode : Except PageError Page → Except TaskError (Node Bytes Bytes)
  | .error e => .error (.page e)
  | .ok page =>
    match NodeCodec.fromBytes page with
    | none => .error .undecodable
    | some node => .ok node

/-- A routine over pages, as a task runs it. -/
def ofProgram : PageProgram (Node Bytes Bytes) StorageError α → Task (Except TaskError α)
  | .done a => .done (.ok a)
  | .fail e => .done (.error (.storage e))
  | .read pageId next => readPage pageId fun r ↦ propagate (decode r) fun node ↦ ofProgram (next node)
  | .write pageId node next =>
    propagate ((NodeCodec.toBytes node).mapError .storage) fun page ↦
      writePage pageId page (ofProgram next)
  | .log pageId node next =>
    .access (.log pageId node) fun (r : Except StorageError Unit) ↦
      propagate (r.mapError .storage) fun _ ↦ ofProgram next
  | .numPages next => numPages fun n ↦ ofProgram (next n)

/-! ### The length that the tasks know -/

/-- Behind writes that reach up to `bound`, the task stores no length that is not reached. It reloads no
other file. -/
def StoresBelow : Nat → Task α → Prop
  | _, .done _ => True
  | bound, .ask (.read _) next => ∀ a, StoresBelow bound (next a)
  | bound, .ask (.write pageId _) next =>
    StoresBelow (max bound (pageId * pageSize + pageSize)) (next ())
  | bound, .ask .sync next => StoresBelow bound (next ())
  | _, .ask (.reload _) _ => False
  | bound, .access .loadLength next => ∀ n : Nat, StoresBelow bound (next n)
  | bound, .access (.storeLength length) next =>
    length ≤ bound ∧ StoresBelow bound (next ())
  | bound, .access .numPages next => ∀ n : Nat, StoresBelow bound (next n)
  | bound, .access (.log _ _) next => ∀ r, StoresBelow bound (next r)

theorem StoresBelow.mono {q : Task α} : ∀ {bound bound' : Nat}, bound ≤ bound' →
    q.StoresBelow bound → q.StoresBelow bound' := by
  induction q with
  | done a => exact fun _ _ ↦ trivial
  | ask r next ih =>
    intro bound bound' hle h
    cases r with
    | read pageId => exact fun a ↦ ih a hle (h a)
    | write pageId data => exact ih () (max_le_max_right _ hle) h
    | sync => exact ih () hle h
    | reload file => exact h.elim
  | access c next ih =>
    intro bound bound' hle h
    cases c with
    | loadLength => exact fun n ↦ ih n hle (h n)
    | storeLength length => exact ⟨h.1.trans hle, ih () hle h.2⟩
    | numPages => exact fun n ↦ ih n hle (h n)
    | log pageId node => exact fun r ↦ ih r hle (h r)

/-- A step of a task stores only what is reached, and the file gets no shorter. -/
theorem StoresBelow.step {q q' : Task α} {s s' : Disk}
    (h : q.StoresBelow s.pageFile.file.length)
    (hlength : s.pageFile.fileLength ≤ s.pageFile.file.length)
    (hstep : pagerService.step q s = some (q', s')) :
    q'.StoresBelow s'.pageFile.file.length ∧
      s.pageFile.file.length ≤ s'.pageFile.file.length ∧
      s'.pageFile.fileLength ≤ s'.pageFile.file.length := by
  cases q with
  | done a => cases hstep
  | ask r next =>
    cases r with
    | read pageId =>
      cases hstep
      exact ⟨h _, le_rfl, hlength⟩
    | write pageId data =>
      cases hstep
      have hwritten : (PageFile.writeAt s.pageFile.file (pageId * pageSize) data.1).length =
          max s.pageFile.file.length (pageId * pageSize + pageSize) := by
        rw [PageFile.length_writeAt, data.2]
      have hgrown : s.pageFile.file.length ≤
          (PageFile.writeAt s.pageFile.file (pageId * pageSize) data.1).length :=
        hwritten ▸ le_max_left _ _
      refine ⟨?_, hgrown, hlength.trans hgrown⟩
      show StoresBelow (PageFile.writeAt s.pageFile.file (pageId * pageSize) data.1).length _
      rw [hwritten]
      exact h
    | sync =>
      cases hstep
      exact ⟨h, le_rfl, hlength⟩
    | reload file => exact h.elim
  | access c next =>
    cases c with
    | loadLength =>
      cases hstep
      exact ⟨h _, le_rfl, hlength⟩
    | storeLength length =>
      cases hstep
      exact ⟨h.2, le_rfl, h.1⟩
    | numPages =>
      cases hstep
      exact ⟨h _, le_rfl, hlength⟩
    | log pageId node =>
      cases hstep
      show StoresBelow (s.enqueue pageId node).2.pageFile.file.length _ ∧
        _ ≤ (s.enqueue pageId node).2.pageFile.file.length ∧
          (s.enqueue pageId node).2.pageFile.fileLength ≤
            (s.enqueue pageId node).2.pageFile.file.length
      rw [s.pageFile_enqueue]
      exact ⟨h _, le_rfl, hlength⟩

theorem storesBelow_propagate {β : Type} {r : Except TaskError β}
    {next : β → Task (Except TaskError α)} {bound : Nat}
    (h : ∀ b, r = .ok b → (next b).StoresBelow bound) : (propagate r next).StoresBelow bound := by
  rcases r with e | b
  · trivial
  · exact h b rfl

/-- A routine stores the end of a page only when it has written the page. -/
theorem storesBelow_ofProgram (p : PageProgram (Node Bytes Bytes) StorageError α) :
    ∀ bound, (ofProgram p).StoresBelow bound := by
  induction p with
  | done a => exact fun _ ↦ trivial
  | fail e => exact fun _ ↦ trivial
  | read pageId next ih =>
    exact fun bound block ↦ storesBelow_propagate fun node _ ↦ ih node bound
  | write pageId node next ih =>
    intro bound
    refine storesBelow_propagate fun page _ ↦ ?_
    show ∀ n : Nat, StoresBelow (max bound (pageId * pageSize + pageSize))
      (if pageId * pageSize ≥ n then .access (.storeLength (pageId * pageSize + pageSize)) fun _ ↦
        ofProgram next else ofProgram next)
    intro n
    split
    · exact ⟨le_max_right _ _, ih _⟩
    · exact ih _
  | log pageId node next ih =>
    exact fun bound r ↦ storesBelow_propagate fun _ _ ↦ ih bound
  | numPages next ih => exact fun bound n ↦ ih n bound

end Task

variable {ι α : Type} [DecidableEq ι]

/-- In each state of a run every task stores only what is reached. -/
theorem storesBelow_of_atomic {tasks : ι → Task α} {disk : Disk} {y : (ι → Task α) × Disk}
    (htasks : ∀ i bound, (tasks i).StoresBelow bound)
    (hlength : disk.pageFile.fileLength ≤ disk.pageFile.file.length)
    (h : Relation.ReflTransGen pagerService.Atomic (tasks, disk) y) :
    (∀ i, (y.1 i).StoresBelow y.2.pageFile.file.length) ∧
      y.2.pageFile.fileLength ≤ y.2.pageFile.file.length := by
  refine Service.atomic_invariant (J := fun x : (ι → Task α) × Disk ↦
    (∀ i, (x.1 i).StoresBelow x.2.pageFile.file.length) ∧
      x.2.pageFile.fileLength ≤ x.2.pageFile.file.length) (fun x y hstep hx ↦ ?_) h
    ⟨fun i ↦ htasks i _, hlength⟩
  cases hstep with
  | @step i p q s t hi =>
    obtain ⟨hq, hgrown, hknown⟩ := (hx.1 i).step hx.2 hi
    refine ⟨fun j ↦ ?_, hknown⟩
    show Task.StoresBelow _ (Function.update p i q j)
    rcases eq_or_ne j i with rfl | hj
    · rw [Function.update_self]
      exact hq
    · rw [Function.update_of_ne hj]
      exact (hx.1 j).mono hgrown

/-- **The length that the tasks know is never more than the length of the file**, so every page below
`num_pages` lies in the file: at each point of each run of any routines, beside the thread and the
requests on their way to it. -/
theorem fileLength_le_of_runs {routines : ι → PageProgram (Node Bytes Bytes) StorageError α}
    {disk : Disk} {m : Mail pagerInterface ι Disk (Except TaskError α)}
    (hlength : disk.pageFile.fileLength ≤ disk.pageFile.file.length)
    (h : Mail.Runs pagerService channelCapacity
      (.start (fun i ↦ Task.ofProgram (routines i)) disk) m) :
    m.shared.pageFile.fileLength ≤ m.shared.pageFile.file.length ∧
      ∀ pageId, pageId < m.shared.pageFile.numPages →
        (pageId + 1) * pageSize ≤ m.shared.pageFile.file.length := by
  have hle := (storesBelow_of_atomic (fun i bound ↦ Task.storesBelow_ofProgram (routines i) bound)
    hlength (Mail.runs_view h)).2
  refine ⟨hle, fun pageId hpage ↦ le_trans ?_ hle⟩
  have hcount : pageId + 1 ≤ m.shared.pageFile.fileLength / pageSize :=
    hpage.trans_le (Nat.mod_le _ _)
  exact (Nat.mul_le_mul_right _ hcount).trans (Nat.div_mul_le_self _ _)

/-- Two insertions into a new file, beside each other, and both over. -/
theorem fileLength_le_of_two_inserts :
    ∃ m, Mail.Runs pagerService channelCapacity (.start
      (fun i : Bool ↦ Task.ofProgram (BPlusTree.insertProgram .std 3 [if i then 1 else 2] [7]))
      { pageFile := .opened [] }) m ∧
      (∀ i, ∃ r, m.parties i = .running (.done r)) ∧
      m.shared.pageFile.fileLength ≤ m.shared.pageFile.file.length := by
  obtain ⟨m, hruns, hdone⟩ := (Mail.consistent_start
    (fun i : Bool ↦ Task.ofProgram (BPlusTree.insertProgram .std 3 [if i then 1 else 2] [7]))
    { pageFile := .opened [] }).exists_runs_done (S := pagerService)
    (by decide : 0 < channelCapacity)
  exact ⟨m, hruns, hdone, (fileLength_le_of_runs le_rfl hruns).1⟩

end KsSql
