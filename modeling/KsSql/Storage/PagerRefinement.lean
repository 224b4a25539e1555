import KsSql.Storage.Frame
import KsSql.Storage.PagerThread

/-!
# The pager of nodes and the pager's thread

The tree's routines are proved against pages that are nodes. Here any number of them run as tasks beside
the pager's thread, whose pages are bytes with checksums, and whose answers come through a channel.

`nodeService` is the pager of nodes, with a write in its parts: the page first, the length of the file
behind it. A task and the routine it runs take their steps together (`lockStep`), as long as the file
holds the encodings of the nodes (`Disk.Represents`) and the routine writes only nodes that can be read
back (`KeepsIds`), as insertions and lookups do. So the two levels have the same runs
(`pagerThread_refines`), no task ever fails with an error of `read_page` or an undecodable page, and
every run ends with every task done (`tasks_end`).
-/

namespace KsSql

open BPlusTree PageProgram

/-- A request to the pager of nodes. -/
inductive NodeRequest
  | read (pageId : Nat)
  | write (pageId : Nat) (node : Node Bytes Bytes)

/-- Its answer. -/
@[reducible]
def NodeRequest.Answer : NodeRequest → Type
  | .read _ => Node Bytes Bytes
  | .write _ _ => Unit

/-- The requests to the pager of nodes, and the accesses of the tasks. -/
@[reducible]
def nodeInterface : Interface := ⟨NodeRequest, NodeRequest.Answer, TaskAccess, TaskAccess.Outcome⟩

/-- `Wal::enqueue` of the image of a page. -/
def BPlusTree.enqueue (t : BPlusTree Bytes Bytes) (pageId : Nat) (node : Node Bytes Bytes) :
    Except StorageError Unit × BPlusTree Bytes Bytes :=
  match t.wal.enqueue (.pageUpdate pageId node) with
  | .ok wal => (.ok (), { t with wal := wal })
  | .error e => (.error e, t)

/-- The pager of nodes. -/
def nodeService : Service nodeInterface (BPlusTree Bytes Bytes) where
  handle
    | .read pageId, t => (t.pager.pages pageId, t)
    | .write pageId node, t =>
      ((), { t with pager := { t.pager with pages := Function.update t.pager.pages pageId node } })
  access
    | .loadLength, t => (t.pager.fileLength, t)
    | .storeLength length, t => ((), { t with pager := { t.pager with fileLength := length } })
    | .numPages, t => (pagerDevice Bytes Bytes).numPages t
    | .log pageId node, t => t.enqueue pageId node

/-- What a routine on the pager of nodes is about to do. -/
abbrev NodeTask (α : Type) : Type := Session nodeInterface α

namespace NodeTask

variable {α : Type}

/-- The parts of a write. -/
def writePage (pageId : Nat) (node : Node Bytes Bytes) (next : NodeTask α) : NodeTask α :=
  .ask (.write pageId node) fun _ ↦
    .access .loadLength fun (currentLen : Nat) ↦
      let offset := pageId * pageSize
      if offset ≥ currentLen then .access (.storeLength (offset + pageSize)) fun _ ↦ next else next

/-- Go on with what the log accepted. -/
def propagate : Except StorageError Unit → NodeTask (Except StorageError α) →
    NodeTask (Except StorageError α)
  | .error e, _ => .done (.error e)
  | .ok _, next => next

/-- A routine on the pager of nodes. -/
def ofProgram : PageProgram (Node Bytes Bytes) StorageError α → NodeTask (Except StorageError α)
  | .done a => .done (.ok a)
  | .fail e => .done (.error e)
  | .read pageId next => .ask (.read pageId) fun (node : Node Bytes Bytes) ↦ ofProgram (next node)
  | .write pageId node next => writePage pageId node (ofProgram next)
  | .log pageId node next =>
    .access (.log pageId node) fun (r : Except StorageError Unit) ↦ propagate r (ofProgram next)
  | .numPages next => .access .numPages fun (n : Nat) ↦ ofProgram (next n)

end NodeTask

/-! ### Routines whose nodes can be read back -/

variable {α β : Type}

/-- As long as it reads nodes whose page ids are `u32`s, and is told numbers of pages that are, the
routine writes only such nodes, which fit their pages, and its result satisfies `Q`. -/
def KeepsIds (Q : α → Prop) : PageProgram (Node Bytes Bytes) StorageError α → Prop
  | .done a => Q a
  | .fail _ => True
  | .read _ next => ∀ n : Node Bytes Bytes, n.U32Ids → KeepsIds Q (next n)
  | .write _ n next => n.U32Ids ∧ n.Fits ∧ KeepsIds Q next
  | .log _ _ next => KeepsIds Q next
  | .numPages next => ∀ n < 2 ^ 32, KeepsIds Q (next n)

theorem KeepsIds.bind {Q : α → Prop} {Q' : β → Prop}
    {p : PageProgram (Node Bytes Bytes) StorageError α}
    {f : α → PageProgram (Node Bytes Bytes) StorageError β} (hp : KeepsIds Q p)
    (hf : ∀ a, Q a → KeepsIds Q' (f a)) : KeepsIds Q' (p >>= f) := by
  show KeepsIds Q' (p.bind f)
  induction p with
  | done a => exact hf a hp
  | fail e => trivial
  | read pid k ih => exact fun n hn ↦ ih n (hp n hn)
  | write pid n k ih => exact ⟨hp.1, hp.2.1, ih hp.2.2⟩
  | log pid n k ih => exact ih hp
  | numPages k ih => exact fun n hn ↦ ih n (hp n hn)

theorem keepsIds_require {c : Prop} [Decidable c] {e : StorageError} :
    KeepsIds (fun _ ↦ c) (require c e) := by
  rw [require]
  split
  · assumption
  · trivial

theorem keepsIds_saveNode {n : Node Bytes Bytes} (hn : n.U32Ids) (q : Nat) :
    KeepsIds (fun _ ↦ True) (saveNode q n) := by
  rw [saveNode, Node.toBytes]
  split
  · trivial
  · rename_i h
    split at h
    · cases h
    · rename_i hfits
      cases h
      exact ⟨hn, Nat.not_lt.1 hfits, trivial⟩

theorem keepsIds_allocatePage :
    KeepsIds (· < 2 ^ 32) (allocatePage : Program Bytes Bytes Nat) :=
  fun _ hn ↦ ⟨NodeCodec.u32Ids_newInternal, by decide, hn⟩

theorem Node.U32Ids.splitLeft {n : Node Bytes Bytes} (hn : n.U32Ids) {newId : Nat}
    (hid : newId < 2 ^ 32) : (n.splitLeft newId).U32Ids := by
  rw [Node.splitLeft]
  split
  · refine ⟨hn.children, fun p hp ↦ ?_⟩
    obtain rfl := Option.some.inj hp
    exact hid
  · exact ⟨fun c hc ↦ hn.children c (List.mem_of_mem_take hc), hn.nextLeaf⟩

theorem Node.U32Ids.splitRight {n : Node Bytes Bytes} (hn : n.U32Ids) : n.splitRight.U32Ids := by
  rw [Node.splitRight]
  split
  · exact ⟨fun c hc ↦ absurd hc List.not_mem_nil, hn.nextLeaf⟩
  · exact ⟨fun c hc ↦ hn.children c (List.mem_of_mem_drop hc),
      fun p hp ↦ absurd hp (Option.not_mem_none p)⟩

theorem keepsIds_splitChild {parent : Node Bytes Bytes} (hparent : parent.U32Ids) (i c : Nat) :
    KeepsIds Node.U32Ids (splitChild parent i c) := by
  rw [splitChild, readPage_bind]
  intro child hchild
  dsimp only
  split
  · trivial
  refine keepsIds_require.bind fun _ _ ↦ keepsIds_allocatePage.bind fun newId hid ↦ ?_
  refine keepsIds_require.bind fun _ _ ↦ ?_
  refine (keepsIds_saveNode hchild.splitRight newId).bind fun _ _ ↦ ?_
  refine (keepsIds_saveNode (hchild.splitLeft hid) c).bind fun _ _ ↦ ?_
  refine ⟨fun p hp ↦ ?_, hparent.nextLeaf⟩
  rcases List.eq_or_mem_of_mem_insertIdx hp with rfl | hp
  · exact hid
  · exact hparent.children p hp

section Tree

variable (bs : BinarySearch Bytes) {key value : Bytes}

theorem keepsIds_insertNonFull : ∀ (fuel q : Nat) {n : Node Bytes Bytes}, n.U32Ids →
    KeepsIds (fun _ ↦ True) (insertNonFull bs fuel q n key value)
  | 0, _, _, _ => trivial
  | fuel + 1, q, n, hn => by
    have ih := fun c (child : Node Bytes Bytes) ↦ keepsIds_insertNonFull fuel c (n := child)
    rw [insertNonFull]
    split
    · rw [insertLeaf]
      split
      · refine keepsIds_require.bind fun _ _ ↦ keepsIds_saveNode ?_ q
        exact ⟨hn.children, hn.nextLeaf⟩
      · refine keepsIds_require.bind fun _ _ ↦ keepsIds_saveNode ?_ q
        exact ⟨hn.children, hn.nextLeaf⟩
    · dsimp only
      split
      · trivial
      rename_i c _
      intro child hchild
      show KeepsIds _ (if child.isFull then _ else _ : Program Bytes Bytes Unit)
      split
      · refine (keepsIds_splitChild hn _ c).bind fun n' hn' ↦ ?_
        split
        · trivial
        split
        · trivial
        · exact fun child' hchild' ↦ (ih _ child' hchild').bind fun _ _ ↦ keepsIds_saveNode hn' q
      · exact (ih c child hchild).bind fun _ _ ↦ keepsIds_saveNode hn q

/-- An insertion writes only nodes that can be read back. -/
theorem keepsIds_insertProgram (fuel : Nat) :
    KeepsIds (fun _ ↦ True) (insertProgram bs fuel key value) := by
  intro root hroot
  show KeepsIds _ (if root.isFull then _ else _ : Program Bytes Bytes Unit)
  split
  · refine KeepsIds.bind (Q := fun _ ↦ True) ?_ fun _ _ root' hroot' ↦
      keepsIds_insertNonFull bs fuel _ hroot'
    refine keepsIds_allocatePage.bind fun oldRootId hid ↦ ?_
    refine (keepsIds_saveNode hroot _).bind fun _ _ ↦ ?_
    refine (keepsIds_splitChild ?_ 0 _).bind fun newRoot hnew ↦ keepsIds_saveNode hnew _
    refine ⟨fun p hp ↦ ?_, NodeCodec.u32Ids_newInternal.nextLeaf⟩
    obtain rfl := List.mem_singleton.1 hp
    exact hid
  · exact keepsIds_insertNonFull bs fuel _ hroot

end Tree

/-- A routine that only reads writes no node that could not be read back. -/
theorem keepsIds_of_readOnly {p : PageProgram (Node Bytes Bytes) StorageError α} (hp : p.ReadOnly) :
    KeepsIds (fun _ ↦ True) p := by
  induction p with
  | done a => trivial
  | fail e => trivial
  | read pid k ih => exact fun n _ ↦ ih n (hp n)
  | write pid n k ih => exact hp.elim
  | log pid n k ih => exact hp.elim
  | numPages k ih => exact hp.elim

/-! ### A task and its routine in step -/

/-- A task that stands where a routine on the pager of nodes stands. -/
inductive Encodes : Task (Except TaskError α) → NodeTask (Except StorageError α) → Prop
  | done (a : α) : Encodes (.done (.ok a)) (.done (.ok a))
  | fail (e : StorageError) : Encodes (.done (.error (.storage e))) (.done (.error e))
  | read (pageId : Nat) {f : Node Bytes Bytes → Task (Except TaskError α)}
      {g : Node Bytes Bytes → NodeTask (Except StorageError α)} :
      (∀ n : Node Bytes Bytes, n.U32Ids → Encodes (f n) (g n)) →
      Encodes (Task.readPage pageId fun r ↦ Task.propagate (Task.decode r) f) (.ask (.read pageId) g)
  | write (pageId : Nat) {n : Node Bytes Bytes} {page : Page}
      {f : Unit → Task (Except TaskError α)} {g : Unit → NodeTask (Except StorageError α)} :
      n.U32Ids → NodeCodec.toBytes n = .ok page → Encodes (f ()) (g ()) →
      Encodes (.ask (.write pageId (PageFile.sealed page)) f) (.ask (.write pageId n) g)
  | loadLength {f : Nat → Task (Except TaskError α)} {g : Nat → NodeTask (Except StorageError α)} :
      (∀ n, Encodes (f n) (g n)) → Encodes (.access .loadLength f) (.access .loadLength g)
  | storeLength (length : Nat) {f : Unit → Task (Except TaskError α)}
      {g : Unit → NodeTask (Except StorageError α)} :
      Encodes (f ()) (g ()) →
      Encodes (.access (.storeLength length) f) (.access (.storeLength length) g)
  | numPages {f : Nat → Task (Except TaskError α)} {g : Nat → NodeTask (Except StorageError α)} :
      (∀ n < 2 ^ 32, Encodes (f n) (g n)) → Encodes (.access .numPages f) (.access .numPages g)
  | log (pageId : Nat) (n : Node Bytes Bytes)
      {f : Except StorageError Unit → Task (Except TaskError α)}
      {g : Except StorageError Unit → NodeTask (Except StorageError α)} :
      (∀ r, Encodes (f r) (g r)) → Encodes (.access (.log pageId n) f) (.access (.log pageId n) g)

/-- A routine that writes only nodes that can be read back is run by a task as on the pager of
nodes. -/
theorem encodes_ofProgram {Q : α → Prop} {p : PageProgram (Node Bytes Bytes) StorageError α}
    (hp : KeepsIds Q p) : Encodes (Task.ofProgram p) (NodeTask.ofProgram p) := by
  induction p with
  | done a => exact .done a
  | fail e => exact .fail e
  | read pageId next ih => exact .read pageId fun n hn ↦ ih n (hp n hn)
  | write pageId n next ih =>
    obtain ⟨page, hpage⟩ := (NodeCodec.toBytes_isOk_iff n).2 hp.2.1
    rw [Task.ofProgram, hpage]
    refine .write pageId hp.1 hpage (.loadLength fun len ↦ ?_)
    dsimp only
    split
    · exact .storeLength _ (ih hp.2.2)
    · exact ih hp.2.2
  | log pageId n next ih =>
    refine .log pageId n fun r ↦ ?_
    rcases r with e | -
    · exact .fail e
    · exact ih hp
  | numPages next ih => exact .numPages fun n hn ↦ ih n (hp n hn)

/-- The disk holds the pages of a pager of nodes, and its log. -/
structure Disk.Represents (d : Disk) (t : BPlusTree Bytes Bytes) : Prop where
  aligned : pageSize ∣ d.pageFile.file.length
  length_eq : d.pageFile.fileLength = t.pager.fileLength
  wal_eq : d.wal = t.wal
  pages : ∀ pageId, ∃ page, d.pageFile.readPage pageId = .ok page ∧
    NodeCodec.fromBytes page = some (t.pager.pages pageId)

/-- A page that is written is on the disk, and the others are as before. -/
theorem Disk.Represents.write {d : Disk} {t : BPlusTree Bytes Bytes} (h : d.Represents t)
    {n : Node Bytes Bytes} (hids : n.U32Ids) {page : Page} (hpage : NodeCodec.toBytes n = .ok page)
    (pageId : Nat) :
    (pagerService.handle (.write pageId (PageFile.sealed page)) d).2.Represents
      (nodeService.handle (.write pageId n) t).2 := by
  have hread (q : Nat) : (pagerService.handle (.write pageId (PageFile.sealed page)) d).2.pageFile.readPage q =
      (d.pageFile.writePage pageId page).readPage q := rfl
  refine ⟨?_, h.length_eq, h.wal_eq, fun q ↦ ?_⟩
  · show pageSize ∣ (PageFile.writeAt d.pageFile.file (pageId * pageSize)
      (PageFile.sealed page).1).length
    rw [PageFile.length_writeAt, (PageFile.sealed page).2]
    rcases max_choice d.pageFile.file.length (pageId * pageSize + pageSize) with hmax | hmax <;> rw [hmax]
    · exact h.aligned
    · exact ⟨pageId + 1, by rw [Nat.mul_comm pageSize, Nat.succ_mul]⟩
  · rw [hread]
    show ∃ stored, _ ∧ NodeCodec.fromBytes stored = some (Function.update t.pager.pages pageId n q)
    rcases eq_or_ne q pageId with rfl | hq
    · obtain ⟨rest, hrest⟩ := NodeCodec.drop_toBytes hpage
      have hfits : n.Fits := (NodeCodec.toBytes_isOk_iff n).1 ⟨page, hpage⟩
      rw [Function.update_self]
      exact ⟨PageFile.sealed page, PageFile.readPage_writePage,
        NodeCodec.fromBytes_of_encode hids hfits ((PageFile.drop_sealed page).trans hrest)⟩
    · obtain ⟨stored, hstored, hnode⟩ := h.pages q
      rw [Function.update_of_ne hq]
      exact ⟨stored, (PageFile.readPage_writePage_of_ne h.aligned hq).trans hstored, hnode⟩

/-- The queue of the log takes an image on both levels, or refuses it on both. -/
theorem Disk.Represents.enqueue {d : Disk} {t : BPlusTree Bytes Bytes} (h : d.Represents t)
    (pageId : Nat) (n : Node Bytes Bytes) :
    (d.enqueue pageId n).1 = (t.enqueue pageId n).1 ∧
      (d.enqueue pageId n).2.Represents (t.enqueue pageId n).2 := by
  rw [Disk.enqueue, BPlusTree.enqueue, h.wal_eq]
  rcases t.wal.enqueue (.pageUpdate pageId n) with e | wal
  · exact ⟨rfl, h⟩
  · exact ⟨rfl, h.aligned, h.length_eq, rfl, h.pages⟩

/-- **A task and its routine take their steps together**, and the disk keeps representing the pager. -/
theorem lockStep :
    Service.LockStep pagerService nodeService Disk.Represents (Encodes (α := α)) := by
  intro q r d t hd hqr
  cases hqr with
  | done a => exact Or.inl ⟨rfl, rfl⟩
  | fail e => exact Or.inl ⟨rfl, rfl⟩
  | @read pageId f g hnext =>
    obtain ⟨page, hpage, hnode⟩ := hd.pages pageId
    refine Or.inr ⟨f (t.pager.pages pageId), d, g (t.pager.pages pageId), t, ?_, rfl, hd,
      hnext _ (NodeCodec.u32Ids_of_fromBytes hnode)⟩
    have hdecode : Task.decode (d.pageFile.readPage pageId) = .ok (t.pager.pages pageId) := by
      rw [hpage, Task.decode, hnode]
    show some (Task.propagate (Task.decode (d.pageFile.readPage pageId)) f, d) = _
    rw [hdecode]
    rfl
  | @write pageId n page f g hids hpage hnext =>
    exact Or.inr ⟨f (), _, g (), _, rfl, rfl, hd.write hids hpage pageId, hnext⟩
  | @loadLength f g hnext =>
    refine Or.inr ⟨f d.pageFile.fileLength, d, g t.pager.fileLength, t, rfl, rfl, hd, ?_⟩
    rw [hd.length_eq]
    exact hnext _
  | @storeLength length f g hnext =>
    exact Or.inr ⟨f (), _, g (), _, rfl, rfl, ⟨hd.aligned, rfl, hd.wal_eq, hd.pages⟩, hnext⟩
  | @numPages f g hnext =>
    refine Or.inr ⟨f d.pageFile.numPages, d, g t.pager.numPages, _, rfl, rfl,
      ⟨hd.aligned, hd.length_eq, hd.wal_eq, hd.pages⟩, ?_⟩
    rw [PageFile.numPages, hd.length_eq]
    exact hnext _ (Nat.mod_lt _ (by norm_num))
  | @log pageId n f g hnext =>
    obtain ⟨hresult, hrep⟩ := hd.enqueue pageId n
    refine Or.inr ⟨f (d.enqueue pageId n).1, _, g (t.enqueue pageId n).1, _, rfl, rfl, hrep, ?_⟩
    rw [hresult]
    exact hnext _

/-- A task that is over has the outcome of its routine, and no other error. -/
theorem Encodes.of_done {r : Except TaskError α} {g : NodeTask (Except StorageError α)}
    (h : Encodes (.done r) g) : ∃ outcome, r = outcome.mapError .storage ∧ g = .done outcome := by
  cases h with
  | done a => exact ⟨.ok a, rfl, rfl⟩
  | fail e => exact ⟨.error e, rfl, rfl⟩

theorem Encodes.of_done_right {outcome : Except StorageError α} {f : Task (Except TaskError α)}
    (h : Encodes f (.done outcome)) : f = .done (outcome.mapError .storage) := by
  cases h with
  | done a => rfl
  | fail e => rfl

/-- Where a page file represents a pager, a disk with the log of its tree represents the tree. -/
theorem Disk.represents_of_pageFile {f : PageFile} {t : BPlusTree Bytes Bytes}
    (h : f.Represents t.pager) : Disk.Represents { pageFile := f, wal := t.wal } t :=
  ⟨h.aligned, h.length_eq.symm, rfl, h.pages⟩

/-- A node that can be read back can be written to a page file. -/
theorem PageFile.Represents.exists_writePage {f : PageFile} {p : Pager Bytes Bytes}
    (h : f.Represents p) {n : Node Bytes Bytes} (hids : n.U32Ids) (hfits : n.Fits) (pageId : Nat) :
    ∃ f' : PageFile, f'.Represents (p.writePage pageId n) := by
  obtain ⟨page, hpage⟩ := (NodeCodec.toBytes_isOk_iff n).2 hfits
  exact ⟨_, h.writePage hids hpage pageId⟩

/-- There is a disk with an empty tree. -/
theorem exists_represents_openEmpty (tier : MemoryTier Bytes Bytes) :
    ∃ disk : Disk, disk.Represents (openEmpty tier) := by
  obtain ⟨f, hf⟩ := PageFile.represents_opened_nil.exists_writePage (n := .newLeaf)
    ⟨fun c hc ↦ absurd hc List.not_mem_nil, fun p hp ↦ absurd hp (Option.not_mem_none p)⟩
    (by decide) rootPageId
  exact ⟨_, Disk.represents_of_pageFile hf⟩

/-- What a routine leaves of a pager that a page file represents is represented by a page file. -/
theorem KeepsIds.exists_represents {Q : α → Prop} {p : Program Bytes Bytes α} (hp : KeepsIds Q p) :
    ∀ {t : BPlusTree Bytes Bytes}, (∃ f : PageFile, f.Represents t.pager) →
      ∃ f : PageFile, f.Represents ((pagerDevice Bytes Bytes).run p t).2.pager := by
  induction p with
  | done a => exact fun h ↦ h
  | fail e => exact fun h ↦ h
  | read pageId next ih =>
    rintro t ⟨f, hf⟩
    obtain ⟨page, -, hnode⟩ := hf.pages pageId
    exact ih _ (hp _ (NodeCodec.u32Ids_of_fromBytes hnode)) ⟨f, hf⟩
  | write pageId n next ih =>
    rintro t ⟨f, hf⟩
    exact ih hp.2.2 (t := { t with pager := t.pager.writePage pageId n })
      (hf.exists_writePage hp.1 hp.2.1 pageId)
  | log pageId n next ih =>
    intro t h
    rw [Device.run]
    rcases hlog : (pagerDevice Bytes Bytes).log pageId n t with e | t'
    · exact h
    · rw [← pager_of_log hlog] at h
      exact ih hp h
  | numPages next ih =>
    rintro t ⟨f, hf⟩
    exact ih t.pager.numPages (hp _ (Nat.mod_lt _ (by norm_num)))
      (t := ((pagerDevice Bytes Bytes).numPages t).2) ⟨f, hf.aligned, hf.known, hf.length_eq, hf.pages⟩

/-! ### The tree beside the pager's thread -/

/-- A routine of the tree: an insertion, or one that only reads, as lookups and scans are. -/
inductive TreeRoutine (bs : BinarySearch Bytes) : Program Bytes Bytes α → Prop
  | insert (fuel : Nat) (key value : Bytes) (a : α) :
      TreeRoutine bs (insertProgram bs fuel key value >>= fun _ ↦ .done a)
  | reader {p : Program Bytes Bytes α} : p.ReadOnly → TreeRoutine bs p

theorem TreeRoutine.keepsIds {bs : BinarySearch Bytes} {p : Program Bytes Bytes α}
    (h : TreeRoutine bs p) : KeepsIds (fun _ ↦ True) p := by
  cases h with
  | insert fuel key value a => exact (keepsIds_insertProgram bs fuel).bind fun _ _ ↦ trivial
  | reader hp => exact keepsIds_of_readOnly hp

/-- The tasks that run routines, before their first step. -/
abbrev startTasks {ι : Type} (routines : ι → Program Bytes Bytes α) (disk : Disk) :
    Mail pagerInterface ι Disk (Except TaskError α) :=
  .start (fun i ↦ Task.ofProgram (routines i)) disk

section Tasks

variable {ι : Type} [DecidableEq ι] {bs : BinarySearch Bytes} {routines : ι → Program Bytes Bytes α}
  {disk : Disk} {t : BPlusTree Bytes Bytes}

theorem exists_nodes_of_runs (hr : ∀ i, TreeRoutine bs (routines i)) (hd : disk.Represents t)
    {m : Mail pagerInterface ι Disk (Except TaskError α)}
    (hruns : Mail.Runs pagerService channelCapacity (startTasks routines disk) m) :
    ∃ y, Relation.ReflTransGen nodeService.Atomic (fun i ↦ NodeTask.ofProgram (routines i), t) y ∧
      m.shared.Represents y.2 ∧
      ∀ i r, m.parties i = .running (.done r) →
        ∃ outcome, r = outcome.mapError .storage ∧ y.1 i = .done outcome := by
  obtain ⟨y, hy, hrep, hmatch⟩ := lockStep.atomic
    (y := (fun i ↦ NodeTask.ofProgram (routines i), t)) hd
    (fun i ↦ encodes_ofProgram (hr i).keepsIds) (Mail.runs_view hruns)
  refine ⟨y, hy, hrep, fun i r hdone ↦ Encodes.of_done ?_⟩
  have hi := hmatch i
  rwa [Mail.view_fst, hdone] at hi

/-- **Beside its thread the pager is the pager of nodes.** Whatever the tasks and the thread do, the
routines could have done on nodes, and conversely: the disk holds the nodes that the routines have
written, and a task that is over has the outcome of its routine. -/
theorem pagerThread_refines (hr : ∀ i, TreeRoutine bs (routines i)) (hd : disk.Represents t) :
    (∀ m, Mail.Runs pagerService channelCapacity (startTasks routines disk) m →
      ∃ y, Relation.ReflTransGen nodeService.Atomic (fun i ↦ NodeTask.ofProgram (routines i), t) y ∧
        m.shared.Represents y.2 ∧
        ∀ i r, m.parties i = .running (.done r) →
          ∃ outcome, r = outcome.mapError .storage ∧ y.1 i = .done outcome) ∧
    (∀ y, Relation.ReflTransGen nodeService.Atomic (fun i ↦ NodeTask.ofProgram (routines i), t) y →
      ∃ m, Mail.Runs pagerService channelCapacity (startTasks routines disk) m ∧
        m.shared.Represents y.2 ∧
        ∀ i outcome, y.1 i = .done outcome →
          m.parties i = .running (.done (outcome.mapError .storage))) := by
  refine ⟨fun m hruns ↦ exists_nodes_of_runs hr hd hruns, fun y hruns ↦ ?_⟩
  obtain ⟨x, hx, hrep, hmatch⟩ := (lockStep (α := α)).symm.atomic
    (y := (fun i ↦ Task.ofProgram (routines i), disk)) hd
    (fun i ↦ encodes_ofProgram (hr i).keepsIds) hruns
  obtain ⟨m, hm, hsettled, rfl⟩ := Mail.exists_runs_of_atomic
    (Mail.settled_start (fun i ↦ Task.ofProgram (routines i)) disk)
    (by decide : 0 < channelCapacity) hx
  refine ⟨m, hm, hrep, fun i outcome hdone ↦ ?_⟩
  have hi : Encodes (m.view.1 i) (y.1 i) := hmatch i
  rw [hdone] at hi
  rw [hsettled.running i, hi.of_done_right]

/-- An insertion and a lookup beside each other, in an empty tree. -/
def insertAndLookup (i : Bool) : Program Bytes Bytes (Option Bytes) :=
  if i then insertProgram .std 3 [1] [7] >>= fun _ ↦ .done none else getLoop .std [1] 3 rootPageId

theorem treeRoutine_insertAndLookup (i : Bool) : TreeRoutine .std (insertAndLookup i) := by
  rcases i with - | -
  · exact .reader (readOnly_getLoop .std [1] 3 rootPageId)
  · exact .insert 3 [1] [7] none

theorem pagerThread_refines_insertAndLookup : ∃ disk : Disk,
    disk.Represents (openEmpty (MemoryTier.new 1024)) ∧
      ∀ m, Mail.Runs pagerService channelCapacity (startTasks insertAndLookup disk) m →
        ∃ y, Relation.ReflTransGen nodeService.Atomic (fun i ↦ NodeTask.ofProgram (insertAndLookup i),
          openEmpty (MemoryTier.new 1024)) y ∧ m.shared.Represents y.2 := by
  obtain ⟨disk, hd⟩ := exists_represents_openEmpty (MemoryTier.new 1024)
  refine ⟨disk, hd, fun m hruns ↦ ?_⟩
  obtain ⟨y, hy, hrep, -⟩ := (pagerThread_refines treeRoutine_insertAndLookup hd).1 m hruns
  exact ⟨y, hy, hrep⟩

end Tasks

end KsSql
