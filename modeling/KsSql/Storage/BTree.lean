import KsSql.Util.BinarySearch
import KsSql.Util.PageProgram
import KsSql.Storage.MemoryTier
import KsSql.Storage.Wal

/-!
# The B+ tree

`BPlusTree` of `storage/btree.rs` over `Pager` of `storage/pager.rs`. The routines are page
programs, requesting one page read or write at a time exactly as the source awaits them, and
`BPlusTree.pagerDevice` serves the requests one after another from the tree's own state. A page that
was never written reads as a blank one, and `numPages` is the file length in pages as a `u32`.

A descent is a loop in the source and has a number of steps here. The wrappers `BPlusTree.get` and
`BPlusTree.insert` allow one step for each page of the file and one more, so running out of steps
means that a page was visited twice.
-/

namespace KsSql

open PageProgram

/-- `Pager`, with the pages decoded. `handedOut` records the page ids that were asked for, oldest
first; no operation reads it. -/
structure Pager (K V : Type) where
  /-- The content of each page; a page never written is blank. -/
  pages : Nat → Node K V := fun _ ↦ .newInternal
  /-- The length of the page file in bytes. -/
  fileLength : Nat := 0
  /-- History: every answer of `num_pages` to `allocate_page`. -/
  handedOut : List Nat := []

namespace Pager

variable {K V : Type}

/-- `Pager::write_page` -/
def writePage (p : Pager K V) (pageId : Nat) (node : Node K V) : Pager K V :=
  let offset := pageId * pageSize
  { p with
    pages := Function.update p.pages pageId node
    fileLength := if offset ≥ p.fileLength then offset + pageSize else p.fileLength }

/-- `Pager::num_pages` -/
def numPages (p : Pager K V) : Nat := p.fileLength / pageSize % 2 ^ 32

end Pager

/-- `BPlusTree` -/
structure BPlusTree (K V : Type) where
  /-- The page file. -/
  pager : Pager K V := {}
  /-- The write-ahead log. -/
  wal : Wal K V := {}
  /-- The cache in front of the pages. -/
  memoryTier : MemoryTier K V

namespace BPlusTree

/-- `root_page_id`, which `BPlusTree::open` sets to zero in every case. -/
def rootPageId : Nat := 0

/-- Routines over the pages of a tree. -/
abbrev Program (K V α : Type) := PageProgram (Node K V) StorageError α

/-- The pager and the queue, serving page requests one after another. -/
def pagerDevice (K V : Type) : Device (BPlusTree K V) (Node K V) StorageError where
  read pageId t := t.pager.pages pageId
  write pageId node t := { t with pager := t.pager.writePage pageId node }
  log pageId node t := (t.wal.enqueue (.pageUpdate pageId node)).map fun wal ↦ { t with wal := wal }
  numPages t := (t.pager.numPages,
    { t with pager := { t.pager with handedOut := t.pager.handedOut ++ [t.pager.numPages] } })

theorem pagerDevice_read {K V : Type} (pageId : Nat) (t : BPlusTree K V) :
    (pagerDevice K V).read pageId t = t.pager.pages pageId := rfl

section Routines

variable {K V : Type} [ByteLen K] [ByteLen V]

/-- `BPlusTree::allocate_page`: append a page of zeroes to the file. -/
def allocatePage : Program K V Nat := do
  let id ← countPages
  PageProgram.writePage id .newInternal
  pure id

/-- `BPlusTree::save_node`: log the page image, then write it. -/
def saveNode (pageId : Nat) (node : Node K V) : Program K V Unit :=
  match node.toBytes with
  | .error e => .fail e
  | .ok bytes => do
    logPage pageId bytes
    PageProgram.writePage pageId bytes

/-- `BPlusTree::split_child`: move the upper half of a child to a new page, and return the parent
with the separator and the new child in place. The parent's own page is not written. -/
def splitChild (parent : Node K V) (i childId : Nat) : Program K V (Node K V) := do
  let child ← readPage childId
  match child.midKey? with
  | none => .fail .panicked
  | some midKey =>
    require child.canSplit .panicked
    let newNodeId ← allocatePage
    require (i ≤ parent.keys.length ∧ i + 1 ≤ parent.children.length) .panicked
    saveNode newNodeId child.splitRight
    saveNode childId (child.splitLeft newNodeId)
    pure { parent with
      keys := parent.keys.insertIdx i midKey
      children := parent.children.insertIdx (i + 1) newNodeId }

variable [LinearOrder K] (bs : BinarySearch K)

/-- The child a key belongs to: right of an equal separator, clamped to the last child. -/
def childIndex (node : Node K V) (key : K) : Nat :=
  let i := match bs.search node.keys key with
    | .ok idx => idx + 1
    | .error idx => idx
  if i ≥ node.children.length then node.children.length - 1 else i

/-- The leaf case of `BPlusTree::insert_non_full`. -/
def insertLeaf (pageId : Nat) (node : Node K V) (key : K) (value : V) : Program K V Unit :=
  match bs.search node.keys key with
  | .ok idx => do
    require (idx < node.values.length) .panicked
    saveNode pageId { node with values := node.values.set idx value }
  | .error idx => do
    require (idx ≤ node.keys.length ∧ idx ≤ node.values.length) .panicked
    saveNode pageId
      { node with keys := node.keys.insertIdx idx key, values := node.values.insertIdx idx value }

/-- `BPlusTree::insert_non_full`: descend to the leaf of the key, splitting full children on the
way. A node's page is written after the descent below it has returned. -/
def insertNonFull : Nat → Nat → Node K V → K → V → Program K V Unit
  | 0, _, _, _, _ => .fail .diverged
  | fuel + 1, pageId, node, key, value =>
    match node.nodeType with
    | .leaf => insertLeaf bs pageId node key value
    | .internal =>
      let i := childIndex bs node key
      match node.children[i]? with
      | none => .fail .panicked
      | some childId => do
        let child ← readPage childId
        if child.isFull then
          let node ← splitChild node i childId
          match node.keys[i]? with
          | none => .fail .panicked
          | some sep =>
            -- the side after a split is chosen by comparison, not by a new search
            match node.children[if sep < key then i + 1 else i]? with
            | none => .fail .panicked
            | some childId => do
              let child ← readPage childId
              insertNonFull fuel childId child key value
              saveNode pageId node
        else
          insertNonFull fuel childId child key value
          saveNode pageId node

/-- The first half of `BPlusTree::insert` on a full root: its content moves to a new page, which is
split under a new root. -/
def splitRoot (root : Node K V) : Program K V Unit := do
  let oldRootId ← allocatePage
  saveNode oldRootId root
  let newRoot ← splitChild { Node.newInternal with children := [oldRootId] } 0 oldRootId
  saveNode rootPageId newRoot

/-- `BPlusTree::insert` -/
def insertProgram (fuel : Nat) (key : K) (value : V) : Program K V Unit := do
  let root ← readPage rootPageId
  if root.isFull then
    splitRoot root
    let root ← readPage rootPageId
    insertNonFull bs fuel rootPageId root key value
  else
    insertNonFull bs fuel rootPageId root key value

/-- The loop of `BPlusTree::get`, below the memory tier. -/
def getLoop (key : K) : Nat → Nat → Program K V (Option V)
  | 0, _ => .fail .diverged
  | fuel + 1, pageId => do
    let node ← readPage pageId
    match node.nodeType with
    | .leaf =>
      match bs.search node.keys key with
      | .ok idx =>
        match node.values[idx]? with
        | some value => pure (some value)
        | none => .fail .panicked
      | .error _ => pure none
    | .internal =>
      match node.children[childIndex bs node key]? with
      | some childId => getLoop key fuel childId
      | none => .fail .panicked

end Routines

/-! ### The tree's operations -/

variable {K V : Type} [ByteLen K] [ByteLen V] [LinearOrder K] (bs : BinarySearch K)

/-- One step for each page of the file, and one more. -/
def fuel (t : BPlusTree K V) : Nat := t.pager.fileLength / pageSize + 1

/-- `BPlusTree::get` on the pages, run alone. -/
def getPages (t : BPlusTree K V) (key : K) : Except StorageError (Option V) :=
  ((pagerDevice K V).run (getLoop bs key t.fuel rootPageId) t).1

/-- `BPlusTree::get`: the memory tier, then the pages. -/
def get (t : BPlusTree K V) (key : K) : Except StorageError (Option V) :=
  match t.memoryTier.get key with
  | some value => .ok (some value)
  | none => t.getPages bs key

/-- `BPlusTree::insert`, run alone. -/
def insert (t : BPlusTree K V) (key : K) (value : V) : Except StorageError Unit × BPlusTree K V :=
  (pagerDevice K V).run (insertProgram bs t.fuel key value) t

/-- `BPlusTree::open` on an empty page file and an empty log: an empty leaf is written as the
root. -/
def openEmpty (memoryTier : MemoryTier K V) : BPlusTree K V :=
  { pager := ({} : Pager K V).writePage rootPageId .newLeaf, memoryTier := memoryTier }

/-- `BPlusTree::open`: what the log holds is applied, page images to the page file and records to the
memory tier, and a file without pages gets an empty leaf as its root. The queue is empty. The length
of the file is taken as known: `Pager::open` learns it on a thread of its own. -/
def reopen (timestamp : Nat → Int) (entries : List (WalEntry K V)) (pager : Pager K V)
    (memoryTier : MemoryTier K V) : BPlusTree K V :=
  let t := entries.zipIdx.foldl (fun (t : BPlusTree K V) x ↦
    match x.1 with
    | .pageUpdate pageId data => { t with pager := t.pager.writePage pageId data }
    | .recordUpdate key data =>
      { t with memoryTier := t.memoryTier.insert (timestamp x.2) key data }
    | _ => t) { pager := pager, memoryTier := memoryTier }
  if t.pager.numPages = 0 then { t with pager := t.pager.writePage rootPageId .newLeaf } else t

end BPlusTree

end KsSql
