import KsSql.Util.Bytes
import Mathlib.Data.List.InsertIdx
import Mathlib.Logic.Relation

/-!
# B+ tree nodes

`Node` of `storage/btree.rs`, with its size in the page format. The keys and values are of arbitrary
types `K` and `V` that have a length in bytes; in the source both are `Vec<u8>`.

A page holds the bincode encoding of a node behind a four-byte checksum. The encoding is lossless,
so the model's pages hold the nodes themselves, and only the encoding's length is computed: a
four-byte variant tag, an eight-byte length before each vector and before each byte string in it,
four bytes for a page id, and one byte before an optional page id. `toBytes` keeps the source's
refusal of a node that does not fit, and a page of zeroes decodes as an internal node with nothing
in it (`Node.newInternal`), the internal variant having tag zero.

`splitLeft`, `splitRight` and `midKey?` are the two halves and the separator that `split_child`
computes from a full child. `LeafShape` and `InternalShape` say what a leaf and an internal node of
a tree look like, and the halves of a node have its shape again.
-/

namespace KsSql

/-- The two kinds of node. -/
inductive NodeType
  | internal
  | leaf
  deriving DecidableEq, Repr

/-- A node: an internal node has children between its keys, a leaf has a value for each key and
the id of the leaf to its right. -/
structure Node (K V : Type) where
  /-- Internal node or leaf. -/
  nodeType : NodeType
  /-- The keys, in order. -/
  keys : List K
  /-- The page ids of the children. -/
  children : List Nat
  /-- The values of a leaf. -/
  values : List V
  /-- The page id of the next leaf. -/
  nextLeaf : Option Nat
  deriving DecidableEq, Repr

/-- The size of a page in bytes. -/
def pageSize : Nat := 4096

/-- What can go wrong in the storage layer. The last two are not error values of the source: an
index out of range panics, and a descent through a cycle never ends. -/
inductive StorageError
  /-- `Node too large for page size` -/
  | nodeTooLarge
  /-- `WAL Queue Saturated after 1000 retries` -/
  | walSaturated
  /-- An index out of range. -/
  | panicked
  /-- A walk that has taken more steps than the file has pages: it is in a cycle. -/
  | diverged
  deriving DecidableEq, Repr

namespace Node

variable {K V : Type}

/-- `Node::new_leaf` -/
def newLeaf : Node K V := ⟨.leaf, [], [], [], none⟩

/-- `Node::new_internal` -/
def newInternal : Node K V := ⟨.internal, [], [], [], none⟩

/-- The bindings of a leaf. -/
def entries (n : Node K V) : List (K × V) := n.keys.zip n.values

section Size

variable [ByteLen K] [ByteLen V]

/-- The encoded length of a vector of byte strings. -/
def vecSize {α : Type} [ByteLen α] (l : List α) : Nat := 8 + (l.map fun a ↦ 8 + byteLen a).sum

/-- `bincode::serialized_size` of a node. -/
def serializedSize (n : Node K V) : Nat :=
  4 + vecSize n.keys + (8 + 4 * n.children.length) + vecSize n.values +
    (1 + if n.nextLeaf.isSome then 4 else 0)

/-- `Node::to_bytes`, up to the encoding: the node itself, if it fits behind the checksum. -/
def toBytes (n : Node K V) : Except StorageError (Node K V) :=
  if n.serializedSize > pageSize - 4 then .error .nodeTooLarge else .ok n

/-- A node that fits its page. -/
abbrev Fits (n : Node K V) : Prop := n.serializedSize ≤ pageSize - 4

/-- `Node::is_full` -/
def isFull (n : Node K V) : Bool := n.serializedSize > pageSize * 3 / 4

end Size

/-! ### The halves of a split -/

/-- The middle index at which a node is split. -/
def mid (n : Node K V) : Nat := n.keys.length / 2

/-- The separator a split hands to the parent. -/
def midKey? (n : Node K V) : Option K := n.keys[n.mid]?

/-- Whether the positions at which a split cuts the vectors beside the keys are in range. -/
def canSplit (n : Node K V) : Bool :=
  match n.nodeType with
  | .leaf => n.mid ≤ n.values.length
  | .internal => n.mid + 1 ≤ n.children.length

/-- The half that keeps the page. A leaf's is linked to the page of the other half. -/
def splitLeft (n : Node K V) (newId : Nat) : Node K V :=
  match n.nodeType with
  | .leaf =>
    { n with keys := n.keys.take n.mid, values := n.values.take n.mid, nextLeaf := some newId }
  | .internal =>
    { n with keys := n.keys.take n.mid, children := n.children.take (n.mid + 1) }

/-- The half that goes to a new page. An internal node's separator stays in neither half. -/
def splitRight (n : Node K V) : Node K V :=
  match n.nodeType with
  | .leaf =>
    { nodeType := .leaf, keys := n.keys.drop n.mid, children := [],
      values := n.values.drop n.mid, nextLeaf := n.nextLeaf }
  | .internal =>
    { nodeType := .internal, keys := n.keys.drop (n.mid + 1),
      children := n.children.drop (n.mid + 1), values := [], nextLeaf := none }

/-! ### Well-formed nodes -/

/-- The shape of a leaf: no children, a value for each key, and the keys in strict order. -/
structure LeafShape [LinearOrder K] (n : Node K V) : Prop where
  isLeaf : n.nodeType = .leaf
  children_eq : n.children = []
  length_eq : n.keys.length = n.values.length
  sorted : n.keys.Pairwise (· < ·)

/-- The shape of an internal node: children around the keys, and nothing of a leaf. -/
structure InternalShape (n : Node K V) : Prop where
  isInternal : n.nodeType = .internal
  values_eq : n.values = []
  nextLeaf_eq : n.nextLeaf = none
  length_eq : n.children.length = n.keys.length + 1

section Full

variable [ByteLen K] [ByteLen V]

/-- A node that is full has a key: without keys it would be much smaller. -/
theorem keys_pos_of_isFull {n : Node K V} (hv : n.values.length ≤ n.keys.length)
    (hc : n.children.length ≤ n.keys.length + 1) (h : n.isFull) : 0 < n.keys.length := by
  by_contra hpos
  have hkeys : n.keys = [] := List.eq_nil_of_length_eq_zero (by omega)
  have hvals : n.values = [] := List.eq_nil_of_length_eq_zero (by omega)
  have hnext : (if n.nextLeaf.isSome then 4 else 0) ≤ 4 := by split <;> omega
  have hsize : n.serializedSize > pageSize * 3 / 4 := of_decide_eq_true h
  rw [serializedSize, hkeys, hvals] at hsize
  simp only [vecSize, List.map_nil, List.sum_nil, pageSize] at hsize
  omega

end Full

/-- A node with a key has a middle key. -/
theorem exists_midKey {n : Node K V} (h : 0 < n.keys.length) : ∃ m, n.midKey? = some m :=
  ⟨n.keys.get ⟨n.mid, by rw [mid]; omega⟩, List.getElem?_eq_getElem _⟩

theorem LeafShape.exists_midKey [LinearOrder K] [ByteLen K] [ByteLen V] {n : Node K V}
    (h : n.LeafShape) (hfull : n.isFull) : ∃ m, n.midKey? = some m := by
  refine Node.exists_midKey (keys_pos_of_isFull h.length_eq.ge ?_ hfull)
  rw [h.children_eq]
  exact Nat.zero_le _

theorem InternalShape.exists_midKey [ByteLen K] [ByteLen V] {n : Node K V}
    (h : n.InternalShape) (hfull : n.isFull) : ∃ m, n.midKey? = some m := by
  refine Node.exists_midKey (keys_pos_of_isFull ?_ h.length_eq.le hfull)
  rw [h.values_eq]
  exact Nat.zero_le _

section Size

variable [ByteLen K] [ByteLen V]

theorem vecSize_append {α : Type} [ByteLen α] (l l' : List α) :
    vecSize (l ++ l') + 8 = vecSize l + vecSize l' := by
  simp only [vecSize, List.map_append, List.sum_append]
  omega

/-- A part of a vector takes less room, and a byte string left out takes eight bytes at least. -/
theorem vecSize_take {α : Type} [ByteLen α] (l : List α) (i : Nat) :
    vecSize (l.take i) ≤ vecSize l ∧ (i < l.length → vecSize (l.take i) + 8 ≤ vecSize l) := by
  have happ := vecSize_append (l.take i) (l.drop i)
  rw [List.take_append_drop] at happ
  have hpos : 8 ≤ vecSize (l.drop i) := Nat.le_add_right _ _
  refine ⟨by omega, fun hi ↦ ?_⟩
  have hdrop : 16 ≤ vecSize (l.drop i) := by
    rw [List.drop_eq_getElem_cons hi, vecSize, List.map_cons, List.sum_cons]
    omega
  omega

theorem vecSize_drop {α : Type} [ByteLen α] (l : List α) (i : Nat) :
    vecSize (l.drop i) ≤ vecSize l := by
  have happ := vecSize_append (l.take i) (l.drop i)
  rw [List.take_append_drop] at happ
  have hpos : 8 ≤ vecSize (l.take i) := Nat.le_add_right _ _
  omega

/-- The size of a vector in which a byte string stands. -/
theorem vecSize_of_getElem? {α : Type} [ByteLen α] {l : List α} {i : Nat} {a : α}
    (h : l[i]? = some a) : 16 + byteLen a ≤ vecSize l := by
  obtain ⟨hi, rfl⟩ := List.getElem?_eq_some_iff.1 h
  have hdrop := vecSize_drop l i
  rw [List.drop_eq_getElem_cons hi, vecSize, List.map_cons, List.sum_cons] at hdrop
  omega

theorem fits_newInternal : (newInternal : Node K V).Fits := by
  show 4 + vecSize ([] : List K) + (8 + 4 * 0) + vecSize ([] : List V) + (1 + 0) ≤ 4096 - 4
  simp only [vecSize, List.map_nil, List.sum_nil]
  omega

end Size

section Leaf

variable [LinearOrder K] {n : Node K V}

theorem LeafShape.canSplit (h : n.LeafShape) : n.canSplit := by
  have := h.length_eq
  simp only [Node.canSplit, h.isLeaf, mid]
  exact decide_eq_true (by omega)

theorem LeafShape.splitLeft_eq (h : n.LeafShape) (newId : Nat) :
    n.splitLeft newId =
      ⟨.leaf, n.keys.take n.mid, [], n.values.take n.mid, some newId⟩ := by
  rw [Node.splitLeft, h.isLeaf, h.children_eq]

theorem LeafShape.splitRight_eq (h : n.LeafShape) :
    n.splitRight = ⟨.leaf, n.keys.drop n.mid, [], n.values.drop n.mid, n.nextLeaf⟩ := by
  rw [Node.splitRight, h.isLeaf]

theorem LeafShape.splitLeft (h : n.LeafShape) (newId : Nat) : (n.splitLeft newId).LeafShape := by
  rw [h.splitLeft_eq]
  exact ⟨rfl, rfl, by simp only [List.length_take, h.length_eq],
    h.sorted.sublist (List.take_sublist _ _)⟩

theorem LeafShape.splitRight (h : n.LeafShape) : n.splitRight.LeafShape := by
  rw [h.splitRight_eq]
  exact ⟨rfl, rfl, by simp only [List.length_drop, h.length_eq],
    h.sorted.sublist (List.drop_sublist _ _)⟩

/-- The halves of a leaf that fits its page fit theirs. A leaf that is the last one has no link, and
the half that gets one has lost a binding. -/
theorem LeafShape.fits_split [ByteLen K] [ByteLen V] (h : n.LeafShape) (hn : n.Fits) {m : K}
    (hm : n.midKey? = some m) (newId : Nat) : (n.splitLeft newId).Fits ∧ n.splitRight.Fits := by
  have hlt : n.mid < n.keys.length := (List.getElem?_eq_some_iff.1 hm).1
  have hkeys := vecSize_take n.keys n.mid
  have hvals := vecSize_take n.values n.mid
  have hkeys' := vecSize_drop n.keys n.mid
  have hvals' := vecSize_drop n.values n.mid
  rw [h.splitLeft_eq, h.splitRight_eq]
  simp only [Fits, serializedSize, h.children_eq, List.length_nil, Option.isSome_some, if_true]
    at hn ⊢
  constructor
  · have := hkeys.2 hlt
    have := hvals.1
    omega
  · omega

/-- The halves of a leaf hold its bindings in order, the upper one starting at the middle key. -/
theorem LeafShape.entries_split (h : n.LeafShape) {m : K} (hm : n.midKey? = some m)
    (newId : Nat) : ∃ v rest, n.splitRight.entries = (m, v) :: rest ∧
      n.entries = (n.splitLeft newId).entries ++ (m, v) :: rest := by
  obtain ⟨hlt, hkey⟩ := List.getElem?_eq_some_iff.1 hm
  have hlt' : n.mid < n.values.length := h.length_eq ▸ hlt
  have hright : n.splitRight.entries =
      (m, n.values[n.mid]) :: (n.keys.drop (n.mid + 1)).zip (n.values.drop (n.mid + 1)) := by
    rw [h.splitRight_eq, entries, List.drop_eq_getElem_cons hlt, List.drop_eq_getElem_cons hlt',
      List.zip_cons_cons, hkey]
  refine ⟨_, _, hright, ?_⟩
  rw [← hright, h.splitLeft_eq, h.splitRight_eq, entries, entries, entries,
    ← List.zip_append (by simp only [List.length_take, h.length_eq]), List.take_append_drop,
    List.take_append_drop]

end Leaf

section Internal

variable {n : Node K V}

theorem InternalShape.canSplit (h : n.InternalShape) : n.canSplit := by
  have := h.length_eq
  simp only [Node.canSplit, h.isInternal, mid]
  exact decide_eq_true (by omega)

theorem InternalShape.splitLeft_eq (h : n.InternalShape) (newId : Nat) :
    n.splitLeft newId =
      ⟨.internal, n.keys.take n.mid, n.children.take (n.mid + 1), [], none⟩ := by
  rw [Node.splitLeft, h.isInternal, h.values_eq, h.nextLeaf_eq]

theorem InternalShape.splitRight_eq (h : n.InternalShape) :
    n.splitRight =
      ⟨.internal, n.keys.drop (n.mid + 1), n.children.drop (n.mid + 1), [], none⟩ := by
  rw [Node.splitRight, h.isInternal]

theorem InternalShape.splitLeft (h : n.InternalShape) {m : K} (hm : n.midKey? = some m)
    (newId : Nat) : (n.splitLeft newId).InternalShape := by
  have hlt := (List.getElem?_eq_some_iff.1 hm).1
  rw [h.splitLeft_eq]
  refine ⟨rfl, rfl, rfl, ?_⟩
  simp only [List.length_take, h.length_eq]
  omega

theorem InternalShape.splitRight (h : n.InternalShape) {m : K} (hm : n.midKey? = some m) :
    n.splitRight.InternalShape := by
  have hlt := (List.getElem?_eq_some_iff.1 hm).1
  rw [h.splitRight_eq]
  refine ⟨rfl, rfl, rfl, ?_⟩
  simp only [List.length_drop, h.length_eq]
  omega

/-- The halves of an internal node that fits its page fit theirs. -/
theorem InternalShape.fits_split [ByteLen K] [ByteLen V] (h : n.InternalShape) (hn : n.Fits)
    (newId : Nat) : (n.splitLeft newId).Fits ∧ n.splitRight.Fits := by
  have hkeys := (vecSize_take n.keys n.mid).1
  have hkeys' := vecSize_drop n.keys (n.mid + 1)
  rw [h.splitLeft_eq, h.splitRight_eq]
  simp only [Fits, serializedSize, h.values_eq, h.nextLeaf_eq, Option.isSome_none, List.length_take,
    List.length_drop] at hn ⊢
  constructor <;> omega

/-- A separator and the child to its right, put into an internal node. -/
theorem InternalShape.insert (h : n.InternalShape) {i : Nat} (hi : i ≤ n.keys.length) (m : K)
    (c : Nat) : InternalShape { n with
      keys := n.keys.insertIdx i m
      children := n.children.insertIdx (i + 1) c } := by
  refine ⟨h.isInternal, h.values_eq, h.nextLeaf_eq, ?_⟩
  have := h.length_eq
  show (n.children.insertIdx (i + 1) c).length = (n.keys.insertIdx i m).length + 1
  rw [List.length_insertIdx_of_le_length hi, List.length_insertIdx_of_le_length (by omega), this]

end Internal

end Node

/-- The pages that can be reached from a page through children. -/
def Below {K V : Type} (P : Nat → Node K V) : Nat → Nat → Prop :=
  Relation.ReflTransGen fun p c ↦ c ∈ (P p).children

/-- What can be reached from a child can be reached from its parent. -/
theorem Below.of_child {K V : Type} {P : Nat → Node K V} {p c q : Nat}
    (hc : c ∈ (P p).children) (h : Below P c q) : Below P p q := h.head hc

end KsSql
