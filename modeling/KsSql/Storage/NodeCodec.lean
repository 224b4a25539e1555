import KsSql.Storage.Node
import KsSql.Util.WireFormat

/-!
# Nodes as pages

`Node::to_bytes` and `Node::from_bytes` on the bytes of a page: the bincode encoding of a node stands
behind four bytes for a checksum, with zeroes behind it. The encoding has the length that
`Node.serializedSize` computes (`length_encode`), so what `Node.toBytes` accepts is what fits
(`toBytes_isOk_iff`), and a page with an encoding on it decodes to the node, whatever its first four
bytes are (`fromBytes_of_encode`). A blank page decodes to the empty internal node.
-/

namespace KsSql

/-- A page: `[u8; PAGE_SIZE]`. -/
abbrev Page : Type := { b : Bytes // b.length = pageSize }

/-- `[0u8; PAGE_SIZE]` -/
def Page.blank : Page := ⟨List.replicate pageSize 0, List.length_replicate⟩

/-- The page ids in a node are `u32`s. -/
structure Node.U32Ids {K V : Type} (n : Node K V) : Prop where
  children : ∀ c ∈ n.children, c < 2 ^ 32
  nextLeaf : ∀ p ∈ n.nextLeaf, p < 2 ^ 32

namespace NodeCodec

/-- The encoding of a node's kind. -/
def encodeType : NodeType → Bytes
  | .internal => u32le 0
  | .leaf => u32le 1

/-- The decoder of a node's kind. -/
def decodeType : Decoder NodeType := fun l ↦ do
  let (tag, l) ← Decoder.word 4 l
  if tag = 0 then pure (.internal, l) else if tag = 1 then pure (.leaf, l) else none

/-- `bincode::serialize` of a node. -/
def encode (n : Node Bytes Bytes) : Bytes :=
  encodeType n.nodeType ++ (Encode.vec Encode.byteString n.keys ++ (Encode.vec u32le n.children ++
    (Encode.vec Encode.byteString n.values ++ Encode.option u32le n.nextLeaf)))

/-- `bincode::deserialize` of a node, which ignores what stands behind it. -/
def decode : Decoder (Node Bytes Bytes) := fun l ↦ do
  let (nodeType, l) ← decodeType l
  let (keys, l) ← Decoder.vec Decoder.byteString l
  let (children, l) ← Decoder.vec (Decoder.word 4) l
  let (values, l) ← Decoder.vec Decoder.byteString l
  let (nextLeaf, l) ← Decoder.option (Decoder.word 4) l
  pure (⟨nodeType, keys, children, values, nextLeaf⟩, l)

/-- Filled up with zeroes, an encoding takes a page. -/
theorem length_filled {encoded : Bytes} (h : ¬ encoded.length > pageSize - 4) :
    (List.replicate 4 0 ++
      (encoded ++ List.replicate (pageSize - 4 - encoded.length) 0)).length = pageSize := by
  simp only [List.length_append, List.length_replicate, pageSize] at h ⊢
  omega

/-- `Node::to_bytes` -/
def toBytes (n : Node Bytes Bytes) : Except StorageError Page :=
  let encoded := encode n
  if h : encoded.length > pageSize - 4 then .error .nodeTooLarge
  else .ok ⟨List.replicate 4 0 ++ (encoded ++ List.replicate (pageSize - 4 - encoded.length) 0),
    length_filled h⟩

/-- `Node::from_bytes` -/
def fromBytes (page : Page) : Option (Node Bytes Bytes) :=
  (decode (page.1.drop 4)).map Prod.fst

/-! ### Lengths -/

theorem length_vec_byteString (l : List Bytes) :
    (Encode.vec Encode.byteString l).length = Node.vecSize l := by
  rw [Encode.length_vec, Node.vecSize]
  simp only [Encode.length_byteString, byteLen_bytes]

theorem length_vec_u32le (l : List Nat) : (Encode.vec u32le l).length = 8 + 4 * l.length := by
  rw [Encode.length_vec]
  simp only [length_u32le, List.map_const', List.sum_replicate_nat]
  omega

theorem length_option_u32le (o : Option Nat) :
    (Encode.option u32le o).length = 1 + if o.isSome then 4 else 0 := by
  rcases o with - | a
  · rfl
  · show (u32le a).length + 1 = 1 + 4
    rw [length_u32le]

/-- **The length of an encoding** is the one computed by `serializedSize`. -/
theorem length_encode (n : Node Bytes Bytes) : (encode n).length = n.serializedSize := by
  have htype : (encodeType n.nodeType).length = 4 := by
    cases n.nodeType <;> rfl
  rw [encode, List.length_append, List.length_append, List.length_append, List.length_append, htype,
    length_vec_byteString, length_vec_u32le, length_vec_byteString, length_option_u32le,
    Node.serializedSize]
  omega

/-- `is_full` measures the encoding. -/
theorem isFull_iff (n : Node Bytes Bytes) : n.isFull ↔ 3072 < (encode n).length := by
  rw [length_encode, Node.isFull, decide_eq_true_iff]
  rfl

/-- `to_bytes` accepts what the model of the tree accepts. -/
theorem toBytes_isOk_iff (n : Node Bytes Bytes) : (∃ page, toBytes n = .ok page) ↔ n.Fits := by
  rw [Node.Fits, ← length_encode, toBytes]
  split <;> rename_i h
  · exact ⟨fun ⟨_, hpage⟩ ↦ (nomatch hpage), fun hle ↦ absurd h (Nat.not_lt.2 hle)⟩
  · exact ⟨fun _ ↦ Nat.not_lt.1 h, fun _ ↦ ⟨_, rfl⟩⟩

theorem length_le_vecSize (l : List Bytes) : l.length ≤ Node.vecSize l := by
  rw [Node.vecSize]
  induction l with
  | nil => exact Nat.zero_le _
  | cons b l ih =>
    rw [List.length_cons, List.map_cons, List.sum_cons]
    omega

/-! ### Reading an encoding back -/

theorem reads_decodeType (t : NodeType) : Reads decodeType (encodeType t) t := by
  intro rest
  cases t with
  | internal => rw [encodeType, decodeType, Reads.u32 (by norm_num)]; rfl
  | leaf => rw [encodeType, decodeType, Reads.u32 (by norm_num)]; rfl

/-- A vector of byte strings on a page is read back. -/
theorem reads_byteStrings {l : List Bytes} (h : Node.vecSize l < 2 ^ 64) :
    Reads (Decoder.vec Decoder.byteString) (Encode.vec Encode.byteString l) l := by
  refine Reads.vec ((length_le_vecSize l).trans_lt h) fun b hb ↦ Reads.byteString ?_
  obtain ⟨i, hi, rfl⟩ := List.mem_iff_getElem.1 hb
  have hsize := Node.vecSize_of_getElem? (List.getElem?_eq_getElem hi)
  rw [byteLen_bytes] at hsize
  omega

/-- **An encoding that fits a page is read back.** -/
theorem reads_decode {n : Node Bytes Bytes} (hids : n.U32Ids) (hfits : n.Fits) :
    Reads decode (encode n) n := by
  have hkeys : Node.vecSize n.keys < 2 ^ 64 := by
    rw [Node.Fits, Node.serializedSize, pageSize] at hfits; omega
  have hchildren : n.children.length < 2 ^ 64 := by
    rw [Node.Fits, Node.serializedSize, pageSize] at hfits; omega
  have hvalues : Node.vecSize n.values < 2 ^ 64 := by
    rw [Node.Fits, Node.serializedSize, pageSize] at hfits; omega
  intro rest
  simp only [encode, decode, List.append_assoc]
  rw [(reads_decodeType _).bind, (reads_byteStrings hkeys).bind,
    (Reads.vec hchildren fun c hc ↦ Reads.u32 (hids.children c hc)).bind,
    (reads_byteStrings hvalues).bind,
    (Reads.option fun p hp ↦ Reads.u32 (hids.nextLeaf p hp)).bind]
  rfl

/-- **A page decodes to the node on it**, whatever its checksum is. -/
theorem fromBytes_of_encode {n : Node Bytes Bytes} (hids : n.U32Ids) (hfits : n.Fits) {page : Page}
    {rest : Bytes} (hpage : page.1.drop 4 = encode n ++ rest) : fromBytes page = some n := by
  rw [fromBytes, hpage, reads_decode hids hfits]
  rfl

/-- What `to_bytes` puts behind the checksum. -/
theorem drop_toBytes {n : Node Bytes Bytes} {page : Page} (h : toBytes n = .ok page) :
    ∃ rest, page.1.drop 4 = encode n ++ rest := by
  rw [toBytes] at h
  split at h
  · cases h
  · obtain rfl := Except.ok.inj h
    exact ⟨_, List.drop_left' List.length_replicate⟩

/-- The page ids in a node that was decoded are `u32`s. -/
theorem u32Ids_of_fromBytes {n : Node Bytes Bytes} {page : Page} (h : fromBytes page = some n) :
    n.U32Ids := by
  rw [fromBytes] at h
  obtain ⟨⟨n', rest⟩, hdecode, rfl⟩ := Option.map_eq_some_iff.1 h
  rw [decode] at hdecode
  obtain ⟨⟨nodeType, l₁⟩, -, hdecode⟩ := Option.bind_eq_some_iff.1 hdecode
  obtain ⟨⟨keys, l₂⟩, -, hdecode⟩ := Option.bind_eq_some_iff.1 hdecode
  obtain ⟨⟨children, l₃⟩, hchildren, hdecode⟩ := Option.bind_eq_some_iff.1 hdecode
  obtain ⟨⟨values, l₄⟩, -, hdecode⟩ := Option.bind_eq_some_iff.1 hdecode
  obtain ⟨⟨nextLeaf, l₅⟩, hnext, hdecode⟩ := Option.bind_eq_some_iff.1 hdecode
  obtain ⟨rfl, -⟩ := Prod.ext_iff.1 (Option.some.inj hdecode)
  exact ⟨(Gives.word 4).vec _ _ _ hchildren, (Gives.word 4).option _ _ _ hnext⟩

theorem u32Ids_newInternal : (Node.newInternal : Node Bytes Bytes).U32Ids :=
  ⟨fun _ hc ↦ absurd hc List.not_mem_nil, fun _ hp ↦ absurd hp (Option.not_mem_none _)⟩

/-- The empty internal node is encoded by zeroes alone. -/
theorem toBytes_newInternal : toBytes .newInternal = .ok .blank := by
  have hencoded : encode .newInternal = List.replicate 29 0 := by decide
  simp only [toBytes, hencoded, List.length_replicate]
  rw [dif_neg (by decide)]
  refine congrArg Except.ok (Subtype.ext ?_)
  simp only [List.replicate_append_replicate]
  rfl

/-- A blank page is an empty internal node. -/
theorem fromBytes_blank : fromBytes .blank = some .newInternal := by decide +kernel

end NodeCodec

end KsSql
