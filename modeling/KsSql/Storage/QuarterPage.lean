import KsSql.Storage.QuietInsert

/-!
# The quarter of a page that stays free

A node is split when its encoding is longer than three quarters of a page, so a node that is not full
has room for an entry, or for a separator, of a quarter of a page (`roomFor_of_not_full`). A split halves
the number of entries, not their bytes, and `insert_non_full` goes on into a half without measuring it
again: a half that is itself still full may have no room (`not_insert_ok`).

For a tree that grew from entries that fit into the quarter, `insert_ok_iff_roomy` says exactly when an
insertion of another one is done: each half that it enters, and that is still full, has room for what is
put into it.
-/

namespace KsSql

open PageProgram BPlusTree

variable {K V : Type} [ByteLen K] [ByteLen V]

/-- An entry that fits into the quarter of a page that `is_full` keeps free. -/
def FitsQuarter (key : K) (value : V) : Prop := 16 + byteLen key + byteLen value ≤ 1020

instance (key : K) (value : V) : Decidable (FitsQuarter key value) := Nat.decLe _ _

/-- The keys in a node are those of entries that fit into the quarter. -/
def ShortKeys (n : Node K V) : Prop := ∀ key ∈ n.keys, byteLen key ≤ 1004

/-! ### Keys stay short -/

namespace ShortKeys

omit [ByteLen V]

variable {n : Node K V}

theorem splitLeft (h : ShortKeys n) (q : Nat) : ShortKeys (n.splitLeft q) := by
  intro key hkey
  rw [Node.splitLeft] at hkey
  split at hkey <;> exact h key (List.mem_of_mem_take hkey)

theorem splitRight (h : ShortKeys n) : ShortKeys n.splitRight := by
  intro key hkey
  rw [Node.splitRight] at hkey
  split at hkey <;> exact h key (List.mem_of_mem_drop hkey)

theorem midKey (h : ShortKeys n) {m : K} (hm : n.midKey? = some m) : byteLen m ≤ 1004 :=
  h m (List.mem_of_getElem? hm)

theorem insertIdx (h : ShortKeys n) {m : K} (hm : byteLen m ≤ 1004) (i : Nat) (children : List Nat)
    (values : List V) :
    ShortKeys { n with keys := n.keys.insertIdx i m, children := children, values := values } := by
  intro key hkey
  rcases List.eq_or_mem_of_mem_insertIdx hkey with rfl | hkey
  · exact hm
  · exact h key hkey

theorem newInternal : ShortKeys (.newInternal : Node K V) := fun _ h ↦ nomatch h

end ShortKeys

theorem maintains_saveNode_shortKeys {n : Node K V} (hn : ShortKeys n) (q : Nat) :
    (saveNode q n).Maintains ShortKeys fun _ ↦ True := by
  rw [saveNode, Node.toBytes]
  split
  · trivial
  · rename_i h
    split at h
    · cases h
    · cases h
      exact ⟨hn, hn, trivial⟩

theorem maintains_splitChild_shortKeys {parent : Node K V} (hparent : ShortKeys parent) (i c : Nat) :
    (splitChild parent i c).Maintains ShortKeys ShortKeys := by
  rw [splitChild, readPage_bind]
  intro child hchild
  dsimp only
  split
  · trivial
  · rename_i m hm
    refine maintains_require.bind fun _ _ ↦ ?_
    refine Maintains.bind (Q := fun _ ↦ True) (fun _ ↦ ⟨.newInternal, trivial⟩) fun newId _ ↦ ?_
    refine maintains_require.bind fun _ _ ↦ ?_
    refine (maintains_saveNode_shortKeys hchild.splitRight newId).bind fun _ _ ↦ ?_
    refine (maintains_saveNode_shortKeys (hchild.splitLeft newId) c).bind fun _ _ ↦ ?_
    exact hparent.insertIdx (hchild.midKey hm) i _ _

section Tree

variable [LinearOrder K] (bs : BinarySearch K) {key : K} {value : V}

theorem maintains_insertNonFull_shortKeys (hkey : byteLen key ≤ 1004) :
    ∀ (fuel q : Nat) {n : Node K V}, ShortKeys n →
      (insertNonFull bs fuel q n key value).Maintains ShortKeys fun _ ↦ True
  | 0, _, _, _ => trivial
  | fuel + 1, q, n, hn => by
    have ih := fun c (child : Node K V) ↦ maintains_insertNonFull_shortKeys hkey fuel c (n := child)
    rw [insertNonFull]
    split
    · rw [insertLeaf]
      split
      · refine maintains_require.bind fun _ _ ↦ maintains_saveNode_shortKeys ?_ q
        exact hn
      · exact maintains_require.bind fun _ _ ↦
          maintains_saveNode_shortKeys (hn.insertIdx hkey _ _ _) q
    · dsimp only
      split
      · trivial
      rename_i c _
      intro child hchild
      show (if child.isFull then _ else _ : Program K V Unit).Maintains _ _
      split
      · refine (maintains_splitChild_shortKeys hn _ c).bind fun n' hn' ↦ ?_
        split
        · trivial
        split
        · trivial
        · exact fun child' hchild' ↦ (ih _ child' hchild').bind fun _ _ ↦
            maintains_saveNode_shortKeys hn' q
      · exact (ih c child hchild).bind fun _ _ ↦ maintains_saveNode_shortKeys hn q

/-- **An insertion** of an entry with a short key leaves short keys only. -/
theorem shortKeys_insert {t : BPlusTree K V} (ht : ∀ q, ShortKeys (t.pager.pages q))
    (hkey : byteLen key ≤ 1004) : ∀ q, ShortKeys ((t.insert bs key value).2.pager.pages q) := by
  have hmaintains : (insertProgram bs t.fuel key value).Maintains ShortKeys fun _ ↦ True := by
    intro root hroot
    show (if root.isFull then _ else _ : Program K V Unit).Maintains _ _
    split
    · refine Maintains.bind (Q := fun _ ↦ True) ?_ fun _ _ root' hroot' ↦
        maintains_insertNonFull_shortKeys bs hkey t.fuel _ hroot'
      refine Maintains.bind (Q := fun _ ↦ True) (fun _ ↦ ⟨.newInternal, trivial⟩) fun oldRootId _ ↦ ?_
      refine (maintains_saveNode_shortKeys hroot _).bind fun _ _ ↦ ?_
      have hempty : ShortKeys ({ Node.newInternal with children := [oldRootId] } : Node K V) :=
        fun _ h ↦ absurd h List.not_mem_nil
      exact (maintains_splitChild_shortKeys hempty _ _).bind fun newRoot hnew ↦
        maintains_saveNode_shortKeys hnew _
    · exact maintains_insertNonFull_shortKeys bs hkey t.fuel _ hroot
  refine (Device.run_of_maintains (D := pagerDevice K V)
    (I := fun s : BPlusTree K V ↦ ∀ q, ShortKeys (s.pager.pages q))
    (fun q s hs ↦ hs q) (fun q n s hn hs r ↦ ?_) (fun q n s s' _ hlog hs ↦ ?_) (fun s hs ↦ hs)
    hmaintains ht).1
  · show ShortKeys (Function.update s.pager.pages q n r)
    by_cases hr : r = q
    · rw [hr, Function.update_self]
      exact hn
    · rw [Function.update_of_ne hr]
      exact hs r
  · rw [pager_of_log hlog]
    exact hs

/-! ### Sizes -/

namespace Node

theorem vecSize_insertIdx {α : Type} [ByteLen α] {l : List α} {i : Nat} (hi : i ≤ l.length) (a : α) :
    vecSize (l.insertIdx i a) = vecSize l + (8 + byteLen a) := by
  have hnew := vecSize_append (l.take i) (a :: l.drop i)
  have hold := vecSize_append (l.take i) (l.drop i)
  rw [List.take_append_drop] at hold
  have hcons : vecSize (a :: l.drop i) = vecSize (l.drop i) + (8 + byteLen a) := by
    simp only [vecSize, List.map_cons, List.sum_cons]
    omega
  rw [SortedAssoc.insertIdx_eq_take_append hi]
  omega

theorem vecSize_set_le {α : Type} [ByteLen α] (l : List α) (i : Nat) (a : α) :
    vecSize (l.set i a) ≤ vecSize l + byteLen a := by
  induction l generalizing i with
  | nil => exact Nat.le_add_right _ _
  | cons b l ih =>
    cases i with
    | zero =>
      rw [List.set_cons_zero]
      simp only [vecSize, List.map_cons, List.sum_cons]
      omega
    | succ i =>
      have hrest := ih i
      rw [List.set_cons_succ]
      simp only [vecSize, List.map_cons, List.sum_cons] at hrest ⊢
      omega

end Node

/-- A leaf with an entry put in, as the leaf case of `insert_non_full` saves it. -/
def withEntry (node : Node K V) (key : K) (value : V) : Node K V :=
  match bs.search node.keys key with
  | .ok idx => { node with values := node.values.set idx value }
  | .error idx =>
    { node with keys := node.keys.insertIdx idx key, values := node.values.insertIdx idx value }

/-- The entry takes no more than its own size. -/
theorem serializedSize_withEntry_le {node : Node K V} (hnode : node.LeafShape) (key : K) (value : V) :
    (withEntry bs node key value).serializedSize ≤
      node.serializedSize + (16 + byteLen key + byteLen value) := by
  rw [withEntry]
  split
  · rename_i idx _
    have hset := Node.vecSize_set_le node.values idx value
    simp only [Node.serializedSize]
    omega
  · rename_i idx hidx
    have hle := (bs.error_spec (hnode.sorted.imp le_of_lt) hidx).1
    have hkeys := Node.vecSize_insertIdx hle key
    have hvalues := Node.vecSize_insertIdx (hnode.length_eq ▸ hle) value
    simp only [Node.serializedSize]
    omega

omit [LinearOrder K] in
/-- A separator and a child take twelve bytes and the separator's own. -/
theorem serializedSize_withSeparator {node : Node K V} (hnode : node.InternalShape) {i : Nat}
    (hi : i ≤ node.keys.length) (m : K) (c : Nat) :
    ({ node with
        keys := node.keys.insertIdx i m
        children := node.children.insertIdx (i + 1) c } : Node K V).serializedSize =
      node.serializedSize + (12 + byteLen m) := by
  have hkeys := Node.vecSize_insertIdx hi m
  have hchildren : (node.children.insertIdx (i + 1) c).length = node.children.length + 1 :=
    List.length_insertIdx_of_le_length (by rw [hnode.length_eq]; omega) _
  simp only [Node.serializedSize, hkeys, hchildren]
  omega

/-! ### Room -/

/-- The node has room for what an insertion puts into it: a leaf for the entry, an internal node for the
separator that comes up when the child on the route is full. -/
def RoomFor (P : Nat → Node K V) (key : K) (value : V) (node : Node K V) : Prop :=
  match node.nodeType with
  | .leaf => (withEntry bs node key value).Fits
  | .internal =>
    match node.children[childIndex bs node key]? with
    | none => True
    | some c => (P c).isFull → ∀ m ∈ (P c).midKey?,
      node.serializedSize + (12 + byteLen m) ≤ pageSize - 4

/-- Each half that an insertion enters below a node, and that is still full, has room. -/
def RoomyBelow (P : Nat → Node K V) (key : K) (value : V) : Nat → Node K V → Prop
  | 0, _ => True
  | fuel + 1, node =>
    match node.nodeType with
    | .leaf => True
    | .internal =>
      match node.children[childIndex bs node key]? with
      | none => True
      | some c => SplitStep (fun _ _ ↦ True) key node.keys (P c) fun half ↦
        (half.isFull → RoomFor bs P key value half) ∧ RoomyBelow P key value fuel half

/-- The node is entered with room, and so are the halves below it. -/
def Enters (P : Nat → Node K V) (key : K) (value : V) (fuel : Nat) (node : Node K V) : Prop :=
  (node.isFull → RoomFor bs P key value node) ∧ RoomyBelow bs P key value fuel node

/-- Each half that an insertion enters, and that is still full, has room for what is put into it. A full
root is split first, under a new root with one separator. -/
def BPlusTree.Roomy (t : BPlusTree K V) (key : K) (value : V) : Prop :=
  let root := t.pager.pages rootPageId
  if root.isFull then
    match root.midKey? with
    | none => True
    | some m => SplitStep (fun _ _ ↦ True) key [m]
        (if m ≤ key then root.splitRight else root.splitLeft (t.pager.pageCount + 1))
        (Enters bs t.pager.pages key value t.pager.pageCount)
  else RoomyBelow bs t.pager.pages key value t.fuel root

instance (P : Nat → Node K V) (node : Node K V) : Decidable (RoomFor bs P key value node) :=
  match hn : node.nodeType with
  | .leaf => decidable_of_iff (withEntry bs node key value).Fits (by simp only [RoomFor, hn])
  | .internal =>
    match hc : node.children[childIndex bs node key]? with
    | none => .isTrue (by simp only [RoomFor, hn, hc])
    | some c => decidable_of_iff ((P c).isFull → ∀ m ∈ (P c).midKey?,
        node.serializedSize + (12 + byteLen m) ≤ pageSize - 4) (by simp only [RoomFor, hn, hc])

instance decidableRoomyBelow (P : Nat → Node K V) :
    ∀ fuel node, Decidable (RoomyBelow bs P key value fuel node)
  | 0, _ => .isTrue trivial
  | fuel + 1, node =>
    have : DecidablePred (RoomyBelow bs P key value fuel) := decidableRoomyBelow P fuel
    match hn : node.nodeType with
    | .leaf => .isTrue (by simp only [RoomyBelow, hn])
    | .internal =>
      match hc : node.children[childIndex bs node key]? with
      | none => .isTrue (by simp only [RoomyBelow, hn, hc])
      | some c => decidable_of_iff (SplitStep (fun _ _ ↦ True) key node.keys (P c) fun half ↦
          (half.isFull → RoomFor bs P key value half) ∧ RoomyBelow bs P key value fuel half)
          (by simp only [RoomyBelow, hn, hc])

instance (P : Nat → Node K V) (fuel : Nat) : DecidablePred (Enters bs P key value fuel) :=
  fun _ ↦ instDecidableAnd

instance (t : BPlusTree K V) : Decidable (t.Roomy bs key value) :=
  if hfull : (t.pager.pages rootPageId).isFull then
    match hm : (t.pager.pages rootPageId).midKey? with
    | none => .isTrue (by simp only [Roomy, if_pos hfull, hm])
    | some m => decidable_of_iff (SplitStep (fun _ _ ↦ True) key [m]
        (if m ≤ key then (t.pager.pages rootPageId).splitRight
          else (t.pager.pages rootPageId).splitLeft (t.pager.pageCount + 1))
        (Enters bs t.pager.pages key value t.pager.pageCount))
        (by simp only [Roomy, if_pos hfull, hm])
  else decidable_of_iff (RoomyBelow bs t.pager.pages key value t.fuel (t.pager.pages rootPageId))
    (by simp only [Roomy, if_neg hfull])

variable {bs}

/-- **A node that is not full has room.** -/
theorem roomFor_of_not_full {P : Nat → Node K V} (hshort : ∀ q, ShortKeys (P q))
    (hkv : FitsQuarter key value) {node : Node K V} (hleaf : node.nodeType = .leaf → node.LeafShape)
    (hfull : ¬ node.isFull) : RoomFor bs P key value node := by
  have hsize : node.serializedSize ≤ 3072 := by
    have := Nat.not_lt.1 (of_decide_eq_false (Bool.eq_false_iff.2 hfull))
    exact this
  rw [RoomFor]
  split
  · rename_i htype
    have hentry := serializedSize_withEntry_le bs (hleaf htype) key value
    rw [FitsQuarter] at hkv
    rw [Node.Fits, pageSize]
    omega
  · split
    · trivial
    · rename_i c _
      intro _ m hm
      have hmid := (hshort c).midKey hm
      rw [pageSize]
      omega

/-! ### Pages that a descent does not look at -/

theorem roomFor_congr {P P' : Nat → Node K V} {node : Node K V}
    (hP : ∀ c ∈ node.children, P' c = P c) :
    RoomFor bs P key value node ↔ RoomFor bs P' key value node := by
  rw [RoomFor, RoomFor]
  split
  · rfl
  · split
    · rfl
    · rename_i c hc
      rw [hP c (List.mem_of_getElem? hc)]

theorem splitStep_congr {separators : List K} {child : Node K V} {next next' : Node K V → Prop}
    (h : ∀ node, node = child ∨ node = child.splitRight ∨ node = child.splitLeft 0 →
      (next node ↔ next' node)) :
    SplitStep (fun _ _ ↦ True) key separators child next ↔
      SplitStep (fun _ _ ↦ True) key separators child next' :=
  ⟨fun hstep ↦ hstep.imp fun node hnode ↦ (h node hnode).1,
    fun hstep ↦ hstep.imp fun node hnode ↦ (h node hnode).2⟩

/-- What an insertion enters depends on the pages below the node only. -/
theorem enters_congr {P P' : Nat → Node K V} {fuel : Nat} : ∀ {node : Node K V},
    (∀ c ∈ node.children, ∀ q, Below P c q → P' q = P q) →
    (Enters bs P key value fuel node ↔ Enters bs P' key value fuel node) := by
  induction fuel with
  | zero =>
    intro node hnode
    rw [Enters, Enters, roomFor_congr fun c hc ↦ hnode c hc c .refl]
    rfl
  | succ fuel ih =>
    intro node hnode
    have hroom : RoomFor bs P key value node ↔ RoomFor bs P' key value node :=
      roomFor_congr fun c hc ↦ hnode c hc c .refl
    rw [Enters, Enters, hroom, RoomyBelow, RoomyBelow]
    refine and_congr_right fun _ ↦ ?_
    split
    · rfl
    · split
      · rfl
      · rename_i c hc
        have hpages := hnode c (List.mem_of_getElem? hc)
        rw [hpages c .refl]
        refine splitStep_congr fun half hhalf ↦ ih fun d hd q hq ↦ hpages q (.of_child ?_ hq)
        exact (nodeType_half (hhalf.imp_right (Or.imp_right fun e ↦ ⟨0, e⟩))).2 d hd

/-- The page id that a left half is linked to plays no part. -/
theorem enters_splitLeft {P : Nat → Node K V} {fuel : Nat} (node : Node K V) (q : Nat) :
    Enters bs P key value fuel (node.splitLeft 0) ↔ Enters bs P key value fuel (node.splitLeft q) := by
  rcases htype : node.nodeType with - | -
  · simp only [Node.splitLeft, htype]
  · have hbelow : ∀ q', RoomyBelow bs P key value fuel (node.splitLeft q') := by
      intro q'
      cases fuel with
      | zero => trivial
      | succ fuel => simp only [RoomyBelow, Node.splitLeft, htype]
    have hsize : (withEntry bs (node.splitLeft 0) key value).serializedSize =
        (withEntry bs (node.splitLeft q) key value).serializedSize := by
      simp only [withEntry, Node.splitLeft, htype]
      split <;> rfl
    have hfull : (node.splitLeft 0).isFull = (node.splitLeft q).isFull := by
      simp only [Node.isFull, Node.serializedSize, Node.splitLeft, htype]
      rfl
    have hroom : RoomFor bs P key value (node.splitLeft 0) ↔
        RoomFor bs P key value (node.splitLeft q) := by
      have hleaf : ∀ q', (node.splitLeft q').nodeType = .leaf := fun q' ↦ by
        simp only [Node.splitLeft, htype]
      rw [RoomFor, RoomFor, hleaf, hleaf, Node.Fits, Node.Fits, hsize]
    rw [Enters, Enters, hfull, hroom, and_iff_left (hbelow 0), and_iff_left (hbelow q)]

/-! ### The descent -/

/-- Pages that fit, with short keys. -/
structure SlimPages (P : Nat → Node K V) : Prop where
  short : ∀ q, ShortKeys (P q)
  fits : ∀ q, (P q).Fits

omit [LinearOrder K] in
theorem SlimPages.update {P : Nat → Node K V} (h : SlimPages P) {n : Node K V} (hshort : ShortKeys n)
    (hfits : n.Fits) (q : Nat) : SlimPages (Function.update P q n) := by
  refine ⟨fun r ↦ ?_, fun r ↦ ?_⟩ <;> by_cases hr : r = q
  · rw [hr, Function.update_self]
    exact hshort
  · rw [Function.update_of_ne hr]
    exact h.short r
  · rw [hr, Function.update_self]
    exact hfits
  · rw [Function.update_of_ne hr]
    exact h.fits r

section Descent

variable {R : K → V → Prop} {P : Nat → Node K V}

omit [ByteLen K] [ByteLen V] in
/-- A page below the root of a subtree is the root of one, no higher. -/
theorem WellFormed.of_below {h p q : Nat} (hp : WellFormed R P h p) (hq : Below P p q) :
    ∃ j ≤ h, WellFormed R P j q := by
  induction hq with
  | refl => exact ⟨h, le_rfl, hp⟩
  | tail _ hc ih =>
    obtain ⟨j, hj, hwell⟩ := ih
    cases j with
    | zero =>
      rw [hwell.leafOk.shape.children_eq] at hc
      cases hc
    | succ j => exact ⟨j, by omega, (hwell.2 _ hc).2⟩

omit [ByteLen K] [ByteLen V] in
/-- A split changes no page below the node that is split. -/
theorem splitPages_of_below {h n c d q : Nat} (hc : WellFormed R P h c) (hn : P n = .newInternal)
    (hd : d ∈ (P c).children) (hq : Below P d q) : splitPages P n c q = P q := by
  cases h with
  | zero =>
    rw [hc.leafOk.shape.children_eq] at hd
    cases hd
  | succ h =>
    obtain ⟨j, hj, hwell⟩ := (hc.2 d hd).2.of_below hq
    refine splitPages_of_ne (fun e ↦ ?_) fun e ↦ not_wellFormed_blank (e ▸ hn) hwell
    have := hc.height_unique (e ▸ hwell)
    omega

/-- The half that is entered after a split is the one that the comparison picks. -/
theorem enters_half {h n c fuel : Nat} (hc : WellFormed R P h c) (hn : P n = .newInternal) (m : K) :
    Enters bs (splitPages P n c) key value fuel (splitPages P n c (if m < key then n else c)) ↔
      Enters bs P key value fuel (if m < key then (P c).splitRight else (P c).splitLeft 0) := by
  have hne : n ≠ c := fun e ↦ not_wellFormed_blank (e ▸ hn) hc
  have hhalf : ∀ half : Node K V, (∀ d ∈ half.children, d ∈ (P c).children) →
      (Enters bs P key value fuel half ↔ Enters bs (splitPages P n c) key value fuel half) :=
    fun half hsub ↦ enters_congr fun d hd q hq ↦ splitPages_of_below hc hn (hsub d hd) hq
  rw [splitPages_half hne]
  split
  · exact (hhalf _ (nodeType_half (Or.inr (Or.inl rfl))).2).symm
  · rw [enters_splitLeft (P c) n]
    exact (hhalf _ (nodeType_half (Or.inr (Or.inr ⟨n, rfl⟩))).2).symm

omit [LinearOrder K] in
/-- Saving a node is done if the node fits, unless the queue refuses it. -/
theorem wp_saveNode_iff {t : BPlusTree K V} (ht : t.pager.Sized) {q : Nat} (hq : q < t.pager.pageCount)
    {n : Node K V} {C : Prop} (hC : C ↔ n.Fits) :
    (pagerDevice K V).wp PagesBelow (saveNode q n) (fun _ _ ↦ C)
      (fun e _ ↦ e = .walSaturated ∨ ¬ C) t := by
  by_cases hfits : n.Fits
  · exact Device.wp_of_gwp (G := onPages fun _ _ ↦ True) (gwp_saveNode ht hq n trivial
      (fun _ _ _ _ ↦ hC.2 hfits) fun e _ he ↦ Or.inl (he hfits))
  · have hfails : saveNode q n = .fail .nodeTooLarge := by
      rw [saveNode, Node.toBytes, if_pos (not_le.1 hfits)]
    rw [hfails]
    exact Device.wp_fail fun _ ↦ Or.inr fun h ↦ hfits (hC.1 h)

/-- The leaf case is done if the leaf fits with the entry in it. -/
theorem wp_insertLeaf_iff {t : BPlusTree K V} (ht : t.pager.Sized) {q : Nat}
    (hq : q < t.pager.pageCount) {node : Node K V} (hn : node.LeafShape) (key : K) (value : V) {C : Prop}
    (hC : C ↔ (withEntry bs node key value).Fits) :
    (pagerDevice K V).wp PagesBelow (insertLeaf bs q node key value) (fun _ _ ↦ C)
      (fun e _ ↦ e = .walSaturated ∨ ¬ C) t := by
  have hsorted : node.keys.Pairwise (· ≤ ·) := hn.sorted.imp le_of_lt
  have hlen := hn.length_eq
  rw [insertLeaf]
  rw [withEntry] at hC
  split
  · rename_i i hi
    rw [hi] at hC
    have hlt := bs.lt_length_of_ok hsorted hi
    exact Device.wp_bind guard_pagesBelow (Device.wp_require (by omega) fun _ ↦
      wp_saveNode_iff ht hq hC)
  · rename_i i hi
    rw [hi] at hC
    have hle := (bs.error_spec hsorted hi).1
    exact Device.wp_bind guard_pagesBelow (Device.wp_require (by omega) fun _ ↦
      wp_saveNode_iff ht hq hC)

/-- The pages after a split are slim. -/
theorem SlimPages.split (hP : SlimPages P) {h c n : Nat} {m : K} (hc : WellFormed R P h c)
    (hm : (P c).midKey? = some m) : SlimPages (splitPages P n c) := by
  obtain ⟨hleft, hright⟩ := hc.fits_split (hP.fits c) hm n
  exact (hP.update (hP.short c).splitRight hright n).update ((hP.short c).splitLeft n) hleft c

/-- What an insertion below a page does: it is done if it enters the page with room, unless the queue
refuses it. -/
def DoneIfRoomy (bs : BinarySearch K) (R : K → V → Prop) (key : K) (value : V) (fuel : Nat) : Prop :=
  ∀ {t : BPlusTree K V} {h q : Nat}, t.pager.Sized → WellFormed R t.pager.pages h q →
    SlimPages t.pager.pages → h < fuel →
    (pagerDevice K V).wp PagesBelow (insertNonFull bs fuel q (t.pager.pages q) key value)
      (fun _ _ ↦ Enters bs t.pager.pages key value fuel (t.pager.pages q))
      (fun e _ ↦ e = .walSaturated ∨
        ¬ Enters bs t.pager.pages key value fuel (t.pager.pages q)) t

/-- The descent into a child, and the write of the node after it. -/
theorem wp_descend_roomy (hR : R key value) {fuel : Nat} (ih : DoneIfRoomy bs R key value fuel)
    {t : BPlusTree K V} {h p d : Nat} {node : Node K V} {C : Prop} (ht : t.pager.Sized)
    (hp : p < t.pager.pageCount) (hd : WellFormed R t.pager.pages h d)
    (hslim : SlimPages t.pager.pages) (hfuel : h < fuel)
    (hC : C ↔ node.Fits ∧ Enters bs t.pager.pages key value fuel (t.pager.pages d)) :
    (pagerDevice K V).wp PagesBelow
      (insertNonFull bs fuel d (t.pager.pages d) key value >>= fun _ ↦ saveNode p node)
      (fun _ _ ↦ C) (fun e _ ↦ e = .walSaturated ∨ ¬ C) t := by
  refine Device.wp_bind guard_pagesBelow (Device.wp_mono
    (Device.wp_and (ih ht hd hslim hfuel) (wp_insertNonFull_extends bs hR ht hd hfuel))
    (fun _ t₁ _ h₁ ↦ ?_) fun e _ _ h₁ ↦ h₁.1.imp_right fun hno hyes ↦ hno (hC.1 hyes).2)
  obtain ⟨henters, hextends⟩ := h₁
  refine wp_saveNode_iff hextends.sized (hp.trans_le hextends.count_le) (hC.trans ?_)
  exact ⟨And.left, fun hfits ↦ ⟨hfits, henters⟩⟩

/-- A node of a tree is entered with room if it has room and the halves below it have. -/
theorem enters_iff {h p fuel : Nat} (hp : WellFormed R P h p) (hslim : SlimPages P)
    (hkv : FitsQuarter key value) :
    Enters bs P key value fuel (P p) ↔
      RoomFor bs P key value (P p) ∧ RoomyBelow bs P key value fuel (P p) := by
  have hleaf : (P p).nodeType = .leaf → (P p).LeafShape := fun htype ↦ by
    cases h with
    | zero => exact hp.leafOk.shape
    | succ h => exact absurd (htype.symm.trans hp.1.isInternal) nofun
  refine and_congr_left fun _ ↦ ⟨fun hroom ↦ ?_, fun hroom _ ↦ hroom⟩
  by_cases hfull : (P p).isFull
  · exact hroom hfull
  · exact roomFor_of_not_full hslim.short hkv hleaf hfull

/-- The descent into a full child: it is split, and one of the halves is descended into. -/
theorem wp_splitDescend_roomy (hR : R key value) {fuel : Nat} (ih : DoneIfRoomy bs R key value fuel)
    {t : BPlusTree K V} {h p i c : Nat} {m : K} {C : Prop} (ht : t.pager.Sized)
    (hp : WellFormed R t.pager.pages (h + 1) p) (hslim : SlimPages t.pager.pages) (hfuel : h < fuel)
    (hc : (t.pager.pages p).children[i]? = some c) (hfull : (t.pager.pages c).isFull)
    (hm : (t.pager.pages c).midKey? = some m)
    (hC : C ↔ (t.pager.pages p).serializedSize + (12 + byteLen m) ≤ pageSize - 4 ∧
      Enters bs t.pager.pages key value fuel
        (if m < key then (t.pager.pages c).splitRight else (t.pager.pages c).splitLeft 0)) :
    (pagerDevice K V).wp PagesBelow (do
        let node ← splitChild (t.pager.pages p) i c
        match node.keys[i]? with
        | none => .fail .panicked
        | some m =>
          match node.children[if m < key then i + 1 else i]? with
          | none => .fail .panicked
          | some childId => do
            let child ← readPage childId
            insertNonFull bs fuel childId child key value
            saveNode p node)
      (fun _ _ ↦ C) (fun e _ ↦ e = .walSaturated ∨ ¬ C) t := by
  have hlen := hp.1.length_eq
  have hilt := (List.getElem?_eq_some_iff.1 hc).1
  have hi : i ≤ (t.pager.pages p).keys.length := by omega
  have hwell := (hp.2 c (List.mem_of_getElem? hc)).2
  have hblank := ht.blank t.pager.pageCount le_rfl
  have hcan := (hwell.exists_midKey hfull).2
  obtain ⟨hpres, hnew⟩ := hwell.split hm hblank ht.pos.ne'
  have hhalves := hwell.fits_split (hslim.fits c) hm t.pager.pageCount
  refine Device.wp_bind guard_pagesBelow (Device.wp_of_gwp (G := onPages fun _ _ ↦ True)
    (gwp_splitChild ht (lt_pageCount_of_wellFormed ht hwell) hm hcan ⟨hi, by omega⟩
      ⟨trivial, trivial, trivial⟩ (fun t₁ ht₁ hpages₁ hcount₁ ↦ ?_)
      fun e _ _ he _ _ _ ↦ Or.inl (he ⟨hhalves.2, hhalves.1⟩)))
  obtain ⟨hkey, hnext⟩ := half_at (k := key) hp.1 m hi hc t.pager.pageCount
  simp only [hkey, hnext]
  have hwell₁ : WellFormed R t₁.pager.pages h (if m < key then t.pager.pageCount else c) := by
    rw [hpages₁]
    split
    · exact hnew
    · exact hpres _ _ hwell
  have hp₁ : p < t₁.pager.pageCount := by
    have := lt_pageCount_of_wellFormed ht hp
    omega
  rw [← splitPages] at hpages₁
  refine Device.wp_read (wp_descend_roomy hR ih ht₁ hp₁ hwell₁ ?_ hfuel (hC.trans ?_))
  · rw [hpages₁]
    exact hslim.split hwell hm
  · rw [Node.Fits, serializedSize_withSeparator hp.1 hi, hpages₁, enters_half hwell hblank]

/-- **Descent.** An insertion below a page is done if it enters the page with room, unless the queue
refuses it. -/
theorem doneIfRoomy (hkv : FitsQuarter key value) (hR : R key value) :
    ∀ fuel, DoneIfRoomy bs R key value fuel := by
  intro fuel
  induction fuel with
  | zero => exact fun _ _ _ h ↦ absurd h (Nat.not_lt_zero _)
  | succ fuel ih =>
    intro t h q ht hq hslim hfuel
    have henters : Enters bs t.pager.pages key value (fuel + 1) (t.pager.pages q) ↔ _ :=
      enters_iff hq hslim hkv
    cases h with
    | zero =>
      have hleaf := hq.leafOk.shape
      simp only [insertNonFull, hleaf.isLeaf]
      refine wp_insertLeaf_iff ht (lt_pageCount_of_wellFormed ht hq) hleaf key value
        (henters.trans ?_)
      simp only [RoomFor, RoomyBelow, hleaf.isLeaf, and_true]
    | succ h =>
      simp only [insertNonFull, hq.1.isInternal]
      have hlen := hq.1.length_eq
      have hi : childIndex bs (t.pager.pages q) key < (t.pager.pages q).children.length :=
        childIndex_lt bs (by omega) key
      have hchild := List.getElem?_eq_getElem hi
      simp only [RoomFor, RoomyBelow, hq.1.isInternal] at henters
      generalize childIndex bs (t.pager.pages q) key = i at hi hchild henters ⊢
      generalize (t.pager.pages q).children[i] = c at hchild
      have hc := (hq.2 c (List.mem_of_getElem? hchild)).2
      simp only [hchild] at henters ⊢
      refine Device.wp_read ?_
      show (pagerDevice K V).wp PagesBelow
        (if (t.pager.pages c).isFull then _ else _) _ _ t
      split
      · rename_i hfull
        obtain ⟨⟨m, hm⟩, -⟩ := hc.exists_midKey hfull
        refine wp_splitDescend_roomy hR ih ht hq hslim (by omega) hchild hfull hm (henters.trans ?_)
        rw [SplitStep, if_pos hfull, hm]
        simp only [hfull, forall_true_left, Option.mem_def, Option.some.injEq, forall_eq', true_and]
        rfl
      · rename_i hfull
        refine wp_descend_roomy hR ih ht (lt_pageCount_of_wellFormed ht hq) hc hslim (by omega)
          (henters.trans ?_)
        rw [SplitStep, if_neg hfull]
        exact and_congr_left fun _ ↦ iff_of_true (fun h ↦ absurd h hfull) (hslim.fits q)

/-! ### The root -/

omit [ByteLen K] [ByteLen V] in
/-- A root split changes no page below the root. -/
theorem rootSplitPages_of_below {h n d q : Nat} {m : K} (hroot : WellFormed R P h rootPageId)
    (hn : P n = .newInternal) (hn' : P (n + 1) = .newInternal) (hd : d ∈ (P rootPageId).children)
    (hq : Below P d q) : rootSplitPages P n m q = P q := by
  cases h with
  | zero =>
    rw [hroot.leafOk.shape.children_eq] at hd
    cases hd
  | succ h =>
    obtain ⟨j, hj, hwell⟩ := (hroot.2 d hd).2.of_below hq
    refine rootSplitPages_of_ne (fun e ↦ ?_) (fun e ↦ not_wellFormed_blank (e ▸ hn) hwell)
      fun e ↦ not_wellFormed_blank (e ▸ hn') hwell
    have := hroot.height_unique (e ▸ hwell)
    omega

/-- What is entered below a new root. -/
theorem enters_newRoot {h n fuel : Nat} {m : K} (hroot : WellFormed R P h rootPageId)
    (hn : P n = .newInternal) (hn' : P (n + 1) = .newInternal) (hm : byteLen m ≤ 1004) :
    Enters bs (rootSplitPages P n m) key value (fuel + 1) ⟨.internal, [m], [n, n + 1], [], none⟩ ↔
      SplitStep (fun _ _ ↦ True) key [m]
        (if m ≤ key then (P rootPageId).splitRight else (P rootPageId).splitLeft (n + 1))
        (Enters bs P key value fuel) := by
  have hn0 : n ≠ rootPageId := fun e ↦ not_wellFormed_blank (e ▸ hn) hroot
  have hnotFull : ¬ (⟨.internal, [m], [n, n + 1], [], none⟩ : Node K V).isFull := by
    simp only [Node.isFull, Node.serializedSize, Node.vecSize, pageSize, decide_eq_true_eq,
      List.map_cons, List.map_nil, List.sum_cons, List.sum_nil, List.length_cons, List.length_nil,
      Option.isSome_none, Bool.false_eq_true, if_false]
    omega
  -- what holds of a half of the old root, of its halves in turn, with the old pages
  have hstep : ∀ {child : Node K V},
      (child = (P rootPageId).splitRight ∨ ∃ q, child = (P rootPageId).splitLeft q) →
      (SplitStep (fun _ _ ↦ True) key [m] child (Enters bs (rootSplitPages P n m) key value fuel) ↔
        SplitStep (fun _ _ ↦ True) key [m] child (Enters bs P key value fuel)) := by
    intro child hchild
    have hsub := (nodeType_half (Or.inr hchild)).2
    refine splitStep_congr fun half hhalf ↦ (enters_congr fun d hd q hq ↦ ?_).symm
    have hsub' := (nodeType_half (hhalf.imp_right (Or.imp_right fun e ↦ ⟨0, e⟩))).2
    exact rootSplitPages_of_below hroot hn hn' (hsub d (hsub' d hd)) hq
  have hidx : childIndex bs (⟨.internal, [m], [n, n + 1], [], none⟩ : Node K V) key =
      if m ≤ key then 1 else 0 := childIndex_singleton rfl rfl
  rw [Enters, iff_true_intro (fun h ↦ absurd h hnotFull), true_and]
  simp only [RoomyBelow, hidx]
  by_cases hmk : m ≤ key
  · simp only [if_pos hmk]
    show SplitStep _ key [m] (rootSplitPages P n m (n + 1)) _ ↔ _
    rw [rootSplitPages_right]
    exact hstep (Or.inl rfl)
  · simp only [if_neg hmk]
    show SplitStep _ key [m] (rootSplitPages P n m n) _ ↔ _
    rw [rootSplitPages_left hn0]
    exact hstep (Or.inr ⟨_, rfl⟩)

/-- The pages after a root split are slim. -/
theorem SlimPages.rootSplit (hP : SlimPages P) {h n : Nat} {m : K}
    (hroot : WellFormed R P h rootPageId) (hn : P n = .newInternal)
    (hm : (P rootPageId).midKey? = some m) : SlimPages (rootSplitPages P n m) := by
  have hcopy := hP.update (hP.short rootPageId) (hP.fits rootPageId) n
  have hm' : (Function.update P n (P rootPageId) n).midKey? = some m := by
    rw [Function.update_self, hm]
  refine (hcopy.split (hroot.copy hn) hm').update (fun key hkey ↦ ?_)
    (hroot.fits_newRoot (hP.fits _) hm _ _) _
  obtain rfl := List.mem_singleton.1 hkey
  exact (hP.short rootPageId).midKey hm

end Descent

/-! ### Insertions -/

variable {t : BPlusTree K V} {tier : MemoryTier K V}

/-- **Every tree that grew from entries that fit into the quarter** is sound, and its pages fit and have
short keys. -/
theorem BPlusTree.Grown.slim (ht : t.Grown bs tier fun _ k v ↦ FitsQuarter k v) (hb : t.PagesBelow) :
    Sound (fun _ _ ↦ True) t ∧ SlimPages t.pager.pages := by
  obtain ⟨hsound, hfits⟩ := ht.sound (R := fun _ _ ↦ True) (fun _ _ _ _ ↦ trivial) hb
  refine ⟨hsound, fun q ↦ ?_, hfits⟩
  clear hsound hfits hb
  induction ht generalizing q with
  | empty =>
    show ShortKeys (Function.update (fun _ ↦ Node.newInternal) rootPageId Node.newLeaf q)
    by_cases hq : q = rootPageId
    · rw [hq, Function.update_self]
      exact fun _ h ↦ absurd h List.not_mem_nil
    · rw [Function.update_of_ne hq]
      exact .newInternal
  | insert k v _ hkv ih =>
    rw [FitsQuarter] at hkv
    exact shortKeys_insert bs ih (by omega) q
  | log wal _ ih => exact ih q

/-- **An insertion is done exactly if the halves that it enters have room**, for an entry that fits into
the quarter and a tree that grew from such entries, unless the queue refuses it. -/
theorem insert_ok_iff_roomy (ht : t.Grown bs tier fun _ k v ↦ FitsQuarter k v)
    (hkv : FitsQuarter key value) (hb : (t.insert bs key value).2.PagesBelow)
    (hqueue : (t.insert bs key value).1 ≠ .error .walSaturated) :
    (t.insert bs key value).1 = .ok () ↔ t.Roomy bs key value := by
  obtain ⟨hsound, hslim⟩ := ht.slim (guard_pagesBelow.run _ hb)
  obtain ⟨h, hroot⟩ := hsound.root
  have hheight : h < t.pager.pageCount := hroot.height_lt hsound.sized.blank
  have hwp : (pagerDevice K V).wp PagesBelow (insertProgram bs t.fuel key value)
      (fun _ _ ↦ t.Roomy bs key value)
      (fun e _ ↦ e = .walSaturated ∨ ¬ t.Roomy bs key value) t := by
    refine Device.wp_read ?_
    show (pagerDevice K V).wp PagesBelow
      (if (t.pager.pages rootPageId).isFull then _ else _) _ _ t
    split
    · rename_i hfull
      have hn := hsound.sized.blank t.pager.pageCount le_rfl
      have hn' := hsound.sized.blank (t.pager.pageCount + 1) (Nat.le_succ _)
      obtain ⟨⟨m, hm⟩, hcan⟩ := hroot.exists_midKey hfull
      have hmid := (hslim.short rootPageId).midKey hm
      refine Device.wp_bind guard_pagesBelow (Device.wp_of_gwp (G := onPages fun _ _ ↦ True)
        (gwp_splitRoot hsound.sized hroot hslim.fits hm hcan (fun _ _ _ _ ↦ trivial)
          (fun t₁ ht₁ hpages₁ _ ↦ ?_) fun _ _ _ _ ↦ Or.inl rfl))
      have hroomy : Enters bs t₁.pager.pages key value t.fuel (t₁.pager.pages rootPageId) ↔
          t.Roomy bs key value := by
        rw [hpages₁, rootSplitPages_root]
        refine (enters_newRoot hroot hn hn' hmid).trans ?_
        simp only [Roomy, if_pos hfull, hm]
        rfl
      have hwell₁ : WellFormed (fun _ _ ↦ True) t₁.pager.pages (h + 1) rootPageId :=
        hpages₁ ▸ wellFormed_rootSplit hroot hn hn' hm
      refine Device.wp_read (Device.wp_mono (doneIfRoomy hkv trivial t.fuel ht₁ hwell₁
        (hpages₁ ▸ hslim.rootSplit hroot hn hm) (Nat.succ_lt_succ hheight))
        (fun _ _ _ h₁ ↦ hroomy.1 h₁) fun _ _ _ h₁ ↦ h₁.imp_right fun hno hyes ↦ hno (hroomy.2 hyes))
    · rename_i hfull
      have hroomy : Enters bs t.pager.pages key value t.fuel (t.pager.pages rootPageId) ↔
          t.Roomy bs key value := by
        rw [Roomy, if_neg hfull, Enters, iff_true_intro (fun h ↦ absurd h hfull), true_and]
      exact Device.wp_mono (doneIfRoomy hkv trivial t.fuel hsound.sized hroot hslim
        (Nat.lt_succ_of_lt hheight)) (fun _ _ _ h₁ ↦ hroomy.1 h₁)
        fun _ _ _ h₁ ↦ h₁.imp_right fun hno hyes ↦ hno (hroomy.2 hyes)
  have hout := hwp hb
  rw [BPlusTree.insert] at hqueue ⊢
  rcases hrun : (pagerDevice K V).run (insertProgram bs t.fuel key value) t with ⟨e | u, t'⟩
  · rw [hrun] at hout hqueue
    refine iff_of_false (by rintro ⟨⟩) ?_
    rcases hout with rfl | hno
    · exact absurd rfl hqueue
    · exact hno
  · rw [hrun] at hout
    exact iff_of_true rfl hout

/-- A run of insertions of such entries grows a tree. -/
theorem grown_of_fitsQuarter {kvs : List (K × V)} : ∀ {t t' : BPlusTree K V},
    t.Grown bs tier (fun _ k v ↦ FitsQuarter k v) → (∀ kv ∈ kvs, FitsQuarter kv.1 kv.2) →
      t.insertAll bs kvs = .ok t' → t'.Grown bs tier fun _ k v ↦ FitsQuarter k v := by
  induction kvs with
  | nil => exact fun ht _ hrun ↦ Except.ok.inj hrun ▸ ht
  | cons kv kvs ih =>
    intro t t' ht hfits hrun
    have hnext := ht.insert kv.1 kv.2 (hfits kv List.mem_cons_self)
    rw [insertAll] at hrun
    rcases hins : t.insert bs kv.1 kv.2 with ⟨e | u, t₁⟩
    · rw [hins] at hrun
      cases hrun
    · rw [hins] at hrun hnext
      exact ih hnext (fun kv' hkv' ↦ hfits kv' (List.mem_cons_of_mem kv hkv')) hrun

end Tree

/-- Eight entries: the halves of the full leaf that holds the last five are split by their number, and
three of the five are a thousand bytes long. -/
def skewedLeaf : List (Bytes × Bytes) :=
  let long := List.replicate 1003 0
  [([10], long), ([50], long), ([60], long), ([51], []), ([52], []), ([50], []), ([70], long),
    ([80], long)]

/-- The right half of the leaf has room for a short entry. -/
theorem insert_ok_iff_roomy_skewedLeaf : ∃ t,
    (openEmpty (MemoryTier.new 1024)).insertAll .std skewedLeaf = .ok t ∧
      t.Roomy .std [90] [] ∧ ¬ t.Roomy .std [90] (List.replicate 1003 0) := by
  have hfacts : ((openEmpty (MemoryTier.new 1024)).insertAll .std skewedLeaf).toOption.map (fun t ↦
      decide ((t.insert .std [90] []).1 = .ok () ∧
        (t.insert .std [90] []).2.pager.handedOut.length < 2 ^ 32 ∧
        (t.insert .std [90] (List.replicate 1003 0)).1 = .error .nodeTooLarge ∧
        (t.insert .std [90] (List.replicate 1003 0)).2.pager.handedOut.length < 2 ^ 32)) =
      some true := by decide +kernel
  rcases hrun : (openEmpty (MemoryTier.new 1024)).insertAll .std skewedLeaf with e | t
  · rw [hrun] at hfacts
    cases hfacts
  rw [hrun] at hfacts
  obtain ⟨hshort, hb, hlong, hb'⟩ := of_decide_eq_true (Option.some.inj hfacts)
  have ht := grown_of_fitsQuarter .empty (by decide +kernel) hrun
  refine ⟨t, rfl, (insert_ok_iff_roomy ht (by decide +kernel) hb (hshort ▸ nofun)).1 hshort,
    fun hroomy ↦ ?_⟩
  have hok := (insert_ok_iff_roomy ht (by decide +kernel) hb' (hlong ▸ nofun)).2 hroomy
  cases hlong.symm.trans hok

/-- **An entry that fits into the quarter is refused.** -/
theorem not_insert_ok : ¬ ∀ (kvs : List (Bytes × Bytes)) (t : BPlusTree Bytes Bytes) (k v : Bytes),
    (∀ kv ∈ kvs, FitsQuarter kv.1 kv.2) →
    (openEmpty (MemoryTier.new 1024)).insertAll .std kvs = .ok t → FitsQuarter k v →
    (t.insert .std k v).1 ≠ .error .walSaturated → (t.insert .std k v).1 = .ok () := by
  have hfacts : ((openEmpty (MemoryTier.new 1024)).insertAll .std skewedLeaf).toOption.map (fun t ↦
      (t.insert .std [90] (List.replicate 1003 0)).1) = some (.error .nodeTooLarge) := by
    decide +kernel
  intro hclaim
  rcases hrun : (openEmpty (MemoryTier.new 1024)).insertAll .std skewedLeaf with e | t
  · rw [hrun] at hfacts
    cases hfacts
  rw [hrun] at hfacts
  have hrefused : (t.insert .std [90] (List.replicate 1003 0)).1 = .error .nodeTooLarge :=
    Option.some.inj hfacts
  have hok := hclaim skewedLeaf t [90] (List.replicate 1003 0) (by decide +kernel) hrun
    (by decide +kernel)
    (hrefused ▸ nofun)
  cases hrefused.symm.trans hok

end KsSql
