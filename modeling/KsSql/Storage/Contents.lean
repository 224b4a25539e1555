import KsSql.Storage.Frame

/-!
# What pages hold

Whatever state the page file is in, a binding in a page was inserted into the tree at some time.
`Contents R` says so of one node: its bindings are in the relation `R`. A routine of the tree that
reads such pages only writes and logs such pages (`maintains_insertProgram`), so an insertion keeps all
pages so (`contents_insert`). Nothing is asked of the tree's shape or of the number of its pages.
-/

namespace KsSql

open PageProgram

namespace BPlusTree

variable {K V : Type} [LinearOrder K] {R : K → V → Prop}

/-- An internal node has no values, and a leaf has its bindings in order and in the relation `R`. -/
structure Contents (R : K → V → Prop) (n : Node K V) : Prop where
  values_eq : n.nodeType = .internal → n.values = []
  leafOk : n.nodeType = .leaf → LeafOk R n

namespace Contents

variable {n : Node K V}

theorem of_values (htype : n.nodeType = .internal) (h : n.values = []) : Contents R n :=
  ⟨fun _ ↦ h, fun hleaf ↦ absurd (htype.symm.trans hleaf) nofun⟩

theorem of_leafOk (h : LeafOk R n) : Contents R n :=
  ⟨fun htype ↦ absurd (htype.symm.trans h.shape.isLeaf) nofun, fun _ ↦ h⟩

theorem rel (h : Contents R n) : ∀ x ∈ n.entries, R x.1 x.2 := by
  intro x hx
  rcases htype : n.nodeType with - | -
  · rw [Node.entries, h.values_eq htype, List.zip_nil_right] at hx
    cases hx
  · exact (h.leafOk htype).entries x hx

theorem mono {R' : K → V → Prop} (h : Contents R n) (hR : ∀ k v, R k v → R' k v) : Contents R' n :=
  ⟨h.values_eq, fun htype ↦ ⟨(h.leafOk htype).shape,
    fun x hx ↦ hR _ _ ((h.leafOk htype).entries x hx)⟩⟩

theorem splitLeft (h : Contents R n) {m : K} (hm : n.midKey? = some m) (newId : Nat) :
    Contents R (n.splitLeft newId) := by
  rcases htype : n.nodeType with - | -
  · refine of_values ?_ ?_ <;> rw [Node.splitLeft, htype]
    exact h.values_eq htype
  · exact of_leafOk ((h.leafOk htype).splitLeft hm newId)

theorem splitRight (h : Contents R n) {m : K} (hm : n.midKey? = some m) :
    Contents R n.splitRight := by
  rcases htype : n.nodeType with - | -
  · refine of_values ?_ ?_ <;> rw [Node.splitRight, htype]
  · exact of_leafOk ((h.leafOk htype).splitRight hm)

end Contents

/-! ### The entries of the log -/

/-- The bindings in an entry of the log are in the relation `R`. -/
def EntryOk (R : K → V → Prop) : WalEntry K V → Prop
  | .recordUpdate key value => R key value
  | .pageUpdate _ n => Contents R n
  | _ => True

theorem EntryOk.mono {R' : K → V → Prop} {x : WalEntry K V} (h : EntryOk R x)
    (hR : ∀ k v, R k v → R' k v) : EntryOk R' x := by
  cases x with
  | recordUpdate key value => exact hR key value h
  | pageUpdate q n => exact Contents.mono h hR
  | _ => trivial

theorem contents_writePage {p : Pager K V} {n : Node K V} (q : Nat) (hn : Contents R n)
    (hp : ∀ r, Contents R (p.pages r)) : ∀ r, Contents R ((p.writePage q n).pages r) := by
  intro r
  show Contents R (Function.update p.pages q n r)
  by_cases hr : r = q
  · rw [hr, Function.update_self]
    exact hn
  · rw [Function.update_of_ne hr]
    exact hp r

theorem contents_newLeaf : Contents R (.newLeaf : Node K V) :=
  .of_leafOk ⟨⟨rfl, rfl, rfl, List.Pairwise.nil⟩, fun _ hx ↦ nomatch hx⟩

/-- When a tree is opened, pages and memory tier hold what the files say. -/
theorem contents_reopen {entries : List (WalEntry K V)} {pager : Pager K V} (limit : Nat)
    (timestamp : Nat → Int) (hentries : ∀ x ∈ entries, EntryOk R x)
    (hpages : ∀ q, Contents R (pager.pages q)) :
    (∀ q, Contents R ((reopen timestamp entries pager (MemoryTier.new limit)).pager.pages q)) ∧
      ∀ key value, (reopen timestamp entries pager (MemoryTier.new limit)).memoryTier.get key =
        some value → R key value := by
  let I := fun t : BPlusTree K V ↦ (∀ q, Contents R (t.pager.pages q)) ∧
    ∀ key value, t.memoryTier.get key = some value → R key value
  have hinit : I { pager := pager, memoryTier := MemoryTier.new limit } := by
    refine ⟨hpages, fun key value h ↦ ?_⟩
    change (MemoryTier.new limit : MemoryTier K V).get key = some value at h
    rw [MemoryTier.get_new] at h
    cases h
  show I (reopen timestamp entries pager (MemoryTier.new limit))
  have hroot : ∀ t, I t →
      I (if t.pager.numPages = 0 then { t with pager := t.pager.writePage rootPageId .newLeaf } else t) := by
    rintro t ⟨ht, htier⟩
    split
    · exact ⟨contents_writePage _ contents_newLeaf ht, htier⟩
    · exact ⟨ht, htier⟩
  refine hroot _ (List.foldlRecOn entries.zipIdx _ (motive := I) hinit ?_)
  · rintro t ⟨ht, htier⟩ ⟨x, n⟩ hx
    have hok := hentries x (List.fst_mem_of_mem_zipIdx hx)
    cases x with
    | pageUpdate q data => exact ⟨contents_writePage q hok ht, htier⟩
    | recordUpdate key data =>
      refine ⟨ht, fun k v hv ↦ ?_⟩
      rcases MemoryTier.get_insert_cases hv with ⟨rfl, rfl⟩ | ⟨-, hv⟩
      · exact hok
      · exact htier k v hv
    | _ => exact ⟨ht, htier⟩

/-- A routine that maintains contents keeps those of the pages, and enqueues such page images. -/
theorem run_contents {α : Type} {Q : α → Prop} {p : Program K V α}
    (hp : p.Maintains (Contents R) Q) {t : BPlusTree K V}
    (ht : ∀ q, Contents R (t.pager.pages q)) :
    ((∀ q, Contents R (((pagerDevice K V).run p t).2.pager.pages q)) ∧
      ∀ x ∈ ((pagerDevice K V).run p t).2.wal.enqueued,
        x ∈ t.wal.enqueued ∨ ∃ q n, x = .pageUpdate q n ∧ Contents R n) ∧
      ∀ a, ((pagerDevice K V).run p t).1 = .ok a → Q a := by
  refine Device.run_of_maintains (D := pagerDevice K V)
    (I := fun s ↦ (∀ q, Contents R (s.pager.pages q)) ∧
      ∀ x ∈ s.wal.enqueued, x ∈ t.wal.enqueued ∨ ∃ q n, x = .pageUpdate q n ∧ Contents R n)
    (fun q s hs ↦ hs.1 q) (fun q n s hn hs ↦ ⟨contents_writePage q hn hs.1, hs.2⟩)
    (fun q n s s' hn hlog hs ↦ ?_) (fun s hs ↦ hs) hp ⟨ht, fun _ hx ↦ Or.inl hx⟩
  · change (s.wal.enqueue (.pageUpdate q n)).map _ = _ at hlog
    rw [Wal.enqueue] at hlog
    split at hlog
    · cases hlog
      refine ⟨hs.1, fun x hx ↦ ?_⟩
      rcases List.mem_append.1 hx with hx | hx
      · exact hs.2 x hx
      · exact Or.inr ⟨q, n, List.mem_singleton.1 hx, hn⟩
    · cases hlog

/-! ### The routines -/

variable [ByteLen K] [ByteLen V]

theorem maintains_saveNode {n : Node K V} (hn : Contents R n) (q : Nat) :
    (saveNode q n).Maintains (Contents R) fun _ ↦ True := by
  rw [saveNode, Node.toBytes]
  split
  · trivial
  · rename_i h
    split at h
    · cases h
    · cases h
      exact ⟨hn, hn, trivial⟩

omit [ByteLen K] [ByteLen V] in
theorem maintains_allocatePage :
    (allocatePage : Program K V Nat).Maintains (Contents R) fun _ ↦ True :=
  fun _ ↦ ⟨.of_values rfl rfl, trivial⟩

theorem maintains_splitChild {parent : Node K V} (hparent : parent.values = [])
    (htype : parent.nodeType = .internal) (i c : Nat) :
    (splitChild parent i c).Maintains (Contents R) (Contents R) := by
  rw [splitChild, readPage_bind]
  intro child hchild
  dsimp only
  split
  · trivial
  · rename_i m hm
    refine maintains_require.bind fun _ _ ↦ maintains_allocatePage.bind fun newId _ ↦
      maintains_require.bind fun _ _ ↦ ?_
    refine (maintains_saveNode (hchild.splitRight hm) newId).bind fun _ _ ↦ ?_
    refine (maintains_saveNode (hchild.splitLeft hm newId) c).bind fun _ _ ↦ ?_
    exact .of_values htype hparent

variable (bs : BinarySearch K) {key : K} {value : V}

theorem maintains_insertLeaf (hkv : R key value) {n : Node K V} (hn : LeafOk R n) (q : Nat) :
    (insertLeaf bs q n key value).Maintains (Contents R) fun _ ↦ True := by
  have hsorted : n.keys.Pairwise (· ≤ ·) := hn.shape.sorted.imp le_of_lt
  have hupsert : ∀ n' : Node K V, n'.LeafShape ∧
      n'.entries = SortedAssoc.upsert key value n.entries → Contents R n' := by
    refine fun n' ⟨hshape, hentries⟩ ↦ .of_leafOk ⟨hshape, fun x hx ↦ ?_⟩
    rw [hentries] at hx
    rcases SortedAssoc.mem_upsert hx with rfl | hx
    · exact hkv
    · exact hn.entries x hx
  rw [insertLeaf]
  split
  · rename_i i hi
    exact maintains_require.bind fun _ _ ↦
      maintains_saveNode (hupsert _ (leafShape_set hn.shape value (bs.ok_spec hsorted hi))) q
  · rename_i i hi
    obtain ⟨hle, hlt, hgt⟩ := bs.error_spec hsorted hi
    exact maintains_require.bind fun _ _ ↦
      maintains_saveNode (hupsert _ (leafShape_insertIdx hn.shape value hle hlt hgt)) q

theorem maintains_insertNonFull (hkv : R key value) : ∀ (fuel q : Nat) {n : Node K V},
    Contents R n → (insertNonFull bs fuel q n key value).Maintains (Contents R) fun _ ↦ True
  | 0, _, _, _ => trivial
  | fuel + 1, q, n, hn => by
    have ih := fun c (child : Node K V) ↦ maintains_insertNonFull hkv fuel c (n := child)
    rw [insertNonFull]
    split
    · rename_i htype
      exact maintains_insertLeaf bs hkv (hn.leafOk htype) q
    · rename_i htype
      dsimp only
      split
      · trivial
      rename_i c _
      intro child hchild
      show (if child.isFull then _ else _ : Program K V Unit).Maintains _ _
      split
      · refine (maintains_splitChild (hn.values_eq htype) htype _ c).bind fun n' hn' ↦ ?_
        split
        · trivial
        split
        · trivial
        · exact fun child' hchild' ↦ (ih _ child' hchild').bind fun _ _ ↦ maintains_saveNode hn' q
      · exact (ih c child hchild).bind fun _ _ ↦ maintains_saveNode hn q

theorem maintains_insertProgram (hkv : R key value) (fuel : Nat) :
    (insertProgram bs fuel key value).Maintains (Contents R) fun _ ↦ True := by
  intro root hroot
  show (if root.isFull then _ else _ : Program K V Unit).Maintains _ _
  split
  · refine Maintains.bind (Q := fun _ ↦ True) ?_ fun _ _ root' hroot' ↦
      maintains_insertNonFull bs hkv fuel _ hroot'
    refine maintains_allocatePage.bind fun oldRootId _ ↦ (maintains_saveNode hroot _).bind fun _ _ ↦
      (maintains_splitChild rfl rfl _ _).bind fun newRoot hnew ↦ maintains_saveNode hnew _
  · exact maintains_insertNonFull bs hkv fuel _ hroot

/-- **An insertion** only writes bindings that were stored before, or its own, into pages and page
images. -/
theorem contents_insert {t : BPlusTree K V} (ht : ∀ q, Contents R (t.pager.pages q))
    (hkv : R key value) :
    (∀ q, Contents R ((t.insert bs key value).2.pager.pages q)) ∧
      ∀ x ∈ (t.insert bs key value).2.wal.enqueued,
        x ∈ t.wal.enqueued ∨ ∃ q n, x = .pageUpdate q n ∧ Contents R n :=
  (run_contents (maintains_insertProgram bs hkv t.fuel) ht).1

/-! ### Lookups -/

omit [ByteLen K] [ByteLen V] in
theorem maintains_getLoop (key : K) : ∀ fuel q : Nat,
    (getLoop bs key fuel q : Program K V (Option V)).Maintains (Contents R)
      fun found ↦ ∀ v, found = some v → R key v
  | 0, _ => trivial
  | fuel + 1, q => by
    have ih := maintains_getLoop key fuel
    rw [getLoop, readPage_bind]
    intro n hn
    dsimp only
    split
    · rename_i htype
      have hleaf := hn.leafOk htype
      split
      · rename_i i hi
        have hkey := bs.ok_spec (hleaf.shape.sorted.imp le_of_lt) hi
        split
        · rename_i v hv
          intro w hw
          cases hw
          exact hleaf.entries (key, v) (List.mem_of_getElem? (List.getElem?_zip_eq_some.2 ⟨hkey, hv⟩))
        · trivial
      · exact fun v hv ↦ nomatch hv
    · split
      · exact ih _
      · trivial

omit [ByteLen K] [ByteLen V] in
/-- What a lookup finds in the pages is stored there. -/
theorem getPages_rel {t : BPlusTree K V} (ht : ∀ q, Contents R (t.pager.pages q))
    (h : t.getPages bs key = .ok (some value)) : R key value :=
  (run_contents (maintains_getLoop bs key t.fuel rootPageId) ht).2 _ h value rfl

end BPlusTree

end KsSql
