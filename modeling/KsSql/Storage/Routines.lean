import KsSql.Storage.BTree
import KsSql.Util.PageTrace
import KsSql.Util.SortedAssoc
import Mathlib.Logic.Function.Basic

/-!
# The small routines of the tree

What `allocatePage`, `saveNode`, `splitChild` and `insertLeaf` do to the page file. Each has one
specification, as a rule for `Device.wp`, and the proofs about descents use these rules and never
open the routines.

`Pager.Sized` is what they rely on and keep: the file is a whole number of pages, and past its end
every page is blank, so that the page id handed out next belongs to no node. The page count is a
32-bit number in the source. `PagesBelow` bounds the number of pages ever handed out; as it can only
get lost along a run, an id is never reduced while it holds.
-/

namespace KsSql

open PageProgram

variable {K V : Type}

namespace Pager

/-- The number of pages in the file. -/
def pageCount (p : Pager K V) : Nat := p.fileLength / pageSize

/-- The file is a whole number of pages, at least the root's; no more pages than were handed out,
besides the root; and past the end all pages are blank. -/
structure Sized (p : Pager K V) : Prop where
  /-- The file has no partial page. -/
  aligned : p.fileLength = p.pageCount * pageSize
  /-- The root page is there. -/
  pos : 0 < p.pageCount
  /-- Every page but the root was handed out. -/
  handed : p.pageCount ≤ p.handedOut.length + 1
  /-- Past its end the file reads as blank pages. -/
  blank : ∀ q, p.pageCount ≤ q → p.pages q = .newInternal

/-- The page file only grows. -/
theorem fileLength_le_writePage (p : Pager K V) (q : Nat) (n : Node K V) :
    p.fileLength ≤ (p.writePage q n).fileLength := by
  rw [Pager.writePage]
  dsimp only
  split
  · omega
  · exact le_rfl

/-- Overwriting a page of the file keeps its length. -/
theorem Sized.writePage {p : Pager K V} (hp : p.Sized) {q : Nat} (hq : q < p.pageCount)
    (n : Node K V) :
    (p.writePage q n).Sized ∧ (p.writePage q n).pageCount = p.pageCount ∧
      (p.writePage q n).pages = Function.update p.pages q n := by
  have hlen : (p.writePage q n).fileLength = p.fileLength := by
    have h := hp.aligned
    have : ¬ q * pageSize ≥ p.fileLength := by
      rw [h, ge_iff_le, not_le]
      exact Nat.mul_lt_mul_of_pos_right hq (by decide)
    simp only [Pager.writePage, if_neg this]
  have hcount : (p.writePage q n).pageCount = p.pageCount := by
    rw [pageCount, hlen, pageCount]
  refine ⟨⟨by rw [hlen, hcount]; exact hp.aligned, hcount ▸ hp.pos, hcount ▸ hp.handed, ?_⟩,
    hcount, rfl⟩
  intro r hr
  rw [hcount] at hr
  exact (Function.update_of_ne (by omega) _ _).trans (hp.blank r hr)

/-- Writing a blank page at the end of the file makes it one page longer. -/
theorem Sized.extend {p : Pager K V} (hp : p.Sized) (hhanded : p.pageCount ≤ p.handedOut.length) :
    (p.writePage p.pageCount .newInternal).Sized ∧
      (p.writePage p.pageCount .newInternal).pageCount = p.pageCount + 1 ∧
      (p.writePage p.pageCount .newInternal).pages = p.pages := by
  have hlen : (p.writePage p.pageCount .newInternal).fileLength = (p.pageCount + 1) * pageSize := by
    have h := hp.aligned
    simp only [Pager.writePage, h, ge_iff_le, le_refl, if_true, Nat.add_mul, Nat.one_mul]
  have hcount : (p.writePage p.pageCount .newInternal).pageCount = p.pageCount + 1 := by
    rw [pageCount, hlen, Nat.mul_div_cancel _ (by decide)]
  have hpages : (p.writePage p.pageCount .newInternal).pages = p.pages := by
    rw [Pager.writePage, ← hp.blank p.pageCount le_rfl]
    exact Function.update_eq_self _ _
  refine ⟨⟨by rw [hlen, hcount], by omega, ?_, ?_⟩, hcount, hpages⟩
  · rw [hcount]
    exact Nat.succ_le_succ hhanded
  · intro r hr
    rw [hcount] at hr
    rw [hpages]
    exact hp.blank r (by omega)

end Pager

namespace BPlusTree

/-- Fewer than `2 ^ 32` pages were handed out. -/
def PagesBelow (t : BPlusTree K V) : Prop := t.pager.handedOut.length < 2 ^ 32

/-- The bound on pages can only get lost. -/
theorem guard_pagesBelow : (pagerDevice K V).Guard PagesBelow where
  write h := h
  log {pid n s t} hlog h := by
    change (s.wal.enqueue _).map _ = _ at hlog
    rcases hw : s.wal.enqueue (.pageUpdate pid n) with e | w
    · rw [hw] at hlog; cases hlog
    · rw [hw] at hlog; cases hlog; exact h
  numPages h := by
    rw [PagesBelow, pagerDevice, List.length_append] at h
    exact Nat.lt_of_le_of_lt (Nat.le_add_right _ _) h

/-- The ways in which a routine on a sound tree can fail. -/
def Refusal (e : StorageError) : Prop := e = .nodeTooLarge ∨ e = .walSaturated

/-- A guarantee that speaks of the pages before and after a write. -/
def onPages (G : (Nat → Node K V) → (Nat → Node K V) → Prop) (t t' : BPlusTree K V) : Prop :=
  G t.pager.pages t'.pager.pages

variable {F : StorageError → BPlusTree K V → Prop} {t : BPlusTree K V}
  {G : (Nat → Node K V) → (Nat → Node K V) → Prop}

/-- Appending to the log changes nothing but the log. -/
theorem pager_of_log {pid : Nat} {n : Node K V} {t t' : BPlusTree K V}
    (h : (pagerDevice K V).log pid n t = .ok t') : t'.pager = t.pager := by
  change (t.wal.enqueue _).map _ = _ at h
  rcases hw : t.wal.enqueue (.pageUpdate pid n) with e | w
  · rw [hw] at h; cases h
  · rw [hw] at h; cases h; rfl

/-- A new page is the one past the end. No page changes: the new one was blank already. -/
theorem gwp_allocatePage {Q : Nat → BPlusTree K V → Prop} (ht : t.pager.Sized)
    (hG : G t.pager.pages t.pager.pages)
    (hQ : ∀ t' : BPlusTree K V, t'.pager.Sized → t'.pager.pages = t.pager.pages →
      t'.pager.pageCount = t.pager.pageCount + 1 → Q t.pager.pageCount t') :
    (pagerDevice K V).gwp PagesBelow (onPages G) allocatePage Q F t := by
  refine Device.gwp_numPages (Device.gwp_of_bound guard_pagesBelow fun hbound ↦ ?_)
  have hhanded : t.pager.handedOut.length + 1 < 2 ^ 32 := by
    simpa [PagesBelow, pagerDevice] using hbound
  have hid : t.pager.numPages = t.pager.pageCount := by
    have := ht.handed
    exact Nat.mod_eq_of_lt (by rw [Pager.pageCount] at this; omega)
  have hsized : ((pagerDevice K V).numPages t).2.pager.Sized :=
    ⟨ht.aligned, ht.pos, by
      have := ht.handed
      simp only [pagerDevice, List.length_append, List.length_singleton]
      exact Nat.le_succ_of_le this, ht.blank⟩
  obtain ⟨hsized', hcount, hpages⟩ := hsized.extend (by
    simp only [pagerDevice, List.length_append, List.length_singleton]
    exact ht.handed)
  show (pagerDevice K V).gwp PagesBelow (onPages G)
    (.write t.pager.numPages _ (.done t.pager.numPages)) Q F _
  rw [hid]
  refine Device.gwp_write ?_ (Device.gwp_done fun _ ↦ hQ _ hsized' hpages hcount)
  rw [onPages]
  exact hpages.symm ▸ hG

theorem wp_allocatePage {Q : Nat → BPlusTree K V → Prop} (ht : t.pager.Sized)
    (hQ : ∀ t' : BPlusTree K V, t'.pager.Sized → t'.pager.pages = t.pager.pages →
      t'.pager.pageCount = t.pager.pageCount + 1 → Q t.pager.pageCount t') :
    (pagerDevice K V).wp PagesBelow allocatePage Q F t :=
  Device.wp_of_gwp (G := onPages fun _ _ ↦ True) (gwp_allocatePage ht trivial hQ)

section

variable [ByteLen K] [ByteLen V]

/-- Saving a node writes its page, or is refused and changes nothing: a node that does not fit, or
the image when the queue is full. -/
theorem gwp_saveNode {Q : Unit → BPlusTree K V → Prop} (ht : t.pager.Sized) {q : Nat}
    (hq : q < t.pager.pageCount) (n : Node K V)
    (hG : G t.pager.pages (Function.update t.pager.pages q n))
    (hQ : ∀ t' : BPlusTree K V, t'.pager.Sized →
      t'.pager.pages = Function.update t.pager.pages q n →
      t'.pager.pageCount = t.pager.pageCount → Q () t')
    (hF : ∀ e, Refusal e → (n.Fits → e = .walSaturated) → F e t) :
    (pagerDevice K V).gwp PagesBelow (onPages G) (saveNode q n) Q F t := by
  rw [saveNode, Node.toBytes]
  split
  · rename_i h
    split at h
    · rename_i hlarge
      cases h
      exact Device.gwp_fail fun _ ↦ hF _ (Or.inl rfl) fun hfits ↦ absurd hfits (not_le.2 hlarge)
    · cases h
  · rename_i h
    split at h
    · cases h
    · cases h
      refine Device.gwp_log (fun t' hlog ↦ ?_) fun e hlog _ ↦ ?_
      · have hpager := pager_of_log hlog
        obtain ⟨hsized, hcount, hpages⟩ := ht.writePage hq n
        refine Device.gwp_write ?_ (Device.gwp_done fun _ ↦ hQ _ ?_ ?_ ?_)
        · simp only [onPages, pagerDevice, hpager]
          exact hpages.symm ▸ hG
        all_goals simp only [pagerDevice, hpager]; assumption
      · have he : e = .walSaturated := by
          change (t.wal.enqueue _).map _ = _ at hlog
          rw [Wal.enqueue] at hlog
          split at hlog <;> cases hlog
          rfl
        exact hF e (Or.inr he) fun _ ↦ he

theorem wp_saveNode {Q : Unit → BPlusTree K V → Prop} (ht : t.pager.Sized) {q : Nat}
    (hq : q < t.pager.pageCount) (n : Node K V)
    (hQ : ∀ t' : BPlusTree K V, t'.pager.Sized →
      t'.pager.pages = Function.update t.pager.pages q n →
      t'.pager.pageCount = t.pager.pageCount → Q () t')
    (hF : ∀ e, Refusal e → F e t) :
    (pagerDevice K V).wp PagesBelow (saveNode q n) Q F t :=
  Device.wp_of_gwp (G := onPages fun _ _ ↦ True)
    (gwp_saveNode ht hq n trivial hQ fun e he _ ↦ hF e he)

/-- Splitting child `c`, whose middle key is `m`: its upper half goes to a new page, its lower half
stays. The parent gets the separator and the new child, in memory only. It can be refused before
either half is written, or between the two. -/
theorem gwp_splitChild {Q : Node K V → BPlusTree K V → Prop} (ht : t.pager.Sized)
    {parent : Node K V} {i c : Nat} {m : K} (hc : c < t.pager.pageCount)
    (hm : (t.pager.pages c).midKey? = some m)
    (hcan : (t.pager.pages c).canSplit)
    (hi : i ≤ parent.keys.length ∧ i + 1 ≤ parent.children.length)
    (hG : G t.pager.pages t.pager.pages ∧
      G t.pager.pages
        (Function.update t.pager.pages t.pager.pageCount (t.pager.pages c).splitRight) ∧
      G (Function.update t.pager.pages t.pager.pageCount (t.pager.pages c).splitRight)
        (Function.update
          (Function.update t.pager.pages t.pager.pageCount (t.pager.pages c).splitRight)
          c ((t.pager.pages c).splitLeft t.pager.pageCount)))
    (hQ : ∀ t' : BPlusTree K V, t'.pager.Sized →
      t'.pager.pages = Function.update
        (Function.update t.pager.pages t.pager.pageCount (t.pager.pages c).splitRight)
        c ((t.pager.pages c).splitLeft t.pager.pageCount) →
      t'.pager.pageCount = t.pager.pageCount + 1 →
      Q { parent with
          keys := parent.keys.insertIdx i m
          children := parent.children.insertIdx (i + 1) t.pager.pageCount } t')
    (hF : ∀ e (t' : BPlusTree K V), Refusal e →
      ((t.pager.pages c).splitRight.Fits ∧
        ((t.pager.pages c).splitLeft t.pager.pageCount).Fits → e = .walSaturated) →
      t'.pager.Sized → t'.pager.pageCount = t.pager.pageCount + 1 →
      t'.pager.pages = t.pager.pages ∨ t'.pager.pages =
        Function.update t.pager.pages t.pager.pageCount (t.pager.pages c).splitRight →
      F e t') :
    (pagerDevice K V).gwp PagesBelow (onPages G) (splitChild parent i c) Q F t := by
  have hmid : ((pagerDevice K V).read c t).midKey? = some m := hm
  rw [splitChild, readPage_bind]
  refine Device.gwp_read ?_
  simp only [hmid]
  refine Device.gwp_bind guard_pagesBelow (Device.gwp_require hcan fun _ ↦ ?_)
  refine Device.gwp_bind guard_pagesBelow (gwp_allocatePage ht hG.1 fun t₁ h₁ hpages₁ hcount₁ ↦ ?_)
  refine Device.gwp_bind guard_pagesBelow (Device.gwp_require hi fun _ ↦ ?_)
  refine Device.gwp_bind guard_pagesBelow (gwp_saveNode h₁ (by omega) _ ?_
    (fun t₂ h₂ hpages₂ hcount₂ ↦ ?_)
    fun e he hfits ↦ hF e t₁ he (fun h ↦ hfits h.1) h₁ hcount₁ (Or.inl hpages₁))
  · rw [hpages₁]
    exact hG.2.1
  rw [hpages₁] at hpages₂
  refine Device.gwp_bind guard_pagesBelow (gwp_saveNode h₂ (by omega) _ ?_
    (fun t₃ h₃ hpages₃ hcount₃ ↦ ?_)
    fun e he hfits ↦ hF e t₂ he (fun h ↦ hfits h.2) h₂ (by omega) (Or.inr hpages₂))
  · rw [hpages₂]
    exact hG.2.2
  rw [hpages₂] at hpages₃
  exact Device.gwp_done fun _ ↦ hQ t₃ h₃ hpages₃ (by omega)

theorem wp_splitChild {Q : Node K V → BPlusTree K V → Prop} (ht : t.pager.Sized)
    {parent : Node K V} {i c : Nat} {m : K} (hc : c < t.pager.pageCount)
    (hm : (t.pager.pages c).midKey? = some m)
    (hcan : (t.pager.pages c).canSplit)
    (hi : i ≤ parent.keys.length ∧ i + 1 ≤ parent.children.length)
    (hQ : ∀ t' : BPlusTree K V, t'.pager.Sized →
      t'.pager.pages = Function.update
        (Function.update t.pager.pages t.pager.pageCount (t.pager.pages c).splitRight)
        c ((t.pager.pages c).splitLeft t.pager.pageCount) →
      t'.pager.pageCount = t.pager.pageCount + 1 →
      Q { parent with
          keys := parent.keys.insertIdx i m
          children := parent.children.insertIdx (i + 1) t.pager.pageCount } t')
    (hF : ∀ e (t' : BPlusTree K V), Refusal e → t'.pager.Sized →
      t'.pager.pageCount = t.pager.pageCount + 1 →
      t'.pager.pages = t.pager.pages ∨ t'.pager.pages =
        Function.update t.pager.pages t.pager.pageCount (t.pager.pages c).splitRight →
      F e t') :
    (pagerDevice K V).wp PagesBelow (splitChild parent i c) Q F t :=
  Device.wp_of_gwp (G := onPages fun _ _ ↦ True)
    (gwp_splitChild ht hc hm hcan hi ⟨trivial, trivial, trivial⟩ hQ fun e t' he _ ↦ hF e t' he)

variable [LinearOrder K] (bs : BinarySearch K)

omit [ByteLen K] [ByteLen V] in
/-- The child a descent goes to is one of the node's children. -/
theorem childIndex_lt {node : Node K V} (h : 0 < node.children.length) (key : K) :
    childIndex bs node key < node.children.length := by
  rw [childIndex]
  split <;> split <;> omega

omit [ByteLen K] [ByteLen V] in
/-- A key that a leaf holds has its value replaced. -/
theorem leafShape_set {node : Node K V} (hn : node.LeafShape) {key : K} (value : V) {i : Nat}
    (hi : node.keys[i]? = some key) :
    ({ node with values := node.values.set i value }).LeafShape ∧
      ({ node with values := node.values.set i value }).entries =
        SortedAssoc.upsert key value node.entries :=
  ⟨⟨hn.isLeaf, hn.children_eq, by rw [List.length_set]; exact hn.length_eq, hn.sorted⟩,
    SortedAssoc.upsert_zip_set hn.length_eq hn.sorted hi⟩

omit [ByteLen K] [ByteLen V] in
/-- A key that a leaf lacks goes to its insertion point. -/
theorem leafShape_insertIdx {node : Node K V} (hn : node.LeafShape) {key : K} (value : V) {i : Nat}
    (hi : i ≤ node.keys.length) (hlt : ∀ x ∈ node.keys.take i, x < key)
    (hgt : ∀ x ∈ node.keys.drop i, key < x) :
    ({ node with keys := node.keys.insertIdx i key,
                 values := node.values.insertIdx i value }).LeafShape ∧
      ({ node with keys := node.keys.insertIdx i key,
                   values := node.values.insertIdx i value }).entries =
        SortedAssoc.upsert key value node.entries := by
  have hlen := hn.length_eq
  refine ⟨⟨hn.isLeaf, hn.children_eq, ?_, ?_⟩,
    SortedAssoc.upsert_zip_insertIdx hlen hi hlt hgt⟩
  · rw [List.length_insertIdx_of_le_length hi, List.length_insertIdx_of_le_length (hlen ▸ hi), hlen]
  · have hsorted := hn.sorted
    rw [← List.take_append_drop i node.keys, List.pairwise_append] at hsorted
    rw [SortedAssoc.insertIdx_eq_take_append hi, List.pairwise_append, List.pairwise_cons]
    refine ⟨hsorted.1, ⟨hgt, hsorted.2.1⟩, fun a ha b hb ↦ ?_⟩
    rcases List.mem_cons.1 hb with rfl | hb
    · exact hlt a ha
    · exact hsorted.2.2 a ha b hb

/-- The leaf case of an insertion writes one page: the leaf with the binding put in. -/
theorem gwp_insertLeaf {Q : Unit → BPlusTree K V → Prop} (ht : t.pager.Sized) {q : Nat}
    (hq : q < t.pager.pageCount) {node : Node K V} (hn : node.LeafShape) (key : K) (value : V)
    (hG : ∀ n' : Node K V, n'.LeafShape → n'.entries = SortedAssoc.upsert key value node.entries →
      n'.nextLeaf = node.nextLeaf → G t.pager.pages (Function.update t.pager.pages q n'))
    (hQ : ∀ (n' : Node K V) (t' : BPlusTree K V), n'.LeafShape →
      n'.entries = SortedAssoc.upsert key value node.entries → n'.nextLeaf = node.nextLeaf →
      t'.pager.Sized → t'.pager.pages = Function.update t.pager.pages q n' →
      t'.pager.pageCount = t.pager.pageCount → Q () t')
    (hF : ∀ e, Refusal e → F e t) :
    (pagerDevice K V).gwp PagesBelow (onPages G) (insertLeaf bs q node key value) Q F t := by
  have hsorted : node.keys.Pairwise (· ≤ ·) := hn.sorted.imp le_of_lt
  have hlen := hn.length_eq
  rw [insertLeaf]
  split
  · rename_i i h
    have hi := bs.ok_spec hsorted h
    have hlt := bs.lt_length_of_ok hsorted h
    obtain ⟨hshape, hentries⟩ := leafShape_set hn value hi
    exact Device.gwp_bind guard_pagesBelow (Device.gwp_require (by omega) fun _ ↦
      gwp_saveNode ht hq _ (hG _ hshape hentries rfl) (fun t' ↦ hQ _ t' hshape hentries rfl)
        fun e he _ ↦ hF e he)
  · rename_i i h
    obtain ⟨hi, hlt, hgt⟩ := bs.error_spec hsorted h
    obtain ⟨hshape, hentries⟩ := leafShape_insertIdx hn value hi hlt hgt
    exact Device.gwp_bind guard_pagesBelow (Device.gwp_require (by omega) fun _ ↦
      gwp_saveNode ht hq _ (hG _ hshape hentries rfl) (fun t' ↦ hQ _ t' hshape hentries rfl)
        fun e he _ ↦ hF e he)

theorem wp_insertLeaf {Q : Unit → BPlusTree K V → Prop} (ht : t.pager.Sized) {q : Nat}
    (hq : q < t.pager.pageCount) {node : Node K V} (hn : node.LeafShape) (key : K) (value : V)
    (hQ : ∀ (n' : Node K V) (t' : BPlusTree K V), n'.LeafShape →
      n'.entries = SortedAssoc.upsert key value node.entries → n'.nextLeaf = node.nextLeaf →
      t'.pager.Sized → t'.pager.pages = Function.update t.pager.pages q n' →
      t'.pager.pageCount = t.pager.pageCount → Q () t')
    (hF : ∀ e, Refusal e → F e t) :
    (pagerDevice K V).wp PagesBelow (insertLeaf bs q node key value) Q F t :=
  Device.wp_of_gwp (G := onPages fun _ _ ↦ True)
    (gwp_insertLeaf bs ht hq hn key value (fun _ _ _ _ ↦ trivial) hQ hF)

/-! ### What is written fits -/

omit [LinearOrder K] in
theorem writesOnly_saveNode (q : Nat) (n : Node K V) : (saveNode q n).WritesOnly Node.Fits := by
  rw [saveNode, Node.toBytes]
  split
  · trivial
  · rename_i h
    split at h
    · cases h
    · rename_i hfits
      cases h
      exact ⟨not_lt.1 hfits, trivial⟩

omit [LinearOrder K] in
theorem writesOnly_allocatePage : (allocatePage : Program K V Nat).WritesOnly Node.Fits :=
  fun _ ↦ ⟨Node.fits_newInternal, trivial⟩

omit [LinearOrder K] in
theorem writesOnly_splitChild (parent : Node K V) (i c : Nat) :
    (splitChild parent i c).WritesOnly Node.Fits := by
  rw [splitChild, readPage_bind]
  intro node
  dsimp only
  split
  · trivial
  · refine WritesOnly.bind .require fun _ ↦ writesOnly_allocatePage.bind fun _ ↦
      WritesOnly.bind .require fun _ ↦ (writesOnly_saveNode _ _).bind fun _ ↦
      (writesOnly_saveNode _ _).bind fun _ ↦ trivial

theorem writesOnly_insertNonFull (key : K) (value : V) : ∀ (fuel p : Nat) (node : Node K V),
    (insertNonFull bs fuel p node key value).WritesOnly Node.Fits
  | 0, _, _ => trivial
  | fuel + 1, p, node => by
    have ih := writesOnly_insertNonFull key value fuel
    rw [insertNonFull]
    split
    · rw [insertLeaf]
      split
      · exact WritesOnly.bind .require fun _ ↦ writesOnly_saveNode _ _
      · exact WritesOnly.bind .require fun _ ↦ writesOnly_saveNode _ _
    · dsimp only
      split
      · trivial
      · intro child
        show (if child.isFull then _ else _ : Program K V Unit).WritesOnly _
        split
        · refine (writesOnly_splitChild _ _ _).bind fun node' ↦ ?_
          split
          · trivial
          · split
            · trivial
            · exact fun child' ↦ (ih _ child').bind fun _ ↦ writesOnly_saveNode _ _
        · exact (ih _ child).bind fun _ ↦ writesOnly_saveNode _ _

theorem writesOnly_insertProgram (fuel : Nat) (key : K) (value : V) :
    (insertProgram bs fuel key value).WritesOnly Node.Fits := by
  intro root
  show (if root.isFull then _ else _ : Program K V Unit).WritesOnly _
  split
  · refine WritesOnly.bind ?_ fun _ root' ↦ writesOnly_insertNonFull bs key value fuel _ root'
    exact writesOnly_allocatePage.bind fun _ ↦ (writesOnly_saveNode _ _).bind fun _ ↦
      (writesOnly_splitChild _ _ _).bind fun _ ↦ writesOnly_saveNode _ _
  · exact writesOnly_insertNonFull bs key value fuel _ root

/-- All pages keep fitting. -/
theorem fits_insert {t : BPlusTree K V} (ht : ∀ q, (t.pager.pages q).Fits) (key : K) (value : V) :
    ∀ q, ((t.insert bs key value).2.pager.pages q).Fits := by
  refine Device.run_invariant_of_writesOnly (D := pagerDevice K V) (C := Node.Fits)
    (I := fun t ↦ ∀ q, (t.pager.pages q).Fits) (fun pid n s hn hs q ↦ ?_)
    (fun pid n s s' hlog hs ↦ (pager_of_log hlog).symm ▸ hs) (fun s hs ↦ hs)
    (writesOnly_insertProgram bs _ key value) ht
  show (Function.update s.pager.pages pid n q).Fits
  by_cases hq : q = pid
  · rw [hq, Function.update_self]
    exact hn
  · rw [Function.update_of_ne hq]
    exact hs q

end

end BPlusTree

end KsSql
