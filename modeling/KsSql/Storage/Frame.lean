import KsSql.Storage.LeafWalk

/-!
# What the routines of the tree leave alone

Lookups and leaf walks read pages and nothing else, so their results depend on the page file only
(`getPages_congr`, `scanLeaves_congr`). An insertion leaves the memory tier alone and appends page
images to the queue (`insert_frame`). Soundness speaks of the page file only, and of the relation
that stored bindings satisfy, which may be weakened.
-/

namespace KsSql

open PageProgram

variable {K V : Type} [LinearOrder K]

namespace BPlusTree

/-! ### Reading -/

section

omit [LinearOrder K]

theorem readOnly_leftmostLeaf : ∀ fuel p : Nat, (leftmostLeaf fuel p : Program K V Nat).ReadOnly
  | 0, _ => trivial
  | fuel + 1, p => by
    rw [leftmostLeaf, readPage_bind]
    intro node
    dsimp only
    split
    · trivial
    · trivial
    · exact readOnly_leftmostLeaf fuel _

theorem readOnly_walkLeaves {ε β : Type} (visit : β → Nat → Node K V → Except ε β) :
    ∀ (fuel p : Nat) (acc : β), (walkLeaves visit fuel p acc).ReadOnly
  | 0, _, _ => trivial
  | fuel + 1, p, acc => by
    rw [walkLeaves, readPage_bind]
    intro node
    dsimp only
    split
    · trivial
    · split
      · trivial
      · split
        · trivial
        · exact readOnly_walkLeaves visit fuel _ _

end

theorem readOnly_getLoop (bs : BinarySearch K) (key : K) :
    ∀ fuel p : Nat, (getLoop bs key fuel p : Program K V (Option V)).ReadOnly
  | 0, _ => trivial
  | fuel + 1, p => by
    rw [getLoop, readPage_bind]
    intro node
    dsimp only
    split
    · split
      · split <;> trivial
      · trivial
    · split
      · exact readOnly_getLoop bs key fuel _
      · trivial

/-- A lookup below the memory tier depends on the page file only. -/
theorem getPages_congr_pages (bs : BinarySearch K) {t t' : BPlusTree K V}
    (hpages : t'.pager.pages = t.pager.pages) (hlength : t'.pager.fileLength = t.pager.fileLength)
    (key : K) : t'.getPages bs key = t.getPages bs key := by
  rw [getPages, getPages, fuel, hlength]
  exact ((pagerDevice K V).run_of_readOnly (readOnly_getLoop bs key _ _)).2 t' fun pid ↦
    congrFun hpages pid

theorem getPages_congr (bs : BinarySearch K) {t t' : BPlusTree K V} (h : t'.pager = t.pager)
    (key : K) : t'.getPages bs key = t.getPages bs key :=
  getPages_congr_pages bs (h ▸ rfl) (h ▸ rfl) key

omit [LinearOrder K] in
/-- A leaf walk depends on the page file only. -/
theorem scanLeaves_congr {ε β : Type} {t t' : BPlusTree K V} (h : t'.pager = t.pager)
    (visit : β → Nat → Node K V → Except ε β) (acc : β) :
    t'.scanLeaves visit acc = t.scanLeaves visit acc := by
  rw [scanLeaves, scanLeaves, fuel, h]
  exact ((pagerDevice K V).run_of_readOnly ((readOnly_leftmostLeaf _ _).bind fun _ ↦
    readOnly_walkLeaves visit _ _ _)).2 t' fun pid ↦ congrArg (fun p : Pager K V ↦ p.pages pid) h

omit [LinearOrder K] in
/-- The bindings on the leaf chain depend on the page file only. -/
theorem leafEntries_congr {t t' : BPlusTree K V} (h : t'.pager = t.pager) :
    t'.leafEntries = t.leafEntries := by
  rw [leafEntries, leafEntries, leafPages, leafPages, scanLeaves_congr h, h]

/-! ### Soundness -/

end BPlusTree

section

variable {R R' : K → V → Prop} {P : Nat → Node K V}

theorem LeafChain.mono (hR : ∀ k v, R k v → R' k v) {p : Nat} {l : List Nat}
    (h : LeafChain R P p l) : LeafChain R' P p l := by
  induction h with
  | last hok hnone => exact .last ⟨hok.shape, fun e he ↦ hR _ _ (hok.entries e he)⟩ hnone
  | next hok hsome hr hl ih =>
    exact .next ⟨hok.shape, fun e he ↦ hR _ _ (hok.entries e he)⟩ hsome hr ih

theorem WellFormed.mono (hR : ∀ k v, R k v → R' k v) :
    ∀ {h p : Nat}, WellFormed R P h p → WellFormed R' P h p
  | 0, _, ⟨l, hl⟩ => ⟨l, hl.mono hR⟩
  | _ + 1, _, h => ⟨h.1, fun c hc ↦ ⟨(h.2 c hc).1, (h.2 c hc).2.mono hR⟩⟩

end

namespace BPlusTree

variable {R R' : K → V → Prop} {t t' : BPlusTree K V}

/-- Soundness holds for weaker relations. -/
theorem Sound.mono (ht : Sound R t) (hR : ∀ k v, R k v → R' k v) : Sound R' t :=
  ⟨ht.sized, ht.root.imp fun _ h ↦ h.mono hR⟩

/-- Soundness depends on the page file only. -/
theorem Sound.congr (ht : Sound R t) (h : t'.pager = t.pager) : Sound R t' :=
  ⟨h ▸ ht.sized, by rw [h]; exact ht.root⟩

/-- An empty tree is sound. -/
theorem sound_openEmpty (tier : MemoryTier K V) : Sound R (openEmpty tier) := by
  have hlen : (openEmpty tier).pager.fileLength = pageSize := by
    simp only [openEmpty, Pager.writePage, rootPageId, Nat.zero_mul, ge_iff_le, le_refl, if_true,
      Nat.zero_add]
  have hcount : (openEmpty tier).pager.pageCount = 1 := by
    rw [Pager.pageCount, hlen]
    rfl
  have hroot : (openEmpty tier).pager.pages rootPageId = .newLeaf := rfl
  refine ⟨⟨by rw [hlen, hcount, Nat.one_mul], by rw [hcount]; exact Nat.one_pos,
    by rw [hcount]; exact Nat.le_add_left _ _, fun q hq ↦ ?_⟩, 0, [rootPageId], .last ?_ ?_⟩
  · rw [hcount] at hq
    exact Function.update_of_ne (Nat.one_le_iff_ne_zero.1 hq) _ _
  · rw [hroot]
    exact ⟨⟨rfl, rfl, rfl, List.Pairwise.nil⟩, fun e he ↦ absurd he List.not_mem_nil⟩
  · rw [hroot]
    rfl

/-! ### Insertions -/

variable [ByteLen K] [ByteLen V] (bs : BinarySearch K)

/-- What an insertion does besides changing pages: the memory tier stays, page images go to the
queue, and page ids are handed out. -/
structure Frame (t t' : BPlusTree K V) : Prop where
  memoryTier : t'.memoryTier = t.memoryTier
  handedOut : t.pager.handedOut.length ≤ t'.pager.handedOut.length
  wal : ∃ images : List (WalEntry K V), (∀ x ∈ images, ∃ pid n, x = .pageUpdate pid n) ∧
    t'.wal = { t.wal with queue := t.wal.queue ++ images, enqueued := t.wal.enqueued ++ images }

/-- An insertion leaves everything but the pages and the end of the queue alone. -/
theorem insert_frame (t : BPlusTree K V) (k : K) (v : V) : Frame t (t.insert bs k v).2 := by
  refine Device.run_invariant (D := pagerDevice K V) (I := Frame t) (fun pid n s h ↦ ?_)
    (fun pid n s s' hlog h ↦ ?_) (fun s h ↦ ?_) _ ?_
  · exact ⟨h.memoryTier, h.handedOut, h.wal⟩
  · change (s.wal.enqueue _).map _ = _ at hlog
    rw [Wal.enqueue] at hlog
    split at hlog
    · cases hlog
      obtain ⟨images, himages, hwal⟩ := h.wal
      refine ⟨h.memoryTier, h.handedOut, images ++ [.pageUpdate pid n], fun x hx ↦ ?_, ?_⟩
      · rcases List.mem_append.1 hx with hx | hx
        · exact himages x hx
        · exact ⟨pid, n, List.mem_singleton.1 hx⟩
      · rw [hwal, List.append_assoc, List.append_assoc]
    · cases hlog
  · refine ⟨h.memoryTier, h.handedOut.trans ?_, h.wal⟩
    simp only [pagerDevice, List.length_append]
    exact Nat.le_add_right _ _
  · exact ⟨rfl, le_rfl, [], fun x hx ↦ (List.not_mem_nil hx).elim, by simp only [List.append_nil]⟩

end BPlusTree

end KsSql
