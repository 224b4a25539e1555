import KsSql.Storage.BTree
import KsSql.Storage.NodeCodec
import KsSql.Util.Crc32
import KsSql.Util.Effect

/-!
# The page file

`Pager` of `storage/pager.rs` on the bytes of its file. `write_page` puts the CRC-32 of a page's
contents in front of them, and `read_page` compares it with what it has read, unless the stored checksum
is zero, which stands for a page without one.

A node that was written is read back (`node_round_trip`), and the pager of the tree's model, whose pages
are nodes, is represented by this one, page by page (`Represents.writePage`). A change to one bit of a
stored page is detected, except where the contents happen to have the checksum zero
(`bit_flip_iff`, `not_bit_flip_detected`).
-/

namespace KsSql

/-- What `read_page` can fail with. -/
inductive PageError
  /-- `Short read` -/
  | shortRead
  /-- `Page {} checksum mismatch` -/
  | checksumMismatch (pageId : Nat)
  deriving DecidableEq, Repr

/-- `Pager` with the bytes of its file. -/
structure PageFile where
  /-- The contents of the file. -/
  file : Bytes := []
  /-- `file_length` -/
  fileLength : Nat := 0

namespace PageFile

/-- The pager behind `Pager::open` or a reload, once its thread has read the length of the file. -/
def opened (file : Bytes) : PageFile := { file := file, fileLength := file.length }

/-- `write_at`: a gap in front of the data is filled with zeroes. -/
def writeAt (file : Bytes) (offset : Nat) (data : Bytes) : Bytes :=
  (file ++ List.replicate (offset - file.length) 0).take offset ++
    (data ++ file.drop (offset + data.length))

/-- The pager's thread reads a page. Behind the end of the file a page is blank. -/
def readBlock (f : PageFile) (pageId : Nat) : Except PageError Page :=
  let buf := (f.file.drop (pageId * pageSize)).take pageSize
  if h : buf.length = pageSize then .ok ⟨buf, h⟩
  else if buf.length = 0 then .ok .blank
  else .error .shortRead

/-- `Pager::read_page` -/
def readPage (f : PageFile) (pageId : Nat) : Except PageError Page := do
  let page ← f.readBlock pageId
  let storedChecksum := ofLe (page.1.take 4)
  if storedChecksum ≠ 0 ∧ crc32 (page.1.drop 4) ≠ storedChecksum then
    .error (.checksumMismatch pageId)
  else pure page

/-- A page with its checksum. -/
def sealed (page : Page) : Page :=
  ⟨u32le (crc32 (page.1.drop 4)) ++ page.1.drop 4, by
    rw [List.length_append, length_u32le, List.length_drop, page.2, pageSize]⟩

/-- `Pager::write_page` -/
def writePage (f : PageFile) (pageId : Nat) (page : Page) : PageFile :=
  let offset := pageId * pageSize
  { file := writeAt f.file offset (sealed page).1
    fileLength := if offset ≥ f.fileLength then offset + pageSize else f.fileLength }

/-- `Pager::num_pages` -/
def numPages (f : PageFile) : Nat := f.fileLength / pageSize % 2 ^ 32

/-- `BPlusTree::allocate_page` -/
def allocatePage (f : PageFile) : Nat × PageFile := (f.numPages, f.writePage f.numPages .blank)

/-! ### Writing and reading back -/

variable {f : PageFile} {pageId : Nat} {page : Page}

theorem drop_sealed (page : Page) : (sealed page).1.drop 4 = page.1.drop 4 :=
  List.drop_left' (length_u32le _)

theorem checksum_sealed (page : Page) : ofLe ((sealed page).1.take 4) = crc32 (page.1.drop 4) := by
  rw [sealed, List.take_left' (length_u32le _), ofLe_u32le (crc32_lt _)]

theorem length_gap (file : Bytes) (offset : Nat) :
    ((file ++ List.replicate (offset - file.length) 0).take offset).length = offset := by
  rw [List.length_take, List.length_append, List.length_replicate]
  omega

theorem length_writeAt (file : Bytes) (offset : Nat) (data : Bytes) :
    (writeAt file offset data).length = max file.length (offset + data.length) := by
  rw [writeAt, List.length_append, length_gap, List.length_append, List.length_drop]
  omega

/-- What was written stands where it was written. -/
theorem read_writeAt (file : Bytes) (offset : Nat) (data : Bytes) :
    ((writeAt file offset data).drop offset).take data.length = data := by
  rw [writeAt, List.drop_left' (length_gap file offset), List.take_left' rfl]

theorem readBlock_writePage : (f.writePage pageId page).readBlock pageId = .ok (sealed page) := by
  have hread : ((f.writePage pageId page).file.drop (pageId * pageSize)).take pageSize =
      (sealed page).1 := by
    have := read_writeAt f.file (pageId * pageSize) (sealed page).1
    rwa [(sealed page).2] at this
  have hlength : (((f.writePage pageId page).file.drop (pageId * pageSize)).take pageSize).length =
      pageSize := by rw [hread, (sealed page).2]
  rw [readBlock, dif_pos hlength]
  exact congrArg Except.ok (Subtype.ext hread)

/-- **A page that was written is read back**, with its checksum. -/
theorem readPage_writePage : (f.writePage pageId page).readPage pageId = .ok (sealed page) := by
  rw [readPage, readBlock_writePage]
  show (if ofLe ((sealed page).1.take 4) ≠ 0 ∧
    crc32 ((sealed page).1.drop 4) ≠ ofLe ((sealed page).1.take 4) then _ else _) = _
  rw [checksum_sealed, drop_sealed, if_neg fun h ↦ h.2 rfl]
  rfl

/-- **The codec of nodes.** A node whose encoding fits behind a checksum is read back from the page it
was written to, any other is refused, and `is_full` says whether the encoding is longer than three
quarters of a page. -/
theorem node_round_trip (n : Node Bytes Bytes) (hids : n.U32Ids) (f : PageFile) (pageId : Nat) :
    ((NodeCodec.encode n).length ≤ 4092 → ∃ page stored, NodeCodec.toBytes n = .ok page ∧
      (f.writePage pageId page).readPage pageId = .ok stored ∧
        NodeCodec.fromBytes stored = some n) ∧
    (4092 < (NodeCodec.encode n).length → NodeCodec.toBytes n = .error .nodeTooLarge) ∧
    (n.isFull ↔ 3072 < (NodeCodec.encode n).length) := by
  refine ⟨fun hlength ↦ ?_, fun hlength ↦ dif_pos hlength, NodeCodec.isFull_iff n⟩
  have hfits : n.Fits := by rwa [Node.Fits, ← NodeCodec.length_encode]
  obtain ⟨page, hpage⟩ := (NodeCodec.toBytes_isOk_iff n).2 hfits
  obtain ⟨rest, hrest⟩ := NodeCodec.drop_toBytes hpage
  refine ⟨page, sealed page, hpage, readPage_writePage, ?_⟩
  exact NodeCodec.fromBytes_of_encode hids hfits ((drop_sealed page).trans hrest)

/-- A leaf with a link, read back from the third page of an empty file. -/
theorem node_round_trip_leaf : let n : Node Bytes Bytes := ⟨.leaf, [[1], [2, 3]], [], [[], [9]], some 7⟩
    ∃ page stored, NodeCodec.toBytes n = .ok page ∧
      ((opened []).writePage 2 page).readPage 2 = .ok stored ∧
        NodeCodec.fromBytes stored = some n := by
  refine (node_round_trip ⟨.leaf, [[1], [2, 3]], [], [[], [9]], some 7⟩ ⟨fun _ h ↦ (nomatch h), ?_⟩
    (opened []) 2).1 (by decide)
  intro p hp
  obtain rfl := Option.some.inj hp
  norm_num

/-! ### The pager whose pages are nodes -/

/-- Behind what was written the file is as before. -/
theorem drop_writeAt {file data : Bytes} {offset k : Nat} (h : offset + data.length ≤ k) :
    (writeAt file offset data).drop k = file.drop k := by
  have hk : k = offset + (data.length + (k - (offset + data.length))) := by omega
  conv_lhs => rw [hk]
  rw [writeAt, ← List.drop_drop, List.drop_left' (length_gap file offset), ← List.drop_drop,
    List.drop_left, List.drop_drop]
  congr 1
  omega

/-- A page in front of what was written is as before. -/
theorem readBlock_writeAt_of_le {file data : Bytes} {offset pageId len len' : Nat}
    (haligned : pageSize ∣ file.length) (h : (pageId + 1) * pageSize ≤ offset) :
    readBlock ⟨writeAt file offset data, len⟩ pageId = readBlock ⟨file, len'⟩ pageId := by
  rw [Nat.succ_mul] at h
  have hbefore : ((writeAt file offset data).drop (pageId * pageSize)).take pageSize =
      ((file ++ List.replicate (offset - file.length) 0).drop (pageId * pageSize)).take pageSize := by
    rw [List.take_drop, List.take_drop, writeAt,
      List.take_append_of_le_length (by rw [length_gap]; exact h), List.take_take,
      Nat.min_eq_left h]
  obtain ⟨m, hm⟩ := haligned
  rcases Nat.lt_or_ge pageId m with hlt | hge
  · -- the page lies inside the file
    have hinside : pageId * pageSize + pageSize ≤ file.length := by
      rw [hm, ← Nat.succ_mul, Nat.mul_comm pageSize m]
      exact Nat.mul_le_mul_right _ hlt
    have hsame : ((writeAt file offset data).drop (pageId * pageSize)).take pageSize =
        (file.drop (pageId * pageSize)).take pageSize := by
      rw [hbefore, List.take_drop, List.take_drop, List.take_append_of_le_length hinside]
    simp only [readBlock, hsame]
  · -- the page lies in the gap, or behind the end of the file as it was
    have hbehind : file.length ≤ pageId * pageSize := by
      rw [hm, Nat.mul_comm pageSize m]
      exact Nat.mul_le_mul_right _ hge
    have hzero : ((writeAt file offset data).drop (pageId * pageSize)).take pageSize =
        List.replicate pageSize 0 := by
      rw [hbefore, List.drop_append, List.drop_eq_nil_of_le hbehind, List.nil_append,
        List.drop_replicate, List.take_replicate, Nat.min_eq_left (by omega)]
    have hempty : (file.drop (pageId * pageSize)).take pageSize = [] := by
      rw [List.drop_eq_nil_of_le hbehind, List.take_nil]
    simp only [readBlock, hzero, hempty, List.length_replicate]
    rfl

/-- A write leaves every other page as it is. -/
theorem readPage_writePage_of_ne (haligned : pageSize ∣ f.file.length) {q : Nat} (h : q ≠ pageId) :
    (f.writePage pageId page).readPage q = f.readPage q := by
  have hblock : (f.writePage pageId page).readBlock q = f.readBlock q := by
    rcases Nat.lt_or_gt_of_ne h with hlt | hgt
    · exact readBlock_writeAt_of_le haligned (Nat.mul_le_mul_right _ hlt)
    · have hbehind : pageId * pageSize + (sealed page).1.length ≤ q * pageSize := by
        rw [(sealed page).2, ← Nat.succ_mul]
        exact Nat.mul_le_mul_right _ hgt
      simp only [readBlock, writePage, drop_writeAt hbehind]
  rw [readPage, readPage, hblock]

/-- The file holds the pages of a pager whose pages are nodes. -/
structure Represents (f : PageFile) (p : Pager Bytes Bytes) : Prop where
  aligned : pageSize ∣ f.file.length
  known : f.fileLength = f.file.length
  length_eq : p.fileLength = f.fileLength
  pages : ∀ pageId, ∃ page, f.readPage pageId = .ok page ∧
    NodeCodec.fromBytes page = some (p.pages pageId)

/-- An empty file has blank pages. -/
theorem represents_opened_nil : Represents (opened []) {} := by
  refine ⟨⟨0, rfl⟩, rfl, rfl, fun pageId ↦ ⟨.blank, ?_, NodeCodec.fromBytes_blank⟩⟩
  have hblock : (opened []).readBlock pageId = .ok .blank := by
    simp only [readBlock, opened, List.drop_nil, List.take_nil]
    rfl
  have hchecksum : ofLe (Page.blank.1.take 4) = 0 := by decide +kernel
  rw [readPage, hblock, Except.ok_bind]
  exact if_neg fun h ↦ h.1 hchecksum

/-- **Writing a node represents writing it.** -/
theorem Represents.writePage {p : Pager Bytes Bytes} (h : f.Represents p) {n : Node Bytes Bytes}
    (hids : n.U32Ids) (hpage : NodeCodec.toBytes n = .ok page) (pageId : Nat) :
    (f.writePage pageId page).Represents (p.writePage pageId n) := by
  have hlength : (f.writePage pageId page).file.length =
      max f.file.length (pageId * pageSize + pageSize) := by
    show (writeAt f.file (pageId * pageSize) (sealed page).1).length = _
    rw [length_writeAt, (sealed page).2]
  obtain ⟨m, hm⟩ := h.aligned
  refine ⟨?_, ?_, ?_, fun q ↦ ?_⟩
  · rw [hlength]
    rcases max_choice f.file.length (pageId * pageSize + pageSize) with hmax | hmax <;> rw [hmax]
    · exact h.aligned
    · exact ⟨pageId + 1, by rw [Nat.mul_comm pageSize, Nat.succ_mul]⟩
  · rw [hlength]
    show (if pageId * pageSize ≥ f.fileLength then pageId * pageSize + pageSize else f.fileLength) = _
    rw [h.known]
    split <;> rename_i hoffset
    · exact (max_eq_right (by omega)).symm
    · -- the page lies inside the file, which consists of whole pages
      have hlt : pageId < m := by
        rw [hm, Nat.mul_comm pageSize m] at hoffset
        exact Nat.lt_of_mul_lt_mul_right (Nat.not_le.1 hoffset)
      have hinside : pageId * pageSize + pageSize ≤ f.file.length := by
        rw [hm, ← Nat.succ_mul, Nat.mul_comm pageSize m]
        exact Nat.mul_le_mul_right _ hlt
      exact (max_eq_left hinside).symm
  · show (if pageId * pageSize ≥ p.fileLength then _ else _) =
      if pageId * pageSize ≥ f.fileLength then _ else _
    rw [h.length_eq]
  · by_cases hq : q = pageId
    · subst hq
      refine ⟨sealed page, readPage_writePage, ?_⟩
      obtain ⟨rest, hrest⟩ := NodeCodec.drop_toBytes hpage
      have hfits : n.Fits := (NodeCodec.toBytes_isOk_iff n).1 ⟨page, hpage⟩
      show NodeCodec.fromBytes (sealed page) = some (Function.update p.pages q n q)
      rw [Function.update_self]
      exact NodeCodec.fromBytes_of_encode hids hfits ((drop_sealed page).trans hrest)
    · obtain ⟨stored, hstored, hnode⟩ := h.pages q
      refine ⟨stored, (readPage_writePage_of_ne h.aligned hq).trans hstored, ?_⟩
      show NodeCodec.fromBytes stored = some (Function.update p.pages pageId n q)
      rw [Function.update_of_ne hq]
      exact hnode

/-- **Allocating a page represents asking for its id and writing a blank node.** -/
theorem Represents.allocatePage {p : Pager Bytes Bytes} (h : f.Represents p) :
    f.allocatePage.1 = p.numPages ∧
      f.allocatePage.2.Represents (p.writePage p.numPages .newInternal) := by
  have hid : f.numPages = p.numPages := by rw [numPages, Pager.numPages, h.length_eq]
  refine ⟨hid, ?_⟩
  rw [← hid]
  exact h.writePage NodeCodec.u32Ids_newInternal NodeCodec.toBytes_newInternal f.numPages

/-! ### One bit of a stored page -/

/-- Change a bit of the file. -/
def flipBit (f : PageFile) (i : Nat) (j : Fin 8) : PageFile :=
  { f with file := f.file.modify i (· ^^^ UInt8.ofNat (2 ^ j.val)) }

theorem flip_ne (b : UInt8) (j : Fin 8) : b ^^^ UInt8.ofNat (2 ^ j.val) ≠ b := by
  intro h
  have hzero : UInt8.ofNat (2 ^ j.val) = 0 := by
    have hself : b ^^^ UInt8.ofNat (2 ^ j.val) = b ^^^ 0 := by rw [h, UInt8.xor_zero]
    exact (UInt8.xor_right_inj b).1 hself
  exact absurd hzero ((by decide : ∀ j : Fin 8, UInt8.ofNat (2 ^ j.val) ≠ 0) j)

/-- A text with a bit changed is another one, and has another checksum. -/
theorem crc32_flip_ne {l : Bytes} {i : Nat} (hi : i < l.length) (j : Fin 8) :
    crc32 (l.modify i (· ^^^ UInt8.ofNat (2 ^ j.val))) ≠ crc32 l := by
  intro h
  rw [List.modify_eq_take_cons_drop hi] at h
  conv_rhs at h => rw [← List.take_append_drop i l, List.drop_eq_getElem_cons hi]
  exact flip_ne _ j ((crc32_exchange _ _).1 h)

variable (f pageId page) in
/-- The pager's thread reads the page with the bit changed. -/
theorem readBlock_flipBit (i : Fin pageSize) (j : Fin 8) :
    ∃ h, ((f.writePage pageId page).flipBit (pageId * pageSize + i) j).readBlock pageId =
      .ok ⟨(sealed page).1.modify i (· ^^^ UInt8.ofNat (2 ^ j.val)), h⟩ := by
  have hlength : ((sealed page).1.modify i (· ^^^ UInt8.ofNat (2 ^ j.val))).length = pageSize := by
    rw [List.length_modify, (sealed page).2]
  have hread : (((f.writePage pageId page).flipBit (pageId * pageSize + i) j).file.drop
      (pageId * pageSize)).take pageSize =
        (sealed page).1.modify i (· ^^^ UInt8.ofNat (2 ^ j.val)) := by
    have hstored := read_writeAt f.file (pageId * pageSize) (sealed page).1
    rw [(sealed page).2] at hstored
    show (((writeAt f.file (pageId * pageSize) (sealed page).1).modify _ _).drop _).take _ = _
    rw [List.drop_modify_of_ge _ _ _ _ (Nat.le_add_right _ _), Nat.add_sub_cancel_left,
      List.take_modify, hstored]
  refine ⟨hlength, ?_⟩
  rw [readBlock, dif_pos (by rw [hread]; exact hlength)]
  exact congrArg Except.ok (Subtype.ext hread)

variable (f pageId page) in
/-- The page with a bit of its contents changed, as it is read. -/
theorem readPage_flipBit {i : Fin pageSize} (hi : 4 ≤ i.val) (j : Fin 8) :
    ∃ changed : Page, changed.1.drop 4 =
        (page.1.drop 4).modify (i - 4) (· ^^^ UInt8.ofNat (2 ^ j.val)) ∧
      ((f.writePage pageId page).flipBit (pageId * pageSize + i) j).readPage pageId =
        if crc32 (page.1.drop 4) ≠ 0 then .error (.checksumMismatch pageId) else .ok changed := by
  obtain ⟨hlength, hblock⟩ := readBlock_flipBit f pageId page i j
  have hchecksum : ofLe (((sealed page).1.modify i (· ^^^ UInt8.ofNat (2 ^ j.val))).take 4) =
      crc32 (page.1.drop 4) := by
    rw [List.take_modify, List.modify_eq_self, checksum_sealed]
    exact (List.length_take_le _ _).trans hi
  have hcontents : ((sealed page).1.modify i (· ^^^ UInt8.ofNat (2 ^ j.val))).drop 4 =
      (page.1.drop 4).modify (i - 4) (· ^^^ UInt8.ofNat (2 ^ j.val)) := by
    rw [List.drop_modify_of_ge _ _ _ _ hi, drop_sealed]
  have hinside : i.val - 4 < (page.1.drop 4).length := by
    rw [List.length_drop, page.2]
    omega
  have hdiffers := crc32_flip_ne hinside j
  refine ⟨⟨_, hlength⟩, hcontents, ?_⟩
  rw [readPage, hblock, Except.ok_bind]
  dsimp only
  rw [hchecksum, hcontents]
  by_cases hzero : crc32 (page.1.drop 4) = 0
  · rw [if_neg fun h ↦ h.1 hzero, if_neg (not_not_intro hzero)]
    rfl
  · rw [if_pos ⟨hzero, hdiffers⟩, if_pos hzero]

/-- A page whose checksum has a bit changed is refused, or read with its contents as they are. -/
theorem readPage_flipBit_checksum {i : Fin pageSize} (hi : i.val < 4) (j : Fin 8) {stored : Page}
    (hstored : ((f.writePage pageId page).flipBit (pageId * pageSize + i) j).readPage pageId =
      .ok stored) : stored.1.drop 4 = page.1.drop 4 := by
  obtain ⟨hlength, hblock⟩ := readBlock_flipBit f pageId page i j
  rw [readPage, hblock, Except.ok_bind] at hstored
  dsimp only at hstored
  split at hstored
  · cases hstored
  · obtain rfl := Except.ok.inj hstored
    exact (List.drop_modify_of_lt _ _ _ _ hi).trans (drop_sealed page)

/-- **A change to one bit of a stored page is detected, or leaves the contents as they are, except
where the checksum of the contents is zero** and the bit is one of theirs. -/
theorem bit_flip_iff (f : PageFile) (pageId : Nat) (page : Page) (i : Fin pageSize) (j : Fin 8) :
    (∀ stored, ((f.writePage pageId page).flipBit (pageId * pageSize + i) j).readPage pageId =
      .ok stored → stored.1.drop 4 = page.1.drop 4) ↔ i.val < 4 ∨ crc32 (page.1.drop 4) ≠ 0 := by
  rcases Nat.lt_or_ge i.val 4 with hi | hi
  · exact iff_of_true (fun _ ↦ readPage_flipBit_checksum hi j) (Or.inl hi)
  · obtain ⟨changed, hcontents, hread⟩ :=
      readPage_flipBit f pageId page hi j
    rw [hread]
    by_cases hzero : crc32 (page.1.drop 4) = 0
    · -- a checksum of zero is not compared
      have hinside : i.val - 4 < (page.1.drop 4).length := by
        rw [List.length_drop, page.2]
        omega
      rw [if_neg (not_not_intro hzero)]
      refine iff_of_false (fun h ↦ crc32_flip_ne hinside j ?_) fun h ↦ ?_
      · rw [← hcontents, h changed rfl]
      · rcases h with h | h
        · omega
        · exact h hzero
    · rw [if_pos hzero]
      exact iff_of_true (fun _ h ↦ nomatch h) (Or.inr hzero)

/-- Contents whose checksum is zero: four bytes that clear the register, zeroes, and four bytes that set
all its bits again. -/
def unguarded : Page :=
  ⟨List.replicate 4 0 ++ (List.replicate 4 255 ++ (List.replicate 4084 0 ++ [98, 245, 38, 146])), by
    simp only [List.length_append, List.length_replicate]
    rfl⟩

theorem crc32_unguarded : crc32 (unguarded.1.drop 4) = 0 := by
  have hclear : crcBytes (BitVec.allOnes 32) (List.replicate 4 255) = 0 := by decide +kernel
  have hset : (~~~ crcBytes 0 [98, 245, 38, 146]).toNat = 0 := by decide +kernel
  have hdrop : unguarded.1.drop 4 =
      List.replicate 4 255 ++ (List.replicate 4084 0 ++ [98, 245, 38, 146]) :=
    List.drop_left' List.length_replicate
  rw [hdrop, crc32, crcBytes_append, crcBytes_append, hclear, crcBytes_replicate_zero, hset]

/-- **A change to a page whose checksum is zero goes unseen.** -/
theorem not_bit_flip_detected : ¬ ∀ (f : PageFile) (pageId : Nat) (page : Page) (i : Fin pageSize)
    (j : Fin 8) (stored : Page),
      ((f.writePage pageId page).flipBit (pageId * pageSize + i) j).readPage pageId = .ok stored →
        stored.1.drop 4 = page.1.drop 4 := by
  intro h
  have hi : 4 ≤ (⟨4, by decide⟩ : Fin pageSize).val := le_rfl
  obtain ⟨changed, hcontents, hread⟩ :=
    readPage_flipBit (opened []) 0 unguarded hi 0
  rw [if_neg (not_not_intro crc32_unguarded)] at hread
  have hinside : 0 < (unguarded.1.drop 4).length := by
    rw [List.length_drop, unguarded.2]
    decide
  refine crc32_flip_ne hinside 0 (congrArg crc32 ?_)
  exact hcontents.symm.trans (h _ _ _ _ _ changed hread)

end PageFile

end KsSql
