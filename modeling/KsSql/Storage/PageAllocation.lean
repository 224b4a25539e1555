import KsSql.Storage.PageFile

/-!
# Allocating pages

`allocate_page` takes the length of the page file, rounded down to whole pages, for the id of the next
page, and `write_page` raises the length only when a page starts at it or behind it. In a file of whole
pages each allocation therefore yields a new page. Where the file ends inside a page, that page is handed
out by the first allocation, and by each one after it, because writing it does not raise the length:
`allocate_distinct_iff`, `not_allocate_distinct`.

Every caller of `allocate_page` has read a page before, so the pager's thread has taken the length of the
file by then.
-/

namespace KsSql

/-- A call of the pager's users. -/
inductive PageCall
  /-- `allocate_page` -/
  | allocate
  /-- `write_page` -/
  | write (pageId : Nat) (page : Page)

/-- The page file, and the page ids that were handed out, oldest first. -/
structure Allocation where
  pageFile : PageFile
  ids : List Nat := []

namespace Allocation

/-- The page file behind an open or a reload. -/
def start (file : Bytes) : Allocation := { pageFile := .opened file }

/-- Make a call. -/
def call (a : Allocation) : PageCall → Allocation
  | .allocate =>
    let (id, f) := a.pageFile.allocatePage
    { pageFile := f, ids := a.ids ++ [id] }
  | .write pageId page => { a with pageFile := a.pageFile.writePage pageId page }

/-- Make calls one after another. -/
def run (a : Allocation) (calls : List PageCall) : Allocation := calls.foldl call a

/-- The page overlaps the file. -/
def Overlaps (file : Bytes) (pageId : Nat) : Prop := pageId * pageSize < file.length

instance (file : Bytes) : DecidablePred (Overlaps file) := fun _ ↦ Nat.decLt _ _

/-- The pages that are written overlapped the file, or have been handed out. -/
def WritesAllocated (file : Bytes) (a : Allocation) : List PageCall → Prop
  | [] => True
  | .allocate :: calls => WritesAllocated file (a.call .allocate) calls
  | .write pageId page :: calls =>
    (Overlaps file pageId ∨ pageId ∈ a.ids) ∧ WritesAllocated file (a.call (.write pageId page)) calls

variable {file : Bytes} {a : Allocation}

/-! ### What calls leave -/

theorem fileLength_le_writePage (f : PageFile) (pageId : Nat) (page : Page) :
    f.fileLength ≤ (f.writePage pageId page).fileLength := by
  rw [PageFile.writePage]
  dsimp only
  split <;> omega

/-- The file does not get shorter, and what was handed out stays handed out. -/
theorem run_mono : ∀ (calls : List PageCall) (a : Allocation),
    a.pageFile.fileLength ≤ (a.run calls).pageFile.fileLength ∧ a.ids ⊆ (a.run calls).ids
  | [], _ => ⟨le_rfl, List.Subset.refl _⟩
  | c :: calls, a => by
    obtain ⟨hlength, hids⟩ := run_mono calls (a.call c)
    cases c with
    | allocate =>
      exact ⟨(fileLength_le_writePage _ _ _).trans hlength,
        List.Subset.trans (List.subset_append_left _ _) hids⟩
    | write pageId page => exact ⟨(fileLength_le_writePage _ _ _).trans hlength, hids⟩

/-- A file of whole pages, in which the pages handed out lie one behind the other behind those that the
file had. -/
structure Whole (file : Bytes) (a : Allocation) : Prop where
  aligned : pageSize ∣ a.pageFile.fileLength
  grown : file.length ≤ a.pageFile.fileLength
  sorted : a.ids.Pairwise (· < ·)
  behind : ∀ id ∈ a.ids, file.length ≤ id * pageSize
  inside : ∀ id ∈ a.ids, id * pageSize < a.pageFile.fileLength

theorem whole_start (h : pageSize ∣ file.length) : Whole file (start file) :=
  ⟨h, le_rfl, .nil, fun _ h ↦ (nomatch h), fun _ h ↦ (nomatch h)⟩

/-- A write to a page of the file does not change its length. -/
theorem fileLength_writePage_of_lt {f : PageFile} {pageId : Nat} (page : Page)
    (h : pageId * pageSize < f.fileLength) :
    (f.writePage pageId page).fileLength = f.fileLength := if_neg (Nat.not_le.2 h)

theorem Whole.write (h : Whole file a) {pageId : Nat} (page : Page)
    (hallocated : Overlaps file pageId ∨ pageId ∈ a.ids) :
    Whole file (a.call (.write pageId page)) := by
  have hlt : pageId * pageSize < a.pageFile.fileLength := by
    rcases hallocated with hoverlaps | hmem
    · exact Nat.lt_of_lt_of_le hoverlaps h.grown
    · exact h.inside pageId hmem
  have hlength : (a.call (.write pageId page)).pageFile.fileLength = a.pageFile.fileLength :=
    fileLength_writePage_of_lt page hlt
  exact ⟨hlength ▸ h.aligned, hlength ▸ h.grown, h.sorted, h.behind,
    fun id hid ↦ hlength ▸ h.inside id hid⟩

/-- **An allocation** in a file of whole pages appends one. -/
theorem Whole.allocate (h : Whole file a) (hbounded : a.pageFile.fileLength / pageSize < 2 ^ 32) :
    Whole file (a.call .allocate) := by
  have hid : a.pageFile.numPages * pageSize = a.pageFile.fileLength := by
    rw [PageFile.numPages, Nat.mod_eq_of_lt hbounded, Nat.div_mul_cancel h.aligned]
  have hlength : (a.call .allocate).pageFile.fileLength = a.pageFile.fileLength + pageSize := by
    show (if a.pageFile.numPages * pageSize ≥ a.pageFile.fileLength then _ else _) = _
    rw [hid, if_pos le_rfl]
  have hids : (a.call .allocate).ids = a.ids ++ [a.pageFile.numPages] := rfl
  have hpos : 0 < pageSize := by decide
  refine ⟨?_, ?_, ?_, ?_, ?_⟩
  · rw [hlength]
    exact Nat.dvd_add h.aligned (Nat.dvd_refl _)
  · rw [hlength]
    exact h.grown.trans (Nat.le_add_right _ _)
  · rw [hids, List.pairwise_append]
    refine ⟨h.sorted, List.pairwise_singleton _ _, fun id hmem id' hmem' ↦ ?_⟩
    obtain rfl := List.mem_singleton.1 hmem'
    have hinside := h.inside id hmem
    rw [← hid] at hinside
    exact Nat.lt_of_mul_lt_mul_right hinside
  · intro id hmem
    rw [hids, List.mem_append, List.mem_singleton] at hmem
    rcases hmem with hmem | rfl
    · exact h.behind id hmem
    · rw [hid]
      exact h.grown
  · intro id hmem
    rw [hlength]
    rw [hids, List.mem_append, List.mem_singleton] at hmem
    rcases hmem with hmem | rfl
    · exact (h.inside id hmem).trans_le (Nat.le_add_right _ _)
    · rw [hid]
      omega

/-- **Calls** keep a file one of whole pages. -/
theorem Whole.run : ∀ {calls : List PageCall} {a : Allocation}, Whole file a →
    WritesAllocated file a calls → (a.run calls).pageFile.fileLength / pageSize < 2 ^ 32 →
      Whole file (a.run calls)
  | [], _, h, _, _ => h
  | .allocate :: calls, a, h, hwrites, hbounded => by
    have hmono := (run_mono (.allocate :: calls) a).1
    have hnow : a.pageFile.fileLength / pageSize < 2 ^ 32 :=
      (Nat.div_le_div_right hmono).trans_lt hbounded
    have hrest := Whole.run (h.allocate hnow) hwrites hbounded
    exact hrest
  | .write pageId page :: calls, _, h, hwrites, hbounded => by
    have hrest := Whole.run (h.write page hwrites.1) hwrites.2 hbounded
    exact hrest

/-- A file that ends inside a page keeps its length until that page is handed out. -/
theorem handsOut_overlapping : ∀ {calls : List PageCall} {a : Allocation}, .allocate ∈ calls →
    a.ids = [] → a.pageFile.fileLength = file.length → WritesAllocated file a calls →
      file.length / pageSize < 2 ^ 32 → file.length / pageSize ∈ (a.run calls).ids
  | .allocate :: calls, a, _, _, hlength, _, hbounded => by
    refine (run_mono calls (a.call .allocate)).2 ?_
    show file.length / pageSize ∈ a.ids ++ [a.pageFile.fileLength / pageSize % 2 ^ 32]
    rw [hlength, Nat.mod_eq_of_lt hbounded]
    exact List.mem_append_right _ List.mem_cons_self
  | .write pageId page :: calls, a, hmem, hids, hlength, hwrites, hbounded => by
    have hlt : pageId * pageSize < a.pageFile.fileLength := by
      rw [hlength]
      rcases hwrites.1 with hoverlaps | hhanded
      · exact hoverlaps
      · rw [hids] at hhanded
        cases hhanded
    have hstays : (a.pageFile.writePage pageId page).fileLength = file.length :=
      (fileLength_writePage_of_lt page hlt).trans hlength
    have hlater : .allocate ∈ calls := by
      rcases List.mem_cons.1 hmem with heq | hmem
      · cases heq
      · exact hmem
    have hrest := handsOut_overlapping (a := a.call (.write pageId page)) hlater hids hstays hwrites.2
      hbounded
    exact hrest

theorem ids_run_of_not_mem : ∀ {calls : List PageCall} (a : Allocation), .allocate ∉ calls →
    (a.run calls).ids = a.ids
  | [], _, _ => rfl
  | .allocate :: _, _, h => absurd List.mem_cons_self h
  | .write pageId page :: _, a, h =>
    ids_run_of_not_mem (a.call (.write pageId page)) fun hmem ↦ h (List.mem_cons_of_mem _ hmem)

/-! ### When page ids are new -/

/-- **The page ids handed out are distinct and new exactly if the file consists of whole pages**, or
none is handed out. -/
theorem allocate_distinct_iff {file : Bytes} {calls : List PageCall}
    (hwrites : WritesAllocated file (start file) calls)
    (hbounded : ((start file).run calls).pageFile.fileLength / pageSize < 2 ^ 32) :
    (((start file).run calls).ids.Nodup ∧ ∀ id ∈ ((start file).run calls).ids, ¬ Overlaps file id) ↔
      pageSize ∣ file.length ∨ .allocate ∉ calls := by
  by_cases haligned : pageSize ∣ file.length
  · have hwhole := (whole_start haligned).run hwrites hbounded
    refine iff_of_true ⟨hwhole.sorted.imp Nat.ne_of_lt, fun id hid hoverlaps ↦ ?_⟩ (Or.inl haligned)
    exact absurd hoverlaps (Nat.not_lt.2 (hwhole.behind id hid))
  by_cases hallocates : .allocate ∈ calls
  · refine iff_of_false (fun h ↦ ?_) fun h ↦ h.elim haligned fun h ↦ h hallocates
    have hlt : file.length / pageSize < 2 ^ 32 :=
      (Nat.div_le_div_right (run_mono calls (start file)).1).trans_lt hbounded
    have hmem := handsOut_overlapping hallocates rfl rfl hwrites hlt
    refine h.2 _ hmem ?_
    -- the last page of the file is not a whole one
    have hle := Nat.div_mul_le_self file.length pageSize
    have hne : file.length / pageSize * pageSize ≠ file.length := fun heq ↦
      haligned ⟨_, (heq.symm.trans (Nat.mul_comm _ _))⟩
    exact Nat.lt_of_le_of_ne hle hne
  · have hnone : ((start file).run calls).ids = [] := ids_run_of_not_mem (start file) hallocates
    rw [hnone]
    exact iff_of_true ⟨.nil, fun _ h ↦ (nomatch h)⟩ (Or.inr hallocates)

/-- Two allocations behind a file of one page, and a write between them. -/
def oneWholePage : List PageCall := [.allocate, .write 0 .blank, .write 1 .blank, .allocate]

theorem allocate_distinct_oneWholePage :
    let a := (start (List.replicate 4096 0)).run oneWholePage
    a.ids = [1, 2] ∧ a.ids.Nodup ∧ ∀ id ∈ a.ids, ¬ Overlaps (List.replicate 4096 0) id := by
  have hwrites : WritesAllocated (List.replicate 4096 0) (start (List.replicate 4096 0)) oneWholePage :=
    ⟨Or.inl (by decide +kernel), Or.inr (by decide +kernel), trivial⟩
  exact ⟨by decide +kernel, (allocate_distinct_iff hwrites (by decide +kernel)).2
    (Or.inl (by decide +kernel))⟩

/-- **A page is handed out twice** in a file that ends inside its first page, and is not a new one. -/
theorem not_allocate_distinct : ¬ ∀ (file : Bytes) (calls : List PageCall),
    WritesAllocated file (start file) calls →
      ((start file).run calls).pageFile.fileLength / pageSize < 2 ^ 32 →
        ((start file).run calls).ids.Nodup ∧
          ∀ id ∈ ((start file).run calls).ids, ¬ Overlaps file id := by
  intro h
  have hids : ((start (List.replicate 100 0)).run [.allocate, .allocate]).ids = [0, 0] := by
    decide +kernel
  have hnodup := (h (List.replicate 100 0) [.allocate, .allocate] trivial (by decide +kernel)).1
  rw [hids] at hnodup
  exact absurd hnodup (by decide)

end Allocation

end KsSql
