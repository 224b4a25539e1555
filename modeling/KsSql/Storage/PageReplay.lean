import KsSql.Storage.Routines
import KsSql.Storage.WalRecovery
import KsSql.Storage.WalSteps

/-!
# Replaying page images

A tree saves a page by enqueueing an image of it and then writing it (`saves_insertProgram`). Some of
the images reach the log, and some are thrown away by the drain thread. On a restart `BPlusTree::open`
writes every image in the log to its page again, so in the end a page holds the newest image of it in
the log.

In a run of insertions, of steps of the two consumers of the queue, and of restarts, every page holds
the newest of its images that was ever enqueued (`Imaged`). So the replay leaves all pages as they were
if and only if, for every page in the log, the newest image was not among those thrown away
(`replay_keeps_pages_iff`).
-/

namespace KsSql

open PageProgram

/-- The image of a page in an entry of the log. -/
def WalEntry.image {K V : Type} (p : Nat) : WalEntry K V → Option (Node K V)
  | .pageUpdate q n => if q = p then some n else none
  | _ => none

/-- The newest image of a page among entries, oldest first. -/
def newestImage {K V : Type} (entries : List (WalEntry K V)) (p : Nat) : Option (Node K V) :=
  entries.reverse.findSome? (WalEntry.image p)

section Images

variable {K V : Type} {p : Nat}

theorem newestImage_append (l l' : List (WalEntry K V)) :
    newestImage (l ++ l') p = (newestImage l' p).or (newestImage l p) := by
  rw [newestImage, List.reverse_append, List.findSome?_append]
  rfl

@[simp] theorem newestImage_singleton (x : WalEntry K V) : newestImage [x] p = x.image p := by
  rw [newestImage, List.reverse_singleton, List.findSome?_singleton]

theorem newestImage_cons (x : WalEntry K V) (l : List (WalEntry K V)) :
    newestImage (x :: l) p = (newestImage l p).or (x.image p) := by
  rw [← List.singleton_append, newestImage_append, newestImage_singleton]

theorem newestImage_concat (l : List (WalEntry K V)) (x : WalEntry K V) :
    newestImage (l ++ [x]) p = (x.image p).or (newestImage l p) := by
  rw [newestImage_append, newestImage_singleton]

/-- A page with an image in a list has one in every list with the same entries and more. -/
theorem exists_newestImage_of_subset {l l' : List (WalEntry K V)} (h : l ⊆ l') {n : Node K V}
    (hn : newestImage l p = some n) : ∃ m, newestImage l' p = some m := by
  obtain ⟨x, hx, himage⟩ := List.exists_of_findSome?_eq_some hn
  rw [← Option.isSome_iff_exists, newestImage, List.findSome?_isSome_iff]
  exact ⟨x, List.mem_reverse.2 (h (List.mem_reverse.1 hx)), by rw [himage]; rfl⟩

end Images

/-- What an entry of the log puts under a key. -/
def WalEntry.update {K V : Type} [DecidableEq K] (key : K) : WalEntry K V → Option V
  | .recordUpdate k data => if k = key then some data else none
  | _ => none

/-- The newest record under a key among entries, oldest first. -/
def newestUpdate {K V : Type} [DecidableEq K] (entries : List (WalEntry K V)) (key : K) : Option V :=
  entries.reverse.findSome? (WalEntry.update key)

section Updates

variable {K V : Type} [DecidableEq K] {key : K}

theorem newestUpdate_append (l l' : List (WalEntry K V)) :
    newestUpdate (l ++ l') key = (newestUpdate l' key).or (newestUpdate l key) := by
  rw [newestUpdate, List.reverse_append, List.findSome?_append]
  rfl

@[simp] theorem newestUpdate_singleton (x : WalEntry K V) :
    newestUpdate [x] key = x.update key := by
  rw [newestUpdate, List.reverse_singleton, List.findSome?_singleton]

theorem newestUpdate_cons (x : WalEntry K V) (l : List (WalEntry K V)) :
    newestUpdate (x :: l) key = (newestUpdate l key).or (x.update key) := by
  rw [← List.singleton_append, newestUpdate_append, newestUpdate_singleton]

theorem newestUpdate_eq_none {l : List (WalEntry K V)} (h : ∀ x ∈ l, x.update key = none) :
    newestUpdate l key = none := by
  rw [newestUpdate, List.findSome?_eq_none_iff]
  exact fun x hx ↦ h x (List.mem_reverse.1 hx)

end Updates

namespace BPlusTree

variable {K V : Type}

/-! ### The routines of the tree save their pages -/

section Saving

variable [ByteLen K] [ByteLen V]

theorem saves_saveNode (q : Nat) (n : Node K V) : (saveNode q n).Saves Node.newInternal := by
  rw [saveNode]
  split
  · exact .fail _
  · exact .save q _ (.done ())

omit [ByteLen K] [ByteLen V] in
theorem saves_allocatePage : (allocatePage : Program K V Nat).Saves Node.newInternal :=
  .extend fun pid ↦ .done pid

theorem saves_splitChild (parent : Node K V) (i c : Nat) :
    (splitChild parent i c).Saves Node.newInternal := by
  rw [splitChild, readPage_bind]
  refine .read c fun node ↦ ?_
  split
  · exact .fail _
  · exact saves_require.bind fun _ ↦ saves_allocatePage.bind fun _ ↦ saves_require.bind fun _ ↦
      (saves_saveNode _ _).bind fun _ ↦ (saves_saveNode _ _).bind fun _ ↦ .done _

variable [LinearOrder K] (bs : BinarySearch K)

theorem saves_insertLeaf (q : Nat) (node : Node K V) (key : K) (value : V) :
    (insertLeaf bs q node key value).Saves Node.newInternal := by
  rw [insertLeaf]
  split
  · exact saves_require.bind fun _ ↦ saves_saveNode _ _
  · exact saves_require.bind fun _ ↦ saves_saveNode _ _

theorem saves_insertNonFull (key : K) (value : V) : ∀ (fuel q : Nat) (node : Node K V),
    (insertNonFull bs fuel q node key value).Saves Node.newInternal
  | 0, _, _ => .fail _
  | fuel + 1, q, node => by
    have ih := saves_insertNonFull key value fuel
    rw [insertNonFull]
    split
    · exact saves_insertLeaf bs q node key value
    · dsimp only
      split
      · exact .fail _
      · refine .read _ fun child ↦ ?_
        show (if child.isFull then _ else _ : Program K V Unit).Saves _
        split
        · refine (saves_splitChild _ _ _).bind fun node' ↦ ?_
          split
          · exact .fail _
          · split
            · exact .fail _
            · exact .read _ fun child' ↦ (ih _ child').bind fun _ ↦ saves_saveNode _ _
        · exact (ih _ child).bind fun _ ↦ saves_saveNode _ _

theorem saves_insertProgram (fuel : Nat) (key : K) (value : V) :
    (insertProgram bs fuel key value).Saves Node.newInternal := by
  refine .read _ fun root ↦ ?_
  show (if root.isFull then _ else _ : Program K V Unit).Saves _
  split
  · refine Saves.bind ?_ fun _ ↦ .read _ fun root' ↦ saves_insertNonFull bs key value fuel _ root'
    exact saves_allocatePage.bind fun _ ↦ (saves_saveNode _ _).bind fun _ ↦
      (saves_splitChild _ _ _).bind fun _ ↦ saves_saveNode _ _
  · exact saves_insertNonFull bs key value fuel _ root

end Saving

/-! ### Pages and their images -/

/-- The page file has fewer than `2 ^ 32` pages. -/
def SmallFile (t : BPlusTree K V) : Prop := t.pager.fileLength < 2 ^ 32 * pageSize

/-- Every page that was ever logged holds the newest image of it that was enqueued. -/
structure Imaged (t : BPlusTree K V) : Prop where
  aligned : pageSize ∣ t.pager.fileLength
  pos : 0 < t.pager.fileLength
  newest : ∀ p n, newestImage t.wal.enqueued p = some n →
    t.pager.pages p = n ∧ p * pageSize < t.pager.fileLength
  queue : t.wal.queue ⊆ t.wal.enqueued
  logged : t.wal.logged ⊆ t.wal.enqueued

/-- Of an empty file nothing was logged. -/
theorem imaged_openEmpty (tier : MemoryTier K V) : (openEmpty tier).Imaged where
  aligned := dvd_refl _
  pos := Nat.lt_of_lt_of_le (by decide) (le_refl pageSize)
  newest _ _ h := (nomatch h)
  queue := List.nil_subset _
  logged := List.nil_subset _

/-- For every page in the log, the newest image that was enqueued is the newest one in the log. -/
def NewestLogged (t : BPlusTree K V) : Prop :=
  ∀ p n, newestImage t.wal.logged p = some n → newestImage t.wal.enqueued p = some n

theorem offset_lt_writePage (p : Pager K V) (q : Nat) (n : Node K V) :
    q * pageSize < (p.writePage q n).fileLength := by
  rw [Pager.writePage]
  dsimp only
  split
  · exact Nat.lt_add_of_pos_right (by decide)
  · omega

theorem aligned_writePage {p : Pager K V} (hp : pageSize ∣ p.fileLength) (q : Nat) (n : Node K V) :
    pageSize ∣ (p.writePage q n).fileLength := by
  rw [Pager.writePage]
  dsimp only
  split
  · exact Nat.dvd_add (Nat.dvd_mul_left _ _) (dvd_refl _)
  · exact hp

/-- A page that is logged and written holds its image. -/
theorem Imaged.save {t t' : BPlusTree K V} {q : Nat} {n : Node K V} (ht : t.Imaged)
    (hlog : (pagerDevice K V).log q n t = .ok t') :
    Imaged { t' with pager := t'.pager.writePage q n } := by
  change (t.wal.enqueue (.pageUpdate q n)).map _ = _ at hlog
  rw [Wal.enqueue] at hlog
  split at hlog
  · cases hlog
    refine ⟨aligned_writePage ht.aligned q n, ht.pos.trans_le (Pager.fileLength_le_writePage _ q n),
      fun p m hm ↦ ?_, ?_, fun x hx ↦ List.mem_append_left _ (ht.logged hx)⟩
    · change newestImage (t.wal.enqueued ++ [.pageUpdate q n]) p = some m at hm
      rw [newestImage_concat] at hm
      by_cases hq : q = p
      · subst hq
        rw [WalEntry.image, if_pos rfl] at hm
        cases hm
        exact ⟨Function.update_self _ _ _, offset_lt_writePage _ q n⟩
      · rw [WalEntry.image, if_neg hq, Option.none_or] at hm
        obtain ⟨hpage, hlt⟩ := ht.newest p m hm
        exact ⟨(Function.update_of_ne (Ne.symm hq) _ _).trans hpage,
          hlt.trans_le (Pager.fileLength_le_writePage _ q n)⟩
    · intro x hx
      rcases List.mem_append.1 hx with hx | hx
      · exact List.mem_append_left _ (ht.queue hx)
      · exact List.mem_append_right _ hx
  · cases hlog

/-- The page behind the last one was never logged. -/
theorem Imaged.extend {t : BPlusTree K V} (ht : t.Imaged) (hsmall : t.SmallFile) :
    ((pagerDevice K V).write ((pagerDevice K V).numPages t).1 .newInternal
      ((pagerDevice K V).numPages t).2).Imaged := by
  have hpages : t.pager.numPages = t.pager.fileLength / pageSize := by
    refine Nat.mod_eq_of_lt ?_
    rw [Nat.div_lt_iff_lt_mul (by decide)]
    exact hsmall
  have hend : t.pager.numPages * pageSize = t.pager.fileLength := by
    rw [hpages, Nat.div_mul_cancel ht.aligned]
  refine ⟨aligned_writePage (p := ((pagerDevice K V).numPages t).2.pager) ht.aligned _ _,
    ht.pos.trans_le (Pager.fileLength_le_writePage ((pagerDevice K V).numPages t).2.pager _ _),
    fun p m hm ↦ ?_, ht.queue, ht.logged⟩
  obtain ⟨hpage, hlt⟩ := ht.newest p m hm
  have hne : p ≠ t.pager.numPages := by
    rintro rfl
    omega
  exact ⟨(Function.update_of_ne hne _ _).trans hpage,
    hlt.trans_le (Pager.fileLength_le_writePage ((pagerDevice K V).numPages t).2.pager _ _)⟩

theorem Imaged.congr {t t' : BPlusTree K V} (ht : t.Imaged) (hpager : t'.pager = t.pager)
    (henqueued : t'.wal.enqueued = t.wal.enqueued) (hqueue : t'.wal.queue ⊆ t.wal.enqueued)
    (hlogged : t'.wal.logged ⊆ t.wal.enqueued) : t'.Imaged :=
  ⟨hpager ▸ ht.aligned, hpager ▸ ht.pos, by rw [hpager, henqueued]; exact ht.newest,
    henqueued ▸ hqueue, henqueued ▸ hlogged⟩

/-- Record updates are no images. -/
theorem Imaged.enqueued {t t' : BPlusTree K V} (ht : t.Imaged) (hpager : t'.pager = t.pager)
    {new : List (WalEntry K V)} (hnew : ∀ x ∈ new, ∃ key value, x = .recordUpdate key value)
    (hwal : t'.wal = { t.wal with
      queue := t.wal.queue ++ new, enqueued := t.wal.enqueued ++ new }) : t'.Imaged := by
  refine ⟨hpager ▸ ht.aligned, hpager ▸ ht.pos, fun p n hn ↦ ?_, ?_, ?_⟩
  · have hnone : newestImage new p = none := by
      rw [newestImage, List.findSome?_eq_none_iff]
      intro x hx
      obtain ⟨key, value, rfl⟩ := hnew x (List.mem_reverse.1 hx)
      rfl
    rw [hwal, newestImage_append, hnone] at hn
    rw [hpager]
    exact ht.newest p n hn
  · rw [hwal]
    exact List.append_subset.2 ⟨fun x hx ↦ List.mem_append_left _ (ht.queue hx),
      List.subset_append_right _ _⟩
  · rw [hwal]
    exact fun x hx ↦ List.mem_append_left _ (ht.logged hx)

section Runs

variable [ByteLen K] [ByteLen V] [LinearOrder K] {bs : BinarySearch K}

/-- **An insertion** keeps the pages at their images, whether it is done or refused. -/
theorem Imaged.insert {t : BPlusTree K V} (ht : t.SmallFile → t.Imaged) (key : K) (value : V)
    (hsmall : (t.insert bs key value).2.SmallFile) : (t.insert bs key value).2.Imaged := by
  refine Device.run_of_saves (D := pagerDevice K V) (I := fun t ↦ t.SmallFile → t.Imaged)
    (fun q n s s' hlog hs hsmall ↦ ?_) (fun s hs hsmall ↦ ?_)
    (saves_insertProgram bs t.fuel key value) ht hsmall
  · have hbefore : s.SmallFile := by
      have hle := (Pager.fileLength_le_writePage s'.pager q n).trans_lt hsmall
      rwa [pager_of_log hlog] at hle
    exact (hs hbefore).save hlog
  · have hbefore : s.SmallFile := (Pager.fileLength_le_writePage
      ((pagerDevice K V).numPages s).2.pager _ _).trans_lt hsmall
    exact (hs hbefore).extend hbefore

/-- What a restart makes of the files. The history of the log goes on. -/
def restarted [Bincode (WalEntry K V)] (timestamp : Nat → Int) (tier : MemoryTier K V)
    (t : BPlusTree K V) : BPlusTree K V :=
  { reopen timestamp (Wal.recover t.wal.file) t.pager tier with
    wal := { file := t.wal.file, enqueued := t.wal.enqueued, logged := t.wal.logged } }

/-- The trees that insertions, the consumers of the queue and restarts lead to. A restart is taken only
where the log gives back what was logged, and leaves the pages as they were. -/
inductive Served (bs : BinarySearch K) [Bincode (WalEntry K V)] : BPlusTree K V → Prop
  | start (tier : MemoryTier K V) : Served bs (openEmpty tier)
  | insert {t : BPlusTree K V} (key : K) (value : V) :
      Served bs t → Served bs (t.insert bs key value).2
  | enqueue {t : BPlusTree K V} {wal : Wal K V} (key : K) (value : V) : Served bs t →
      t.wal.enqueue (.recordUpdate key value) = .ok wal → Served bs { t with wal := wal }
  | pop {t : BPlusTree K V} {entry : WalEntry K V} {wal : Wal K V} : Served bs t →
      t.wal.popEntry = some (entry, wal) → Served bs { t with wal := wal }
  | flushRound {t : BPlusTree K V} (f : Wal.Flush) :
      Served bs t → Served bs { t with wal := (t.wal.flushRound f).1 }
  | writeBatch {t : BPlusTree K V} : Served bs t → Served bs { t with wal := t.wal.writeBatch }
  | cache {t : BPlusTree K V} (tier : MemoryTier K V) :
      Served bs t → Served bs { t with memoryTier := tier }
  | restart {t : BPlusTree K V} (timestamp : Nat → Int) (tier : MemoryTier K V) : Served bs t →
      Wal.recover t.wal.file = t.wal.logged →
      (t.restarted timestamp tier).pager.pages = t.pager.pages →
      Served bs (t.restarted timestamp tier)

/-! ### The replay -/

omit [ByteLen K] [ByteLen V] [LinearOrder K] in
/-- The replay of entries leaves each page at its newest image, and makes the file longer only for
pages beyond its end. -/
theorem replay_pages [DecidableEq K] (timestamp : Nat → Int) :
    ∀ (entries : List (WalEntry K V)) (k : Nat) (t : BPlusTree K V) (t' : BPlusTree K V),
    (entries.zipIdx k).foldl (fun (t : BPlusTree K V) x ↦
      match x.1 with
      | .pageUpdate pageId data => { t with pager := t.pager.writePage pageId data }
      | .recordUpdate key data =>
        { t with memoryTier := t.memoryTier.insert (timestamp x.2) key data }
      | _ => t) t = t' →
    (∀ p, t'.pager.pages p = (newestImage entries p).getD (t.pager.pages p)) ∧
      t.pager.fileLength ≤ t'.pager.fileLength ∧
      ((∀ p n, newestImage entries p = some n → p * pageSize < t.pager.fileLength) →
        t'.pager.fileLength = t.pager.fileLength)
  | [], _, t, t', h => by
    cases h
    exact ⟨fun _ ↦ rfl, le_rfl, fun _ ↦ rfl⟩
  | x :: entries, k, t, t', h => by
    rw [List.zipIdx_cons, List.foldl_cons] at h
    obtain ⟨hpages, hgrows, hlength⟩ := replay_pages timestamp entries (k + 1) _ t' h
    -- an entry that is no image leaves the page file alone
    have hother : (∀ p, x.image p = none) →
        (∀ p, (newestImage (x :: entries) p) = newestImage entries p) := fun hx p ↦ by
      rw [newestImage_cons, hx, Option.or_none]
    cases x with
    | pageUpdate q n =>
      refine ⟨fun p ↦ ?_, (Pager.fileLength_le_writePage t.pager q n).trans hgrows,
        fun hinside ↦ ?_⟩
      · rw [hpages, newestImage_cons]
        rcases hnew : newestImage entries p with - | m
        · by_cases hq : q = p
          · subst hq
            rw [WalEntry.image, if_pos rfl]
            exact Function.update_self _ _ _
          · rw [WalEntry.image, if_neg hq]
            exact Function.update_of_ne (Ne.symm hq) _ _
        · rfl
      · have hq : q * pageSize < t.pager.fileLength := by
          rcases hnew : newestImage entries q with - | m
          · refine hinside q n ?_
            rw [newestImage_cons, hnew, WalEntry.image, if_pos rfl]
            rfl
          · refine hinside q m ?_
            rw [newestImage_cons, hnew]
            rfl
        have hsame : (t.pager.writePage q n).fileLength = t.pager.fileLength := by
          rw [Pager.writePage]
          exact if_neg (not_le.2 hq)
        have hrest := hlength fun p m hm ↦ by
          show p * pageSize < (t.pager.writePage q n).fileLength
          rw [hsame]
          refine hinside p m ?_
          rw [newestImage_cons, hm]
          rfl
        exact hrest.trans hsame
    | recordUpdate key data =>
      have hnone := hother fun _ ↦ rfl
      exact ⟨fun p ↦ by rw [hnone]; exact hpages p, hgrows,
        fun hinside ↦ hlength fun p n hn ↦ hinside p n ((hnone p).trans hn)⟩
    | transactionStart | transactionCommit | transactionRollback =>
      have hnone := hother fun _ ↦ rfl
      exact ⟨fun p ↦ by rw [hnone]; exact hpages p, hgrows,
        fun hinside ↦ hlength fun p n hn ↦ hinside p n ((hnone p).trans hn)⟩

omit [ByteLen K] [ByteLen V] [LinearOrder K] in
/-- The replay of entries leaves each key at its newest record, if the memory tier has room for all of
them. -/
theorem replay_memoryTier [DecidableEq K] (timestamp : Nat → Int) (key : K) :
    ∀ (entries : List (WalEntry K V)) (k : Nat) (t : BPlusTree K V) (t' : BPlusTree K V),
    (entries.zipIdx k).foldl (fun (t : BPlusTree K V) x ↦
      match x.1 with
      | .pageUpdate pageId data => { t with pager := t.pager.writePage pageId data }
      | .recordUpdate key data =>
        { t with memoryTier := t.memoryTier.insert (timestamp x.2) key data }
      | _ => t) t = t' →
    t.memoryTier.HasRoom entries.length →
      t'.memoryTier.get key = (newestUpdate entries key).or (t.memoryTier.get key)
  | [], _, t, t', h, _ => by
    cases h
    rfl
  | x :: entries, k, t, t', h, hroom => by
    rw [List.zipIdx_cons, List.foldl_cons] at h
    have hless : t.memoryTier.HasRoom entries.length := hroom.mono (Nat.le_succ _)
    rw [newestUpdate_cons, Option.or_assoc]
    cases x with
    | recordUpdate k' data =>
      have hlimit : t.memoryTier.overLimit = false :=
        MemoryTier.overLimit_of_hasRoom (hroom.mono (Nat.succ_le_succ (Nat.zero_le _))) rfl le_rfl
      rw [replay_memoryTier timestamp key entries (k + 1) _ t' h (hroom.insert _ _ _)]
      congr 1
      show (t.memoryTier.insert (timestamp k) k' data).get key = _
      rw [MemoryTier.get_insert hlimit, WalEntry.update]
      by_cases hk : k' = key
      · rw [if_pos hk, if_pos hk.symm]
        rfl
      · rw [if_neg hk, if_neg (Ne.symm hk)]
        rfl
    | _ =>
      have hrest := replay_memoryTier timestamp key entries (k + 1) _ t' h hless
      exact hrest

omit [ByteLen K] [ByteLen V] in
/-- After a restart the memory tier holds the newest record in the log under each key. -/
theorem get_reopen (timestamp : Nat → Int) {entries : List (WalEntry K V)}
    (pager : Pager K V) {limit : Nat}
    (hroom : (MemoryTier.new limit : MemoryTier K V).HasRoom entries.length) (key : K) :
    (BPlusTree.reopen timestamp entries pager (.new limit)).memoryTier.get key =
      newestUpdate entries key := by
  rw [BPlusTree.reopen]
  generalize hreplay : List.foldl _ _ entries.zipIdx = t'
  have hget := replay_memoryTier timestamp key entries 0 _ t' hreplay hroom
  rw [MemoryTier.get_new, Option.or_none] at hget
  split
  · exact hget
  · exact hget

omit [ByteLen K] [ByteLen V] in
/-- After a restart, each page is at its newest image in the log, and the file is as long as it was. -/
theorem Imaged.reopen {t : BPlusTree K V} (ht : t.Imaged) (hsmall : t.SmallFile)
    (timestamp : Nat → Int) (tier : MemoryTier K V) :
    (∀ p, (BPlusTree.reopen timestamp t.wal.logged t.pager tier).pager.pages p =
      (newestImage t.wal.logged p).getD (t.pager.pages p)) ∧
    (BPlusTree.reopen timestamp t.wal.logged t.pager tier).pager.fileLength = t.pager.fileLength := by
  rw [BPlusTree.reopen]
  generalize hreplay : List.foldl _ _ t.wal.logged.zipIdx = t'
  obtain ⟨hpages, -, hlength⟩ := replay_pages timestamp t.wal.logged 0 _ t' hreplay
  have hlength : t'.pager.fileLength = t.pager.fileLength := hlength fun p n hn ↦
    have ⟨m, hm⟩ := exists_newestImage_of_subset ht.logged hn
    (ht.newest p m hm).2
  have hnum : t'.pager.numPages ≠ 0 := by
    intro hnum
    rw [Pager.numPages, hlength, Nat.mod_eq_of_lt] at hnum
    · have hlt := Nat.div_mul_cancel ht.aligned
      rw [hnum, Nat.zero_mul] at hlt
      exact absurd ht.pos (by omega)
    · rw [Nat.div_lt_iff_lt_mul (by decide)]
      exact hsmall
  rw [if_neg hnum]
  exact ⟨hpages, hlength⟩

omit [ByteLen K] [ByteLen V] in
/-- A restart leaves the page file as it was where no newer image of a page is missing in the log. -/
theorem Imaged.pages_reopen {t : BPlusTree K V} (ht : t.Imaged) (hsmall : t.SmallFile)
    (hnewest : t.NewestLogged) (timestamp : Nat → Int) (tier : MemoryTier K V) :
    (BPlusTree.reopen timestamp t.wal.logged t.pager tier).pager.pages = t.pager.pages := by
  obtain ⟨hpages, -⟩ := ht.reopen hsmall timestamp tier
  funext p
  rw [hpages]
  rcases hn : newestImage t.wal.logged p with - | n
  · rfl
  · exact (ht.newest p n (hnewest p n hn)).1.symm

omit [ByteLen K] [ByteLen V] in
/-- The page file does not get shorter. -/
theorem fileLength_le_reopen (timestamp : Nat → Int) (entries : List (WalEntry K V))
    (pager : Pager K V) (tier : MemoryTier K V) :
    pager.fileLength ≤ (BPlusTree.reopen timestamp entries pager tier).pager.fileLength := by
  rw [BPlusTree.reopen]
  generalize hreplay : List.foldl _ _ entries.zipIdx = t'
  obtain ⟨-, hgrows, -⟩ := replay_pages timestamp entries 0 _ t' hreplay
  split
  · exact hgrows.trans (Pager.fileLength_le_writePage _ _ _)
  · exact hgrows

/-- **Every page holds its newest image** in every state that insertions, the consumers of the queue
and restarts lead to. -/
theorem Served.imaged [Bincode (WalEntry K V)] {t : BPlusTree K V} (h : Served bs t) :
    t.SmallFile → t.Imaged := by
  induction h with
  | start tier => exact fun _ ↦ imaged_openEmpty tier
  | insert key value _ ih => exact Imaged.insert ih key value
  | @enqueue t wal key value _ heq ih =>
    intro hsmall
    rw [Wal.enqueue] at heq
    split at heq
    · cases heq
      exact (ih hsmall).enqueued rfl
        (fun x hx ↦ ⟨key, value, List.mem_singleton.1 hx⟩) rfl
    · cases heq
  | pop _ heq ih =>
    intro hsmall
    have ht := ih hsmall
    obtain ⟨hconsumes, -⟩ := Wal.consumes_popEntry heq
    exact ht.congr rfl hconsumes.enqueued (List.Subset.trans hconsumes.queue.subset ht.queue)
      (by rw [Wal.popEntry_logged heq]; exact ht.logged)
  | @flushRound t f _ ih =>
    intro hsmall
    have ht := ih hsmall
    have hconsumes := Wal.consumes_flushRound (w := t.wal) f
    exact ht.congr rfl hconsumes.enqueued (List.Subset.trans hconsumes.queue.subset ht.queue)
      (List.Subset.trans (Wal.flushRound_logged f) (List.append_subset.2 ⟨ht.logged, ht.queue⟩))
  | @writeBatch t _ ih =>
    intro hsmall
    have ht := ih hsmall
    have hconsumes := Wal.consumes_writeBatch (w := t.wal)
    exact ht.congr rfl hconsumes.enqueued (List.Subset.trans hconsumes.queue.subset ht.queue)
      (by rw [Wal.writeBatch_logged]; exact ht.logged)
  | cache tier _ ih =>
    intro hsmall
    have ht := ih hsmall
    exact ht.congr rfl rfl ht.queue ht.logged
  | @restart t timestamp tier _ hrecovered hpages ih =>
    intro hsmall
    have hbefore : t.SmallFile :=
      (fileLength_le_reopen timestamp (Wal.recover t.wal.file) t.pager tier).trans_lt hsmall
    have ht := ih hbefore
    have hlength : (t.restarted timestamp tier).pager.fileLength = t.pager.fileLength := by
      rw [restarted, hrecovered]
      exact (ht.reopen hbefore timestamp tier).2
    refine ⟨hlength ▸ ht.aligned, hlength ▸ ht.pos, fun p n hn ↦ ?_, List.nil_subset _, ht.logged⟩
    rw [hpages, hlength]
    exact ht.newest p n hn

/-- **The replay of the log** leaves every page as it was if and only if no page has an image in the
log and a newer one that is not. -/
theorem replay_keeps_pages_iff [Bincode (WalEntry K V)] {t : BPlusTree K V} (h : Served bs t)
    (hsmall : t.SmallFile) (hrecovered : Wal.recover t.wal.file = t.wal.logged)
    (timestamp : Nat → Int) (tier : MemoryTier K V) :
    (t.restarted timestamp tier).pager.pages = t.pager.pages ↔ t.NewestLogged := by
  have ht := h.imaged hsmall
  obtain ⟨hpages, -⟩ := ht.reopen hsmall timestamp tier
  rw [← hrecovered] at hpages
  rw [funext_iff]
  constructor
  · intro hsame p n hn
    obtain ⟨m, hm⟩ := exists_newestImage_of_subset ht.logged hn
    have hpage := hsame p
    rw [restarted, hpages, hrecovered, hn, (ht.newest p m hm).1] at hpage
    rw [hm, show n = m from hpage]
  · intro hnewest p
    rw [restarted, hrecovered]
    exact congrFun (ht.pages_reopen hsmall hnewest timestamp tier) p

end Runs

/-! ### A page with two images -/

/-- An insertion, a flush of the image that it queued, and the batch written. -/
def insertFlushed (key : Bytes) (t : BPlusTree Bytes Bytes)
    [Bincode (WalEntry Bytes Bytes)] : BPlusTree Bytes Bytes :=
  let t := (t.insert .std key key).2
  let f : Wal.Flush := ⟨t.wal.activeIsA, t.wal.batchLimit⟩
  let t := { t with wal := (t.wal.flushRound f).1 }
  let t := { t with wal := (t.wal.flushRound f).1 }
  { t with wal := t.wal.writeBatch }

theorem Served.insertFlushed [Bincode (WalEntry Bytes Bytes)] {t : BPlusTree Bytes Bytes}
    (h : Served .std t) (key : Bytes) : Served .std (t.insertFlushed key) :=
  .writeBatch (.flushRound _ (.flushRound _ (.insert key key h)))

/-- The image of a leaf with one entry. -/
def oneEntryImage : WalEntry Bytes Bytes :=
  .pageUpdate 0 { (Node.newLeaf : Node Bytes Bytes) with keys := [[1]], values := [[1]] }

/-- The tree whose only page image was logged. -/
def savedOnce : BPlusTree Bytes Bytes :=
  let _ := Wal.knownEncoding [oneEntryImage]
  (openEmpty (.new 1024)).insertFlushed [1]

theorem served_savedOnce : let _ := Wal.knownEncoding [oneEntryImage]
    Served .std savedOnce := by
  intro _
  rw [savedOnce]
  exact .insertFlushed (.start _) [1]

/-- The replay of the only image of a page. -/
theorem replay_keeps_savedOnce : let _ := Wal.knownEncoding [oneEntryImage]
    Served .std savedOnce ∧ savedOnce.wal.file ≠ [] ∧
      (savedOnce.restarted (fun n ↦ n) (.new 1024)).pager.pages = savedOnce.pager.pages := by
  intro encoding
  have hserved : Served .std savedOnce := served_savedOnce
  have hlogged : savedOnce.wal.enqueued = savedOnce.wal.logged := by decide +kernel
  have hnewest : savedOnce.NewestLogged := fun p n hn ↦ hlogged ▸ hn
  have hlength : savedOnce.pager.fileLength = pageSize := by decide +kernel
  have hsmall : savedOnce.SmallFile := by
    rw [SmallFile, hlength]
    decide +kernel
  have hrecovered : Wal.recover savedOnce.wal.file = savedOnce.wal.logged := by decide +kernel
  have hfile : savedOnce.wal.file ≠ [] := by decide +kernel
  have hpages := (replay_keeps_pages_iff hserved hsmall hrecovered (fun n ↦ n) (.new 1024)).2 hnewest
  exact ⟨hserved, hfile, hpages⟩

/-- The tree after another insertion into the same page. -/
def savedTwice : BPlusTree Bytes Bytes := (savedOnce.insert .std [2] [2]).2

/-- **The replay regresses a page.** The drain thread throws the second image of the page away, and the
restart puts the first one back. -/
theorem not_replay_keeps_pages : ¬ ∀ (_ : Bincode (WalEntry Bytes Bytes)) (bs : BinarySearch Bytes)
    (t : BPlusTree Bytes Bytes), Served bs t → t.SmallFile → t.wal.queue = [] → t.wal.sent = [] →
      Wal.recover t.wal.file = t.wal.logged → ∀ timestamp tier,
        (t.restarted timestamp tier).pager.pages = t.pager.pages := by
  intro h
  let _ := Wal.knownEncoding [oneEntryImage]
  obtain ⟨⟨entry, wal⟩, hpop⟩ : ∃ x, savedTwice.wal.popEntry = some x :=
    Option.isSome_iff_exists.1 (by decide +kernel)
  have hall : (savedTwice.wal.popEntry).all (fun x ↦ decide (x.2.queue = [] ∧ x.2.sent = [] ∧
      Wal.recover x.2.file = x.2.logged ∧ savedTwice.pager.fileLength = pageSize ∧
      (({ savedTwice with wal := x.2 } : BPlusTree Bytes Bytes).restarted (fun n ↦ n)
        (.new 1024)).pager.pages 0 ≠ savedTwice.pager.pages 0)) = true := by decide +kernel
  rw [hpop, Option.all_some, decide_eq_true_iff] at hall
  obtain ⟨hqueue, hsent, hrecovered, hlength, hpages⟩ := hall
  have hsmall : SmallFile { savedTwice with wal := wal } := by
    show savedTwice.pager.fileLength < _
    rw [hlength]
    decide +kernel
  have hserved : Served .std { savedTwice with wal := wal } :=
    .pop (.insert [2] [2] served_savedOnce) hpop
  exact hpages (congrFun (h _ .std _ hserved hsmall hqueue hsent hrecovered (fun n ↦ n)
    (.new 1024)) 0)

end BPlusTree

end KsSql
