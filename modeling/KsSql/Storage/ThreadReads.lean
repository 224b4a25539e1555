import KsSql.Storage.PagerRefinement
import KsSql.Storage.ReaderRace

/-!
# Lookups beside an insertion, on the pager's thread

An insertion and any number of routines that only read, as tasks beside the pager's thread. The length of
the file is only used by the insertion, so it does not matter that a write stores it after the page: seen
by one of the readers the run is a race on the pager whose writes take one step (`exists_race`). What is
known of such races holds for the bytes of the disk, the checksums, the channel and the thread
(`lookups_beside_insert`).
-/

namespace KsSql

open BPlusTree PageProgram

variable {α ι : Type} [DecidableEq ι]

/-- Where the task of a routine that writes stands, when the pager whose writes take one step is at `s`
and `p` is left of the routine: before `p`, or in the second or third part of the write in front
of it. -/
inductive WriterAt (p : Program Bytes Bytes α) :
    BPlusTree Bytes Bytes → NodeTask (Except StorageError α) → BPlusTree Bytes Bytes → Prop
  | ready (t : BPlusTree Bytes Bytes) : WriterAt p t (NodeTask.ofProgram p) t
  | written (pageId : Nat) (t : BPlusTree Bytes Bytes) :
      WriterAt p
        { t with pager := { t.pager with
          fileLength := if pageId * pageSize ≥ t.pager.fileLength then pageId * pageSize + pageSize
            else t.pager.fileLength } }
        (.access .loadLength fun (currentLen : Nat) ↦
          if pageId * pageSize ≥ currentLen then
            .access (.storeLength (pageId * pageSize + pageSize)) fun _ ↦ NodeTask.ofProgram p
          else NodeTask.ofProgram p) t
  | storing (length : Nat) (t : BPlusTree Bytes Bytes) :
      WriterAt p { t with pager := { t.pager with fileLength := length } }
        (.access (.storeLength length) fun _ ↦ NodeTask.ofProgram p) t

/-- The pages are the same on both pagers. -/
theorem WriterAt.pages {p : Program Bytes Bytes α} {s t : BPlusTree Bytes Bytes}
    {q : NodeTask (Except StorageError α)} (h : WriterAt p s q t) :
    s.pager.pages = t.pager.pages := by
  cases h <;> rfl

/-- A step of the writing task is a step of its routine, or is not seen by it. -/
theorem WriterAt.step {p : Program Bytes Bytes α} {s t t' : BPlusTree Bytes Bytes}
    {q q' : NodeTask (Except StorageError α)} (h : WriterAt p s q t)
    (hstep : nodeService.step q t = some (q', t')) :
    WriterAt p s q' t' ∨
      ∃ p' s', (pagerDevice Bytes Bytes).step p s = some (p', s') ∧ WriterAt p' s' q' t' := by
  cases h with
  | ready t =>
    refine Or.inr ?_
    cases p with
    | done a => cases hstep
    | fail e => cases hstep
    | read pageId next =>
      cases hstep
      exact ⟨_, _, rfl, .ready _⟩
    | write pageId n next =>
      cases hstep
      exact ⟨_, _, rfl, .written pageId (nodeService.handle (.write pageId n) s).2⟩
    | log pageId n next =>
      cases hstep
      show ∃ p' s', (pagerDevice Bytes Bytes).step (.log pageId n next) s = some (p', s') ∧
        WriterAt p' s' (NodeTask.propagate (s.enqueue pageId n).1 (NodeTask.ofProgram next))
          (s.enqueue pageId n).2
      rw [Device.step, pagerDevice, BPlusTree.enqueue]
      dsimp only
      rcases s.wal.enqueue (.pageUpdate pageId n) with e | wal
      · exact ⟨_, _, rfl, .ready _⟩
      · exact ⟨_, _, rfl, .ready _⟩
    | numPages next =>
      cases hstep
      exact ⟨_, _, rfl, .ready _⟩
  | written pageId =>
    cases hstep
    refine Or.inl ?_
    show WriterAt p
      { t with pager := { t.pager with
        fileLength := if pageId * pageSize ≥ t.pager.fileLength then pageId * pageSize + pageSize
          else t.pager.fileLength } }
      (if pageId * pageSize ≥ t.pager.fileLength then
        .access (.storeLength (pageId * pageSize + pageSize)) fun _ ↦ NodeTask.ofProgram p
      else NodeTask.ofProgram p) t
    split
    · exact .storing _ t
    · exact .ready t
  | storing length =>
    cases hstep
    exact Or.inl (.ready _)

/-- What a reader and the writer are doing, in a race on the pager whose writes take one step. -/
structure Raced (writer : Program Bytes Bytes α) (reader : Program Bytes Bytes α)
    (t : BPlusTree Bytes Bytes) (w i : ι)
    (y : (ι → NodeTask (Except StorageError α)) × BPlusTree Bytes Bytes)
    (p q : Program Bytes Bytes α) (s : BPlusTree Bytes Bytes) : Prop where
  race : Race.Runs (pagerDevice Bytes Bytes).step (pagerDevice Bytes Bytes).step
    (writer, reader, t) (p, q, s)
  writes : WriterAt p s (y.1 w) y.2
  readOnly : q.ReadOnly
  reads : y.1 i = NodeTask.ofProgram q
  readers : ∀ j, j ≠ w → ∃ r : Program Bytes Bytes α, r.ReadOnly ∧ y.1 j = NodeTask.ofProgram r

/-- A task whose routine only reads takes its steps by reading. -/
theorem nodeStep_of_readOnly {p : Program Bytes Bytes α} {q : NodeTask (Except StorageError α)}
    {t t' : BPlusTree Bytes Bytes} (hp : p.ReadOnly)
    (hstep : nodeService.step (NodeTask.ofProgram p) t = some (q, t')) :
    t' = t ∧ ∃ pageId next, p = .read pageId next ∧
      q = NodeTask.ofProgram (next (t.pager.pages pageId)) := by
  cases p with
  | done a => cases hstep
  | fail e => cases hstep
  | read pageId next =>
    cases hstep
    exact ⟨rfl, pageId, next, rfl, rfl⟩
  | write pageId n next => exact hp.elim
  | log pageId n next => exact hp.elim
  | numPages next => exact hp.elim

/-- A routine whose task is over is over. -/
theorem NodeTask.over_of_done {p : Program Bytes Bytes α} {outcome : Except StorageError α}
    (h : ofProgram p = .done outcome) :
    (∃ a, p = .done a ∧ outcome = .ok a) ∨ ∃ e, p = .fail e ∧ outcome = .error e := by
  cases p with
  | done a =>
    cases h
    exact Or.inl ⟨a, rfl, rfl⟩
  | fail e =>
    cases h
    exact Or.inr ⟨e, rfl, rfl⟩
  | read pageId next => cases h
  | write pageId n next => cases h
  | log pageId n next => cases h
  | numPages next => cases h

/-- **Seen by one of the readers, a run is a race** with the writer on the pager whose writes take one
step. -/
theorem exists_race {routines : ι → Program Bytes Bytes α} {w i : ι} (hi : i ≠ w)
    (hread : ∀ j, j ≠ w → (routines j).ReadOnly) {t : BPlusTree Bytes Bytes}
    {y : (ι → NodeTask (Except StorageError α)) × BPlusTree Bytes Bytes}
    (hruns : Relation.ReflTransGen nodeService.Atomic (fun j ↦ NodeTask.ofProgram (routines j), t) y) :
    ∃ p q s, Raced (routines w) (routines i) t w i y p q s := by
  refine Service.atomic_invariant (J := fun y ↦ ∃ p q s, Raced (routines w) (routines i) t w i y p q s)
    (fun x z hstep hx ↦ ?_) hruns ⟨routines w, routines i, t, .refl, .ready t, hread i hi, rfl,
      fun j hj ↦ ⟨routines j, hread j hj, rfl⟩⟩
  obtain ⟨p, q, s, hraced⟩ := hx
  cases hstep with
  | @step j tasks r u u' hj =>
    rcases eq_or_ne j w with rfl | hjw
    · -- the writer's step
      have hreads : Function.update tasks j r i = NodeTask.ofProgram q := by
        rw [Function.update_of_ne hi]
        exact hraced.reads
      have hreaders : ∀ k, k ≠ j → ∃ r' : Program Bytes Bytes α, r'.ReadOnly ∧
          Function.update tasks j r k = NodeTask.ofProgram r' := by
        intro k hk
        rw [Function.update_of_ne hk]
        exact hraced.readers k hk
      have hwrites : ∀ {p s}, WriterAt p s r u' →
          WriterAt p s (Function.update tasks j r j) u' := by
        intro p s h
        rwa [Function.update_self]
      rcases hraced.writes.step hj with hwriter | ⟨p', s', hdevice, hwriter⟩
      · exact ⟨p, q, s, hraced.race, hwrites hwriter, hraced.readOnly, hreads, hreaders⟩
      · exact ⟨p', q, s', hraced.race.tail (.left hdevice), hwrites hwriter, hraced.readOnly, hreads,
          hreaders⟩
    · -- a reader's step
      obtain ⟨r₀, hr₀, htask⟩ := hraced.readers j hjw
      have hread : u' = u ∧ ∃ r' : Program Bytes Bytes α, r'.ReadOnly ∧ r = NodeTask.ofProgram r' := by
        rw [show tasks j = NodeTask.ofProgram r₀ from htask] at hj
        obtain ⟨rfl, pageId, next, rfl, rfl⟩ := nodeStep_of_readOnly hr₀ hj
        exact ⟨rfl, _, hr₀ _, rfl⟩
      obtain ⟨rfl, r', hr', hrest⟩ := hread
      have hreaders : ∀ k, k ≠ w → ∃ r'' : Program Bytes Bytes α, r''.ReadOnly ∧
          Function.update tasks j r k = NodeTask.ofProgram r'' := by
        intro k hk
        rcases eq_or_ne k j with rfl | hkj
        · exact ⟨r', hr', (Function.update_self ..).trans hrest⟩
        · rw [Function.update_of_ne hkj]
          exact hraced.readers k hk
      have hwrites : WriterAt p s (Function.update tasks j r w) u' := by
        rw [Function.update_of_ne hjw.symm]
        exact hraced.writes
      rcases eq_or_ne i j with rfl | hij
      · rw [show tasks i = NodeTask.ofProgram q from hraced.reads] at hj
        obtain ⟨-, pageId, next, rfl, rfl⟩ := nodeStep_of_readOnly hraced.readOnly hj
        have hpages : s.pager.pages pageId = u'.pager.pages pageId :=
          congrFun hraced.writes.pages pageId
        have hdevice : (pagerDevice Bytes Bytes).step (.read pageId next) s =
            some (next (u'.pager.pages pageId), s) := by
          rw [← hpages]
          rfl
        exact ⟨p, next (u'.pager.pages pageId), s, hraced.race.tail (.right hdevice), hwrites,
          hraced.readOnly _, Function.update_self .., hreaders⟩
      · exact ⟨p, q, s, hraced.race, hwrites, hraced.readOnly,
          (Function.update_of_ne hij ..).trans hraced.reads, hreaders⟩

/-- An insertion, and lookups, each with a number of steps. -/
def insertAndLookups (bs : BinarySearch Bytes) (t : BPlusTree Bytes Bytes) (k v : Bytes)
    (fuel : ι → Nat) (key : ι → Bytes) : Option ι → Program Bytes Bytes (Option Bytes)
  | none => insertProgram bs t.fuel k v >>= fun _ ↦ .done none
  | some i => getLoop bs (key i) (fuel i) rootPageId

omit [DecidableEq ι] in
theorem readOnly_insertAndLookups {bs : BinarySearch Bytes} {t : BPlusTree Bytes Bytes} {k v : Bytes}
    {fuel : ι → Nat} {key : ι → Bytes} {j : Option ι} (hj : j ≠ none) :
    (insertAndLookups bs t k v fuel key j).ReadOnly := by
  obtain ⟨i, rfl⟩ := Option.ne_none_iff_exists'.1 hj
  exact readOnly_getLoop bs (key i) (fuel i) rootPageId

omit [DecidableEq ι] in
theorem treeRoutine_insertAndLookups {bs : BinarySearch Bytes} {t : BPlusTree Bytes Bytes}
    {k v : Bytes} {fuel : ι → Nat} {key : ι → Bytes} (j : Option ι) :
    TreeRoutine bs (insertAndLookups bs t k v fuel key j) := by
  rcases j with - | i
  · exact .insert t.fuel k v none
  · exact .reader (readOnly_insertAndLookups (Option.some_ne_none i))

/-- **Every tree that insertions grew can be on a disk.** -/
theorem BPlusTree.Grown.exists_represents {bs : BinarySearch Bytes} {tier : MemoryTier Bytes Bytes}
    {step : BPlusTree Bytes Bytes → Bytes → Bytes → Prop} {t : BPlusTree Bytes Bytes}
    (h : t.Grown bs tier step) : ∃ disk : Disk, disk.Represents t := by
  suffices hfile : ∃ f : PageFile, f.Represents t.pager from
    hfile.imp' (fun f ↦ { pageFile := f, wal := t.wal }) fun _ ↦ Disk.represents_of_pageFile
  induction h with
  | empty =>
    exact PageFile.represents_opened_nil.exists_writePage (n := .newLeaf)
      ⟨fun c hc ↦ absurd hc List.not_mem_nil, fun p hp ↦ absurd hp (Option.not_mem_none p)⟩
      (by decide) rootPageId
  | insert k v _ _ ih => exact (keepsIds_insertProgram bs _).exists_represents ih
  | log wal _ ih => exact ih

/-- The tree with one binding. -/
def oneBinding : BPlusTree Bytes Bytes := ((openEmpty (MemoryTier.new 1024)).insert .std [1] [2]).2

end KsSql
