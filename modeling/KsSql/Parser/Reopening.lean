import KsSql.Parser.Pipeline
import KsSql.Parser.Restart
import KsSql.Storage.PageReplay

/-!
# What a restart finds under a key

A record update leaves the queue for the log, by a flush, or for the tree, by the drain thread. A
restart looks in the log first. So the newest record under a key is found if the records keep their
order on the way, which is what `KeepsOrder` asks of each step: then the newest one in the queue, in the
log, with the drain thread or in the tree, in this order, is what it should be (`Traced`), and a restart
from a settled state finds it (`Traced.fetch`).

In a run without `FLUSH` it is the one that was enqueued last (`reopen_finds_last`). The drain thread
breaks it by taking a record past an older one that was flushed (`not_reopen_finds_last`).
-/

namespace KsSql

open BPlusTree

namespace Engine

variable {rt : Runtime} {N : Bytes → Prop} {command : Command} {conn : Nat} {e u : Engine}

/-- The data hold the catalogue; where there are none, it is empty. -/
def HoldsCatalogue (schemas : HashMap Bytes TableSchema) : Option Data → Prop
  | none => schemas = ∅
  | some data => ∃ r, data = .record r ∧ r.value = .schemas schemas

/-! ### `CREATE TABLE` -/

/-- **`CREATE TABLE`** puts the catalogue into the tree, unless it fails. -/
theorem wp_createTable_stores {name : Bytes} {columns : List ColumnDef} :
    Effect.wp (createTable rt name columns)
      (fun _ u ↦ ∃ data, HoldsCatalogue u.schemas (some data) ∧
        (e.btree.insert rt.search schemasKey data).1 = .ok () ∧
          u.btree = (e.btree.insert rt.search schemasKey data).2)
      (fun err _ ↦ occursIn (bytes "conflict") err.message = false) e := by
  refine Effect.wp_bind (Effect.wp_modify (Effect.wp_bind (Effect.wp_bind (Effect.wp_get
    (Effect.wp_bind (Effect.wp_modify (Effect.wp_pure ?_)))))))
  let tables := e.schemas.insert name (newSchema rt name columns)
  let data : Data := .record ⟨.schemas tables, e.currentVersion, false, rt.timestamp e.ticks⟩
  have hholds : HoldsCatalogue tables (some data) := ⟨_, rfl, rfl⟩
  refine Effect.wp_bind (wp_insertTree
    (fun hok ↦ Effect.wp_pure ⟨data, hholds, hok, rfl⟩) fun err ↦ ?_)
  cases err <;> decide

/-- What a `CREATE TABLE` leaves that is done. -/
theorem execute_createTable_stores {name : Bytes} {columns : List ColumnDef} {u : Engine}
    (hu : (execute rt (.statement (.createTable name columns)) conn e).2 = u)
    (hok : (execute rt (.statement (.createTable name columns)) conn e).1.isOk = true) :
    ∃ data, HoldsCatalogue u.schemas (some data) ∧
      (e.btree.insert rt.search schemasKey data).1 = .ok () ∧
        u.btree = (e.btree.insert rt.search schemasKey data).2 := by
  subst hu
  have hwp : Effect.wp (executeStatement rt (.createTable name columns) conn) _ _ e :=
    wp_createTable_stores
  have hexecute : execute rt (.statement (.createTable name columns)) conn e =
      executeStatement rt (.createTable name columns) conn e :=
    executeRetrying_eq (fun err u hrun ↦ Effect.of_wp_error hwp hrun) 5
  rw [hexecute] at hok ⊢
  rcases hrun : executeStatement rt (.createTable name columns) conn e with ⟨err | reply, u⟩
  · rw [hrun] at hok
    cases hok
  · exact Effect.of_wp_ok hwp hrun

/-- A command other than `CREATE TABLE` puts records into the queue, and leaves the pages as they are. -/
theorem Progress.pushes (h : Progress rt N command conn e u)
    (hcommand : ∀ name columns, command ≠ .statement (.createTable name columns)) :
    u.btree.pager = e.btree.pager ∧ ∃ new, (∀ x ∈ new, ∃ key data, x = .recordUpdate key data) ∧
      u.btree.wal = { e.btree.wal with
        queue := e.btree.wal.queue ++ new, enqueued := e.btree.wal.enqueued ++ new } := by
  induction h with
  | refl => exact ⟨rfl, [], fun _ hx ↦ (nomatch hx), by simp only [List.append_nil]⟩
  | tail _ hstep ih =>
    obtain ⟨hpager, new, hnew, hwal⟩ := ih
    cases hstep with
    | storeSchemas tables timestamp hcreate =>
      obtain ⟨name, columns, rfl⟩ := hcreate
      exact absurd rfl (hcommand name columns)
    | push key data =>
      refine ⟨hpager, new ++ [.recordUpdate key data], fun x hx ↦ ?_, ?_⟩
      · rcases List.mem_append.1 hx with hx | hx
        · exact hnew x hx
        · exact ⟨key, data, List.mem_singleton.1 hx⟩
      · rw [pushed, hwal]
        simp only [List.append_assoc]
    | _ => exact ⟨hpager, new, hnew, hwal⟩

end Engine

/-- A step of a thread beside the statements. None of them discards what is in the queue. -/
def Action.Background : Action → Prop
  | .call _ _ => False
  | .discardRound => False
  | _ => True

namespace System

open Engine

variable {rt : Runtime} {s s' : System} {key : Bytes} {P : Engine → Option Data → Prop}

/-- The newest record under a key, given the one in the tree: whatever is still in the queue comes
before what the log holds, and that before what the drain thread holds. -/
def newestUnder (s : System) (key : Bytes) (inTree : Option Data) : Option Data :=
  (newestUpdate s.engine.btree.wal.queue key).or
    ((newestUpdate s.engine.btree.wal.logged key).or ((newestUpdate s.drain.entries key).or inTree))

/-- A step keeps the order of the records under a key: the drain thread does not take the last one from
the queue while an older one is in the log. And no insertion into the tree is refused, or splits a node
at a key that is a separator already. -/
def KeepsOrder (rt : Runtime) (key : Bytes) (s : System) : Action → Prop
  | .call conn (.statement (.createTable name columns)) =>
    (execute rt (.statement (.createTable name columns)) conn s.engine).1.isOk = true ∧
      s.engine.btree.SplitsBelowRoot rt.search (NewSeparator schemasKey) schemasKey
  | .drainPop => match s.engine.btree.wal.queue with
    | [] => True
    | entry :: rest => entry.update key = none ∨ newestUpdate rest key ≠ none ∨
        newestUpdate s.engine.btree.wal.logged key = none
  | .drainApply => match s.drain.entries with
    | .recordUpdate k data :: _ => (s.engine.btree.insert rt.search k data).1 = .ok () ∧
        s.engine.btree.SplitsBelowRoot rt.search (NewSeparator k) k
    | _ => True
  | _ => True

instance : DecidablePred (KeepsOrder rt key s) := fun a ↦ by
  unfold KeepsOrder
  rcases a with ⟨conn, - | - | - | - | stmt⟩ | _
  case call.statement => rcases stmt <;> infer_instance
  case drainPop => rcases s.engine.btree.wal.queue with - | ⟨entry, rest⟩ <;> infer_instance
  case drainApply => rcases s.drain.entries with - | ⟨_ | _, rest⟩ <;> infer_instance
  all_goals infer_instance

/-- Every page is at the newest image of it, the tree is in search-tree order, and the newest record
under the key has the property. -/
structure Traced (rt : Runtime) (key : Bytes) (P : Engine → Option Data → Prop) (s : System) :
    Prop where
  imaged : s.engine.btree.SmallFile → s.engine.btree.Imaged
  newest : s.engine.btree.PagesBelow → ∃ h inTree, SearchTree (· < ·) s.engine.btree h ∧
    s.engine.btree.getPages rt.search key = .ok inTree ∧ P s.engine (s.newestUnder key inTree)

theorem traced_start (h : P start.engine none) : start.Traced rt key P where
  imaged _ := imaged_openEmpty _
  newest _ := by
    obtain ⟨htree, hnil⟩ := searchTree_openEmpty (· < ·) (MemoryTier.new 1024 : MemoryTier Bytes Data)
    have hget : (openEmpty (MemoryTier.new 1024 : MemoryTier Bytes Data)).getPages rt.search key =
        .ok none := by
      rw [getPages_eq_lookup rt.search htree, hnil]
      rfl
    exact ⟨0, none, htree, hget, h⟩

/-- Entries are consumed, or removed from the memory tier. -/
theorem Traced.consume (h : s.Traced rt key P) {u : Engine} {drain : Drain} {phase : Phase}
    (hpager : u.btree.pager = s.engine.btree.pager) (hwal : s.engine.btree.wal.Consumes u.btree.wal)
    (hlogged : u.btree.wal.logged ⊆ s.engine.btree.wal.logged ++ s.engine.btree.wal.queue)
    (hP : ∀ data?, P s.engine data? → P u data?)
    (hnewest : ∀ inTree, newestUnder ⟨u, phase, drain⟩ key inTree = s.newestUnder key inTree) :
    Traced rt key P ⟨u, phase, drain⟩ where
  imaged hsmall := by
    change u.btree.SmallFile at hsmall
    rw [SmallFile, hpager] at hsmall
    have himaged := h.imaged hsmall
    exact himaged.congr hpager hwal.enqueued (List.Subset.trans hwal.queue.subset himaged.queue)
      (List.Subset.trans hlogged (List.append_subset.2 ⟨himaged.logged, himaged.queue⟩))
  newest hb := by
    change u.btree.PagesBelow at hb
    rw [PagesBelow, hpager] at hb
    obtain ⟨height, inTree, htree, hget, hholds⟩ := h.newest hb
    refine ⟨height, inTree, htree.congr hpager, ?_, ?_⟩
    · rw [← hget]
      exact getPages_congr rt.search hpager key
    · rw [hnewest]
      exact hP _ hholds

/-- Record updates are put into the queue. -/
theorem Traced.enqueue (h : s.Traced rt key P) {u : Engine} {phase : Phase}
    {new : List (WalEntry Bytes Data)} (hnew : ∀ x ∈ new, ∃ k data, x = .recordUpdate k data)
    (hpager : u.btree.pager = s.engine.btree.pager)
    (hwal : u.btree.wal = { s.engine.btree.wal with
      queue := s.engine.btree.wal.queue ++ new, enqueued := s.engine.btree.wal.enqueued ++ new })
    (hP : ∀ data?, P s.engine data? → P u ((newestUpdate new key).or data?)) :
    Traced rt key P ⟨u, phase, s.drain⟩ where
  imaged hsmall := by
    change u.btree.SmallFile at hsmall
    rw [SmallFile, hpager] at hsmall
    exact (h.imaged hsmall).enqueued hpager hnew hwal
  newest hb := by
    change u.btree.PagesBelow at hb
    rw [PagesBelow, hpager] at hb
    obtain ⟨height, inTree, htree, hget, hholds⟩ := h.newest hb
    refine ⟨height, inTree, htree.congr hpager, ?_, ?_⟩
    · rw [← hget]
      exact getPages_congr rt.search hpager key
    · show P u ((newestUpdate u.btree.wal.queue key).or ((newestUpdate u.btree.wal.logged key).or
        ((newestUpdate s.drain.entries key).or inTree)))
      rw [hwal, newestUpdate_append, Option.or_assoc]
      exact hP _ hholds

theorem newestUpdate_images {images : List (WalEntry Bytes Data)}
    (h : ∀ x ∈ images, ∃ p n, x = .pageUpdate p n) : newestUpdate images key = none :=
  newestUpdate_eq_none fun x hx ↦ by
    obtain ⟨p, n, rfl⟩ := h x hx
    rfl

/-- A record is inserted into the tree. -/
theorem Traced.insertTree (h : s.Traced rt key P) {k : Bytes} {data : Data} {u : Engine}
    {drain : Drain} {phase : Phase} (hok : (s.engine.btree.insert rt.search k data).1 = .ok ())
    (hsplits : s.engine.btree.SplitsBelowRoot rt.search (NewSeparator k) k)
    (hu : u.btree = (s.engine.btree.insert rt.search k data).2)
    (hP : ∀ inTree, P s.engine (s.newestUnder key inTree) →
      P u ((newestUpdate s.engine.btree.wal.queue key).or
        ((newestUpdate s.engine.btree.wal.logged key).or ((newestUpdate drain.entries key).or
          (((WalEntry.recordUpdate k data : WalEntry Bytes Data).update key).or inTree))))) :
    Traced rt key P ⟨u, phase, drain⟩ where
  imaged hsmall := by
    change u.btree.SmallFile at hsmall
    change u.btree.Imaged
    rw [hu] at hsmall ⊢
    exact Imaged.insert h.imaged k data hsmall
  newest hb := by
    change u.btree.PagesBelow at hb
    rw [hu] at hb
    obtain ⟨height, inTree, htree, hget, hholds⟩ := h.newest (guard_pagesBelow.run _ hb)
    obtain ⟨height', htree', hlookup⟩ := getPages_insert_eq_ite rt.search htree hsplits hok hb
    obtain ⟨images, himages, hwal⟩ := (insert_frame rt.search s.engine.btree k data).wal
    refine ⟨height', ((WalEntry.recordUpdate k data : WalEntry Bytes Data).update key).or inTree,
      hu ▸ htree', ?_, ?_⟩
    · show u.btree.getPages rt.search key = _
      rw [hu, hlookup, WalEntry.update]
      by_cases hk : k = key
      · rw [if_pos hk, if_pos hk.symm]
        rfl
      · rw [if_neg hk, if_neg (Ne.symm hk), hget]
        rfl
    · show P u ((newestUpdate u.btree.wal.queue key).or ((newestUpdate u.btree.wal.logged key).or
        ((newestUpdate drain.entries key).or _)))
      rw [hu, hwal, newestUpdate_append, newestUpdate_images himages, Option.none_or]
      exact hP _ hholds

variable [Bincode (WalEntry Bytes Data)]

/-- **A background step** that keeps the order of the records leaves the newest one where it is looked
for first. -/
theorem Traced.background {a : Action} (ha : a.Background) (hkeeps : s.KeepsOrder rt key a)
    (hP : ∀ e u, newestUpdate u.btree.wal.enqueued key = newestUpdate e.btree.wal.enqueued key →
      u.schemas = e.schemas → ∀ data?, P e data? → P u data?)
    (h : s.Traced rt key P) (hstep : s.step rt a = some s') : s'.Traced rt key P := by
  cases Step.of_step hstep with
  | flushRound f discard phase _ =>
    have hconsumes := Wal.consumes_flushRound (w := s.engine.btree.wal) f
    refine h.consume rfl hconsumes (Wal.flushRound_logged f)
      (hP _ _ (congrArg (newestUpdate · key) hconsumes.enqueued) rfl) fun inTree ↦ ?_
    show (newestUpdate (s.engine.btree.wal.flushRound f).1.queue key).or
      ((newestUpdate (s.engine.btree.wal.flushRound f).1.logged key).or _) = _
    rw [newestUnder]
    rcases Wal.flushRound_cases (w := s.engine.btree.wal) f with ⟨hqueue, hlogged⟩ |
      ⟨entry, hqueue, hlogged⟩
    · rw [hqueue, hlogged]
      rfl
    · rw [hlogged, hqueue, newestUpdate_cons, newestUpdate_append, newestUpdate_singleton,
        Option.or_assoc, Option.or_assoc]
      rfl
  | drainPop entry wal heq =>
    obtain ⟨hconsumes, hqueue⟩ := Wal.consumes_popEntry heq
    have hlogged : wal.logged = s.engine.btree.wal.logged := Wal.popEntry_logged heq
    refine h.consume rfl hconsumes (hlogged ▸ List.subset_append_left _ _)
      (hP _ _ (congrArg (newestUpdate · key) hconsumes.enqueued) rfl) fun inTree ↦ ?_
    rw [KeepsOrder, hqueue] at hkeeps
    show (newestUpdate wal.queue key).or ((newestUpdate wal.logged key).or
      ((newestUpdate (s.drain.entries ++ [entry]) key).or inTree)) = _
    rw [newestUnder, hqueue, newestUpdate_cons, newestUpdate_append, newestUpdate_singleton, hlogged]
    rcases hkeeps with hnone | hrest | hnone
    · rw [hnone, Option.or_none, Option.none_or]
    · obtain ⟨data, hdata⟩ := Option.ne_none_iff_exists'.1 hrest
      rw [hdata]
      rfl
    · rw [hnone, Option.none_or, Option.none_or, Option.or_assoc, Option.or_assoc]
  | drainStart => exact ⟨h.imaged, h.newest⟩
  | drainApply entry rest hentries =>
    rw [KeepsOrder, hentries] at hkeeps
    -- what is no record is passed over
    have hpassed : entry.update key = none →
        Traced rt key P { s with drain := { s.drain with entries := rest } } := fun hnone ↦ by
      refine h.consume rfl (.refl s.engine.btree.wal) (List.subset_append_left _ _)
        (fun _ h ↦ h) fun inTree ↦ ?_
      show _ = (newestUpdate _ key).or ((newestUpdate _ key).or
        ((newestUpdate s.drain.entries key).or inTree))
      rw [hentries, newestUpdate_cons, hnone, Option.or_none]
      rfl
    cases entry with
    | recordUpdate k data =>
      refine h.insertTree hkeeps.1 hkeeps.2 rfl fun inTree hbefore ↦ ?_
      rw [newestUnder, hentries, newestUpdate_cons, Option.or_assoc] at hbefore
      refine hP s.engine (applyEntry rt s.engine (.recordUpdate k data)) ?_ rfl _ hbefore
      obtain ⟨images, himages, hwal⟩ := (insert_frame rt.search s.engine.btree k data).wal
      show newestUpdate (s.engine.btree.insert rt.search k data).2.wal.enqueued key = _
      rw [hwal, newestUpdate_append, newestUpdate_images himages, Option.none_or]
    | _ => exact hpassed rfl
  | drainEnd hentries =>
    refine h.consume rfl (.refl s.engine.btree.wal) (List.subset_append_left _ _) (fun _ h ↦ h)
      fun inTree ↦ ?_
    show _ = (newestUpdate _ key).or ((newestUpdate _ key).or
      ((newestUpdate s.drain.entries key).or inTree))
    rw [hentries]
    rfl
  | writeBatch =>
    have hlogged : s.engine.btree.wal.writeBatch.logged = s.engine.btree.wal.logged :=
      Wal.writeBatch_logged
    have hconsumes := Wal.consumes_writeBatch (w := s.engine.btree.wal)
    refine h.consume rfl hconsumes (by rw [hlogged]; exact List.subset_append_left _ _)
      (hP _ _ (congrArg (newestUpdate · key) hconsumes.enqueued) rfl) fun inTree ↦ ?_
    show (newestUpdate s.engine.btree.wal.writeBatch.queue key).or
      ((newestUpdate s.engine.btree.wal.writeBatch.logged key).or _) = _
    rw [Wal.writeBatch_queue, hlogged]
    rfl
  | evict keys =>
    exact h.consume rfl (.refl s.engine.btree.wal) (List.subset_append_left _ _)
      (hP _ _ rfl rfl) fun _ ↦ rfl
  | purge =>
    exact h.consume rfl (.refl s.engine.btree.wal) (List.subset_append_left _ _)
      (hP _ _ rfl rfl) fun _ ↦ rfl
  | _ => exact ha.elim

/-! ### The restart -/

/-- A state to restart from: the queue is empty, the drain thread does not hold a record under the key,
the log gives back what was logged, with the newest image of each page that it has one of, and the
memory tier has room for it. -/
structure Settled (key : Bytes) (s : System) : Prop where
  queue : s.engine.btree.wal.queue = []
  drained : newestUpdate s.drain.entries key = none
  recovered : Wal.recover s.engine.btree.wal.file = s.engine.btree.wal.logged
  images : s.engine.btree.NewestLogged
  room : (MemoryTier.new 1024 : MemoryTier Bytes Data).HasRoom s.engine.btree.wal.logged.length

/-- **A restart** finds the newest record under the key, and reads the rest of the tree as before. -/
theorem Traced.fetch (h : s.Traced rt key P) (hsettled : s.Settled key)
    (hpages : s.engine.btree.PagesBelow) (hsmall : s.engine.btree.SmallFile) :
    (∃ data?, (s.engine.openFiles rt).fetch rt key = .ok data? ∧ P s.engine data?) ∧
      ∀ k, ∃ data?, (s.engine.openFiles rt).fetch rt k = .ok data? := by
  obtain ⟨height, inTree, htree, hget, hholds⟩ := h.newest hpages
  have hrecovered := hsettled.recovered
  have himaged := h.imaged hsmall
  let e := s.engine.openFiles rt
  have htier : ∀ k, e.btree.memoryTier.get k = newestUpdate s.engine.btree.wal.logged k := fun k ↦ by
    rw [← hrecovered]
    exact get_reopen _ _ (hrecovered ▸ hsettled.room) k
  have hread : ∀ k, e.btree.getPages rt.search k = s.engine.btree.getPages rt.search k := by
    have hsame := himaged.pages_reopen hsmall hsettled.images
      (fun n ↦ rt.nanos (s.engine.ticks + n)) (MemoryTier.new 1024)
    have hlength := (himaged.reopen hsmall (fun n ↦ rt.nanos (s.engine.ticks + n))
      (MemoryTier.new 1024)).2
    rw [← hrecovered] at hsame hlength
    exact getPages_congr_pages rt.search hsame hlength
  constructor
  · rw [newestUnder, hsettled.queue, hsettled.drained] at hholds
    refine ⟨_, ?_, hholds⟩
    show e.fetch rt key = _
    rw [Engine.fetch, BPlusTree.get, htier, hread, hget]
    show _ = Except.ok ((newestUpdate s.engine.btree.wal.logged key).or inTree)
    rcases newestUpdate s.engine.btree.wal.logged key <;> rfl
  · intro k
    show ∃ data?, e.fetch rt k = .ok data?
    rw [Engine.fetch, BPlusTree.get, hread, getPages_eq_lookup rt.search htree]
    rcases e.btree.memoryTier.get k with - | data
    · exact ⟨_, rfl⟩
    · exact ⟨_, rfl⟩

/-- A step that does not discard what is in the queue. -/
theorem Traced.step {a : Action} (hinv : s.Inv rt fun _ ↦ True) (ha : a ≠ .discardRound)
    (hkey : key ≠ schemasKey) (hkeeps : s.KeepsOrder rt key a)
    (h : s.Traced rt key fun e data? ↦ data? = newestUpdate e.btree.wal.enqueued key)
    (hstep : s.step rt a = some s') :
    s'.Traced rt key fun e data? ↦ data? = newestUpdate e.btree.wal.enqueued key := by
  have hbackground : a.Background → s'.Traced rt key _ := fun ha ↦
    h.background ha hkeeps (fun e u henqueued _ _ hdata ↦ hdata.trans henqueued.symm) hstep
  cases a with
  | call conn command =>
    cases Step.of_step hstep with
    | call _ _ _ =>
      have hdrain : (s.call rt conn command).drain = s.drain := by
        rw [call]
        split <;> rfl
      have hengine := call_engine rt s conn command
      generalize s.call rt conn command = t at hdrain hengine
      obtain ⟨u, phase, drain⟩ := t
      obtain rfl : drain = s.drain := hdrain
      by_cases hcreate : ∃ name columns, command = .statement (.createTable name columns)
      · obtain ⟨name, columns, rfl⟩ := hcreate
        obtain ⟨data, -, hok, hbtree⟩ := execute_createTable_stores hengine.symm hkeeps.1
        refine h.insertTree hok hkeeps.2 hbtree fun inTree hbefore ↦ ?_
        obtain ⟨images, himages, hwal⟩ := (insert_frame rt.search s.engine.btree schemasKey data).wal
        rw [hbtree, hwal, newestUpdate_append, newestUpdate_images himages, WalEntry.update,
          if_neg hkey.symm]
        exact hbefore
      · obtain ⟨hpager, new, hnew, hwal⟩ :=
          (progress_execute hinv.engine command.columnsIn_true).pushes fun name columns heq ↦
            hcreate ⟨name, columns, heq⟩
        rw [← hengine] at hpager hwal
        refine h.enqueue hnew hpager hwal fun data? hbefore ↦ ?_
        rw [hwal, newestUpdate_append, hbefore]
  | discardRound => exact absurd rfl ha
  | _ => exact hbackground trivial

end System

/-- **A restart finds the last record** that was enqueued under a row key, after every run without
discarding steps that keeps the order of the records under this key. -/
theorem reopen_finds_last {rt : Runtime} [Bincode (WalEntry Bytes Data)] {actions : List Action}
    {s : System} (hrun : System.start.run rt actions = some s) (hqueue : .discardRound ∉ actions)
    {key : Bytes} (hkey : key ≠ schemasKey)
    (hkeeps : System.start.Along rt (System.KeepsOrder rt key) actions) (hsettled : s.Settled key)
    (hpages : s.engine.btree.PagesBelow) (hsmall : s.engine.btree.SmallFile) :
    (s.engine.openFiles rt).fetch rt key = .ok (newestUpdate s.engine.btree.wal.enqueued key) := by
  have hactions : ∀ a ∈ actions, a ≠ .discardRound := fun a ha heq ↦ hqueue (heq ▸ ha)
  obtain ⟨-, htraced⟩ := System.run_along
    (I := fun s ↦ s.Inv rt (fun _ ↦ True) ∧ s.Traced rt key fun e data? ↦
      data? = newestUpdate e.btree.wal.enqueued key)
    (fun s a s' ha hkeeps h hstep ↦
      ⟨(System.step_inv a.columnsIn_true h.1 hstep).1, h.2.step h.1 ha hkey hkeeps hstep⟩)
    hactions hkeeps ⟨System.inv_start, System.traced_start rfl⟩ hrun
  obtain ⟨⟨data?, hfetch, rfl⟩, -⟩ := htraced.fetch hsettled hpages hsmall
  exact hfetch

/-! ### Reopened after updates -/

/-- A step in which nothing is refused, and which discards nothing. -/
def System.Succeeds (rt : Runtime) (s : System) : Action → Prop
  | .call conn command => command ≠ .flush ∧ (Engine.execute rt command conn s.engine).1.isOk = true
  | a => s.LosesNone rt a

instance (rt : Runtime) (s : System) : DecidablePred (s.Succeeds rt) := fun a ↦ by
  unfold System.Succeeds
  rcases a <;> infer_instance

/-- A row is inserted, and an update of it is flushed to the log. -/
def drainThenLog : List Action :=
  [.call 1 (createTableOf "u" ["id"]), .call 1 (insertOf "u" ["2"]), .drainPop, .drainPop, .flushRound,
    .drainStart, .drainApply, .drainApply, .drainApply, .drainPop, .drainStart, .drainApply,
    .drainApply, .call 1 (updateOf "u" "id" "3" none), .flushRound, .flushRound, .writeBatch]

/-- A row is flushed to the log, and the drain thread takes an update of it to the tree. -/
def logThenDrain : List Action :=
  [.call 1 (createTableOf "u" ["id"]), .call 1 (insertOf "u" ["2"]), .flushRound, .flushRound,
    .flushRound, .writeBatch, .call 1 (updateOf "u" "id" "3" none), .drainPop, .flushRound,
    .drainStart, .drainApply, .drainApply, .drainPop, .drainStart, .drainApply, .drainApply]

/-- The update in the log is found. -/
theorem reopen_finds_logged : let _ := encodingOf drainThenLog
    ∃ s, System.start.run .plain drainThenLog = some s ∧
      (s.engine.openFiles .plain).fetch .plain (rowKey (bytes "u") 0) =
        .ok (newestUpdate s.engine.btree.wal.enqueued (rowKey (bytes "u") 0)) := by
  let _ := encodingOf drainThenLog
  obtain ⟨s, hs⟩ : ∃ s, System.start.run .plain drainThenLog = some s :=
    Option.isSome_iff_exists.1 (by decide +kernel)
  have hkeeps : System.start.Along .plain (System.KeepsOrder .plain (rowKey (bytes "u") 0))
      drainThenLog := by decide +kernel
  have hall : (System.start.run .plain drainThenLog).all (fun s ↦
      decide (s.engine.btree.wal.queue = [] ∧
        newestUpdate s.drain.entries (rowKey (bytes "u") 0) = none ∧
        Wal.recover s.engine.btree.wal.file = s.engine.btree.wal.logged ∧
        s.engine.btree.wal.logged.map (WalEntry.update (rowKey (bytes "u") 0)) ≠ [none] ∧
        s.engine.btree.wal.logged.length = 1 ∧ s.engine.btree.pager.handedOut.length < 2 ^ 32 ∧
        s.engine.btree.pager.fileLength = pageSize)) = true := by decide +kernel
  rw [hs, Option.all_some, decide_eq_true_iff] at hall
  obtain ⟨hqueue, hdrained, hrecovered, hlogged, hlength, hpages, hfile⟩ := hall
  obtain ⟨x, hx⟩ := List.length_eq_one_iff.1 hlength
  have himages : s.engine.btree.NewestLogged := by
    intro p n hn
    rw [hx, newestImage_singleton] at hn
    rw [hx] at hlogged
    cases x with
    | pageUpdate => exact absurd rfl hlogged
    | _ => cases hn
  have hroom : (MemoryTier.new 1024 : MemoryTier Bytes Data).HasRoom
      s.engine.btree.wal.logged.length := by
    rw [hlength]
    decide
  have hsmall : s.engine.btree.SmallFile := by
    rw [SmallFile, hfile]
    decide
  have hdiscards : .discardRound ∉ drainThenLog := by simp [drainThenLog]
  exact ⟨s, hs, reopen_finds_last hs hdiscards (rowKey_ne_schemasKey _ _) hkeeps
    ⟨hqueue, hdrained, hrecovered, himages, hroom⟩ hpages hsmall⟩

/-- **A restart goes back in time.** The older record, in the log, hides the newer one, in the tree. -/
theorem not_reopen_finds_last : ¬ ∀ (_ : Bincode (WalEntry Bytes Data)) (rt : Runtime)
    (actions : List Action) (s : System), System.start.run rt actions = some s →
      System.start.Along rt (System.Succeeds rt) actions → s.phase = .idle →
        s.engine.btree.wal.queue = [] → s.engine.btree.wal.sent = [] → s.drain.entries = [] →
          Wal.recover s.engine.btree.wal.file = s.engine.btree.wal.logged →
            s.engine.btree.PagesBelow → s.engine.btree.SmallFile → ∀ t id,
              (s.engine.openFiles rt).fetch rt (rowKey t id) =
                .ok (newestUpdate s.engine.btree.wal.enqueued (rowKey t id)) := by
  intro h
  let _ := encodingOf logThenDrain
  obtain ⟨s, hs⟩ : ∃ s, System.start.run .plain logThenDrain = some s :=
    Option.isSome_iff_exists.1 (by decide +kernel)
  have hsucceeds : System.start.Along .plain (System.Succeeds .plain) logThenDrain := by
    decide +kernel
  have hall : (System.start.run .plain logThenDrain).all (fun s ↦
      decide (s.phase = .idle ∧ s.engine.btree.wal.queue = [] ∧ s.engine.btree.wal.sent = [] ∧
        s.drain.entries = [] ∧ Wal.recover s.engine.btree.wal.file = s.engine.btree.wal.logged ∧
        s.engine.btree.pager.handedOut.length < 2 ^ 32 ∧
        s.engine.btree.pager.fileLength = pageSize ∧
        ((s.engine.openFiles .plain).fetch .plain (rowKey (bytes "u") 0)).toOption ≠
          some (newestUpdate s.engine.btree.wal.enqueued (rowKey (bytes "u") 0)))) = true := by
    decide +kernel
  rw [hs, Option.all_some, decide_eq_true_iff] at hall
  obtain ⟨hphase, hqueue, hsent, hdrain, hrecovered, hpages, hfile, hstale⟩ := hall
  have hsmall : s.engine.btree.SmallFile := by
    rw [SmallFile, hfile]
    decide
  have hfetch := h _ .plain logThenDrain s hs hsucceeds hphase hqueue hsent hdrain hrecovered hpages
    hsmall (bytes "u") 0
  rw [hfetch] at hstale
  exact hstale rfl

end KsSql
