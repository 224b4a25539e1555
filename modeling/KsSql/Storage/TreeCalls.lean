import KsSql.Storage.LeafWalk
import KsSql.Storage.TreeRun

/-!
# Calls of the tree

Any sequence of `insert` and `get` calls on a tree that was opened on an empty file. Each insertion finds
the queue as other threads have left it, so it may be refused at any of its `save_node` calls, as it may
be when a node does not fit, and the calls behind it go on with the pages that it has left.

An operation that indexes out of range panics in the model, a descent that reads a blank page does so at
once, because such a page decodes as an internal node without children, and a descent that never ends
diverges. No call does any of this (`calls_never_stuck`).
-/

namespace KsSql

open BPlusTree

/-- A call. -/
inductive TreeCall (K V : Type)
  /-- `BPlusTree::insert`, which finds this log and queue. -/
  | insert (wal : Wal K V) (key : K) (value : V)
  /-- `BPlusTree::get` -/
  | get (key : K)

namespace BPlusTree

variable {K V : Type} [ByteLen K] [ByteLen V] [LinearOrder K] (bs : BinarySearch K)

/-- Make a call. -/
def call (t : BPlusTree K V) : TreeCall K V → Except StorageError (Option V) × BPlusTree K V
  | .insert wal key value =>
    let (outcome, t) := insert bs { t with wal := wal } key value
    (outcome.map fun _ ↦ none, t)
  | .get key => (t.get bs key, t)

/-- The answers to calls made one after another, and the tree behind them. -/
def callAll (t : BPlusTree K V) :
    List (TreeCall K V) → List (Except StorageError (Option V)) × BPlusTree K V
  | [] => ([], t)
  | c :: calls =>
    let (answer, t) := t.call bs c
    let (answers, t) := t.callAll calls
    (answer :: answers, t)

variable {bs} {t : BPlusTree K V}

theorem callAll_cons (c : TreeCall K V) (calls : List (TreeCall K V)) :
    t.callAll bs (c :: calls) =
      ((t.call bs c).1 :: ((t.call bs c).2.callAll bs calls).1,
        ((t.call bs c).2.callAll bs calls).2) := rfl

theorem pagesBelow_of_call {c : TreeCall K V} (hb : (t.call bs c).2.PagesBelow) : t.PagesBelow := by
  cases c with
  | insert wal key value =>
    exact guard_pagesBelow.run (s := { t with wal := wal })
      (insertProgram bs (fuel { t with wal := wal }) key value) hb
  | get key => exact hb

/-- The bound on pages held before every call of a run that ends inside it. -/
theorem pagesBelow_of_callAll : ∀ {calls : List (TreeCall K V)} {t : BPlusTree K V},
    (t.callAll bs calls).2.PagesBelow → t.PagesBelow
  | [], _, hb => hb
  | _ :: _, _, hb => by
    rw [callAll_cons] at hb
    exact pagesBelow_of_call (pagesBelow_of_callAll hb)

/-- **A call** of a sound tree is answered, or refused for the size of a node or a full queue, and
leaves a sound tree. -/
theorem Sound.call (ht : Sound (fun _ _ ↦ True) t) (c : TreeCall K V)
    (hb : (t.call bs c).2.PagesBelow) :
    Sound (fun _ _ ↦ True) (t.call bs c).2 ∧ ∀ e, (t.call bs c).1 = .error e → Refusal e := by
  cases c with
  | insert wal key value =>
    have hwal : Sound (fun _ _ ↦ True) { t with wal := wal } := ht.congr rfl
    change (insert bs { t with wal := wal } key value).2.PagesBelow at hb
    obtain ⟨hsound, hrefusal⟩ := insert_sound bs hwal trivial hb
    refine ⟨hsound, fun e he ↦ hrefusal e ?_⟩
    change (insert bs { t with wal := wal } key value).1.map _ = .error e at he
    rcases houtcome : (insert bs { t with wal := wal } key value).1 with e' | u
    · rw [houtcome] at he
      exact congrArg Except.error (Except.error.inj he)
    · rw [houtcome] at he
      cases he
  | get key =>
    refine ⟨ht, fun e he ↦ ?_⟩
    change t.get bs key = .error e at he
    rw [BPlusTree.get] at he
    split at he
    · cases he
    · obtain ⟨r, hr, -⟩ := getPages_sound bs ht key
      rw [hr] at he
      cases he

/-- **Calls** of a sound tree are answered or refused. -/
theorem Sound.callAll : ∀ {calls : List (TreeCall K V)} {t : BPlusTree K V},
    Sound (fun _ _ ↦ True) t → (t.callAll bs calls).2.PagesBelow →
      ∀ e, .error e ∈ (t.callAll bs calls).1 → Refusal e
  | [], _, _, _, _, he => nomatch he
  | c :: calls, t, ht, hb, e, he => by
    rw [callAll_cons] at hb he
    have hbelow : (t.call bs c).2.PagesBelow := pagesBelow_of_callAll hb
    obtain ⟨hsound, hrefusal⟩ := ht.call c hbelow
    rcases List.mem_cons.1 he with heq | hmem
    · exact hrefusal e heq.symm
    · exact Sound.callAll hsound hb e hmem

variable (bs) in
/-- **No call panics, and none runs for ever**, whatever was refused before it, while fewer than
`2 ^ 32` pages were handed out. -/
theorem calls_never_stuck (tier : MemoryTier K V) (calls : List (TreeCall K V))
    (hb : ((openEmpty tier).callAll bs calls).2.PagesBelow) :
    ∀ answer ∈ ((openEmpty tier).callAll bs calls).1,
      answer ≠ .error .panicked ∧ answer ≠ .error .diverged := by
  intro answer hanswer
  have hrefusal := (sound_openEmpty (R := fun _ _ ↦ True) tier).callAll hb
  refine ⟨fun h ↦ ?_, fun h ↦ ?_⟩
  · rcases hrefusal .panicked (h ▸ hanswer) with h | h <;> cases h
  · rcases hrefusal .diverged (h ▸ hanswer) with h | h <;> cases h

/-- A value that does not fit, a binding, and a look for it. -/
def refusedFirst : List (TreeCall Bytes Bytes) :=
  [.insert {} [1] (List.replicate 5000 0), .insert {} [1] [2], .get [1]]

theorem calls_never_stuck_refusedFirst :
    ((openEmpty (MemoryTier.new 1024)).callAll .std refusedFirst).1 =
      [.error .nodeTooLarge, .ok none, .ok (some [2])] ∧
    ∀ answer ∈ ((openEmpty (MemoryTier.new 1024)).callAll .std refusedFirst).1,
      answer ≠ .error .panicked ∧ answer ≠ .error .diverged :=
  ⟨by decide +kernel, calls_never_stuck .std (MemoryTier.new 1024) refusedFirst
    (Nat.lt_of_lt_of_eq (by decide +kernel : _ < 4294967296) (by decide))⟩

end BPlusTree

end KsSql
