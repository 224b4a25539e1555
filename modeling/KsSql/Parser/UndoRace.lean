import KsSql.Parser.TimeMachine
import Mathlib.Data.Finset.Card

/-!
# Undo beside undo

`Engine::undo` loads the version counter, and decrements it in a step of its own if it was above zero.
Between the two steps other clients go on. `Clients` are any number of them, each in an `undo` behind its
load or between two calls; everything else that touches the counter is one increment.

A client behind its load decrements whatever the counter is by then. So the counter does not go below
zero as long as it is no less than the number of clients behind their loads (`Covered`), and whoever
finds it less can make it go below zero, by letting them all go on (`covered_iff`). A load that finds the
counter above zero, but not above the number of clients that have loaded before, breaks that; so does an
increment that wraps the counter around. In a run without either the counter never goes below zero
(`version_never_below_zero`). Two calls of `undo` at version one are enough for the former
(`not_version_never_below_zero`).
-/

namespace KsSql

open Engine

/-- `current_version.fetch_sub(1)`, a 64-bit subtraction. -/
def Engine.fetchSub (e : Engine) : Engine :=
  { e with
    currentVersion := (e.currentVersion + (2 ^ 64 - 1)) % 2 ^ 64
    history := { e.history with bumps := e.history.bumps + (2 ^ 64 - 1) } }

/-- The decrement of a counter that is above zero. -/
theorem Engine.fetchSub_currentVersion {e : Engine} (hpos : 0 < e.currentVersion)
    (hbound : e.currentVersion < 2 ^ 64) : e.fetchSub.currentVersion = e.currentVersion - 1 := by
  show (e.currentVersion + (2 ^ 64 - 1)) % 2 ^ 64 = e.currentVersion - 1
  omega

/-- An `undo` with nothing between its two steps. -/
theorem Engine.undo_eq_fetchSub {e : Engine} (hbound : e.currentVersion < 2 ^ 64) :
    e.undo = if e.currentVersion > 0 then e.fetchSub else e := by
  rw [undo]
  split
  · rename_i hpos
    rw [← fetchSub_currentVersion hpos hbound]
    rfl
  · rfl

/-- What a statement does to the counter in one step. -/
theorem Engine.Primitive.currentVersion {rt : Runtime} {N : Bytes → Prop} {command : Command}
    {conn : Nat} {e e' : Engine} (h : Primitive rt N command conn e e') :
    e'.currentVersion = e.currentVersion ∨ e'.currentVersion = e.bump.currentVersion := by
  cases h with
  | change key r => exact Or.inr rfl
  | bump hcommit => exact Or.inr rfl
  | _ => exact Or.inl rfl

/-- An atomic step of a client, or of the threads behind the engine. -/
inductive Atomic (ι : Type)
  /-- The load of `undo`. -/
  | load (i : ι)
  /-- The decrement of `undo`. -/
  | fetchSub (i : ι)
  | redo (i : ι)
  /-- A step of a statement, and whether it increments the counter. -/
  | statement (i : ι) (conn : Nat) (command : Command) (increments : Bool)
  /-- A step of the other threads. -/
  | background

/-- The engine and its clients. -/
structure Clients (ι : Type) where
  engine : Engine
  /-- The clients in `undo` that have found the counter above zero. -/
  undoing : Finset ι := ∅

namespace Clients

variable {ι : Type} [DecidableEq ι]

/-- What a step does. A client between the two steps of `undo` does nothing else. -/
def Step (rt : Runtime) (s : Clients ι) : Atomic ι → Clients ι → Prop
  | .load i, s' => i ∉ s.undoing ∧
    s' = if s.engine.currentVersion > 0 then { s with undoing := insert i s.undoing } else s
  | .fetchSub i, s' => i ∈ s.undoing ∧
    s' = { engine := s.engine.fetchSub, undoing := s.undoing.erase i }
  | .redo i, s' => i ∉ s.undoing ∧ s' = { s with engine := s.engine.redo }
  | .statement i conn command increments, s' => i ∉ s.undoing ∧ ∃ e,
    Primitive rt (fun _ ↦ True) command conn s.engine e ∧
      e.currentVersion = (if increments then s.engine.bump else s.engine).currentVersion ∧
      s' = { s with engine := e }
  | .background, s' => ∃ e, e.currentVersion = s.engine.currentVersion ∧ s' = { s with engine := e }

/-- Steps one after another, each of which has the property in the state before it. -/
def Run (rt : Runtime) (P : Clients ι → Atomic ι → Prop) (s : Clients ι) :
    List (Atomic ι) → Clients ι → Prop
  | [], s' => s' = s
  | a :: steps, s' => P s a ∧ ∃ s₁, s.Step rt a s₁ ∧ Run rt P s₁ steps s'

/-- A load finds the counter at zero, or above the number of clients that are going to decrement it; an
increment does not wrap the counter around while there are such clients. -/
def LeavesEnough (s : Clients ι) : Atomic ι → Prop
  | .load _ => s.engine.currentVersion = 0 ∨ s.undoing.card < s.engine.currentVersion
  | .redo _ | .statement _ _ _ true => s.undoing = ∅ ∨ s.engine.currentVersion + 1 < 2 ^ 64
  | .statement _ _ _ false | .fetchSub _ | .background => True

/-- The counter has 64 bits, and is enough for all clients that are going to decrement it. -/
structure Covered (s : Clients ι) : Prop where
  bound : s.engine.currentVersion < 2 ^ 64
  covered : s.undoing.card ≤ s.engine.currentVersion

variable {rt : Runtime} {s s' : Clients ι}

omit [DecidableEq ι] in
theorem Covered.pos (h : s.Covered) {i : ι} (hi : i ∈ s.undoing) : 0 < s.engine.currentVersion :=
  (Finset.card_pos.2 ⟨i, hi⟩).trans_le h.covered

omit [DecidableEq ι] in
/-- An increment. -/
theorem Covered.increment (h : s.Covered)
    (henough : s.undoing = ∅ ∨ s.engine.currentVersion + 1 < 2 ^ 64) {e : Engine}
    (he : e.currentVersion = s.engine.bump.currentVersion) :
    ({ s with engine := e } : Clients ι).Covered := by
  have hversion : e.currentVersion = (s.engine.currentVersion + 1) % 2 ^ 64 := he
  refine ⟨hversion ▸ Nat.mod_lt _ (by decide), ?_⟩
  show s.undoing.card ≤ e.currentVersion
  rcases henough with hnone | hfits
  · rw [hnone, Finset.card_empty]
    exact Nat.zero_le _
  · rw [hversion, Nat.mod_eq_of_lt hfits]
    exact h.covered.trans (Nat.le_succ _)

/-- **The step.** Each decrement takes away one of the counter and one of the clients. -/
theorem Covered.step (h : s.Covered) {a : Atomic ι} (henough : s.LeavesEnough a)
    (hstep : s.Step rt a s') : s'.Covered := by
  cases a with
  | load i =>
    obtain ⟨hi, rfl⟩ := hstep
    split
    · rename_i hpos
      refine ⟨h.bound, ?_⟩
      show (insert i s.undoing).card ≤ s.engine.currentVersion
      rw [Finset.card_insert_of_notMem hi]
      exact henough.resolve_left hpos.ne'
    · exact h
  | fetchSub i =>
    obtain ⟨hi, rfl⟩ := hstep
    have hversion := fetchSub_currentVersion (h.pos hi) h.bound
    refine ⟨?_, ?_⟩
    · show s.engine.fetchSub.currentVersion < 2 ^ 64
      rw [hversion]
      exact (Nat.sub_le _ _).trans_lt h.bound
    · show (s.undoing.erase i).card ≤ s.engine.fetchSub.currentVersion
      rw [hversion, Finset.card_erase_of_mem hi]
      exact Nat.sub_le_sub_right h.covered 1
  | redo i =>
    obtain ⟨-, rfl⟩ := hstep
    exact h.increment henough rfl
  | statement i conn command increments =>
    obtain ⟨-, e, -, hversion, rfl⟩ := hstep
    cases increments with
    | true => exact h.increment henough hversion
    | false => exact ⟨hversion ▸ h.bound, hversion ▸ h.covered⟩
  | background =>
    obtain ⟨e, hversion, rfl⟩ := hstep
    exact ⟨hversion ▸ h.bound, hversion ▸ h.covered⟩

theorem Covered.run : ∀ {steps : List (Atomic ι)} {s s' : Clients ι}, s.Covered →
    s.Run rt LeavesEnough steps s' → s'.Covered
  | [], _, _, h, hrun => hrun ▸ h
  | _ :: _, _, _, h, ⟨henough, _, hstep, hrun⟩ => (h.step henough hstep).run hrun

/-- **The counter never goes below zero** in a run without such a load or increment: in every state
reached, a client that is about to decrement it finds it above zero. -/
theorem version_never_below_zero {e : Engine} (he : e.currentVersion < 2 ^ 64)
    {steps : List (Atomic ι)} (hrun : ({ engine := e } : Clients ι).Run rt LeavesEnough steps s) {i : ι}
    (hi : i ∈ s.undoing) : 0 < s.engine.currentVersion := by
  have hstart : ({ engine := e } : Clients ι).Covered := ⟨he, Nat.zero_le _⟩
  exact (hstart.run hrun).pos hi

/-- **The condition is exact**: the counter is enough for all clients behind their loads, or some of them
can go on until one decrements it at zero. -/
theorem covered_iff (hbound : s.engine.currentVersion < 2 ^ 64) :
    s.undoing.card ≤ s.engine.currentVersion ↔ ∀ (clients : List ι) (s' : Clients ι),
      s.Run rt (fun _ _ ↦ True) (clients.map .fetchSub) s' → ∀ i ∈ s'.undoing,
        0 < s'.engine.currentVersion := by
  constructor
  · intro hcovered clients
    have hinv : s.Covered := ⟨hbound, hcovered⟩
    clear hbound hcovered
    induction clients generalizing s with
    | nil =>
      rintro s' rfl i hi
      exact hinv.pos hi
    | cons j clients ih =>
      rintro s' ⟨-, s₁, hstep, hrun⟩
      have hnext : s₁.Covered := hinv.step (a := .fetchSub j) trivial hstep
      exact ih hnext s' hrun
  · intro hall
    by_contra hless
    -- as many clients as the counter is go on, and one more is left
    have hleft : ∃ (clients : List ι) (s' : Clients ι),
        s.Run rt (fun _ _ ↦ True) (clients.map .fetchSub) s' ∧ s'.engine.currentVersion = 0 ∧
          s'.undoing.Nonempty := by
      clear hall
      generalize hn : s.engine.currentVersion = n at hbound hless
      induction n generalizing s with
      | zero => exact ⟨[], s, rfl, hn, Finset.card_pos.1 (Nat.lt_of_not_le hless)⟩
      | succ n ih =>
        obtain ⟨i, hi⟩ : s.undoing.Nonempty := Finset.card_pos.1 (by omega)
        have hversion : s.engine.fetchSub.currentVersion = n := by
          rw [fetchSub_currentVersion (by omega) (by omega), hn, Nat.add_sub_cancel]
        obtain ⟨clients, s', hrun, hzero, hsome⟩ :=
          ih (s := { engine := s.engine.fetchSub, undoing := s.undoing.erase i }) hversion (by omega)
            (by rw [Finset.card_erase_of_mem hi]; omega)
        exact ⟨i :: clients, s', ⟨trivial, _, ⟨hi, rfl⟩, hrun⟩, hzero, hsome⟩
    obtain ⟨clients, s', hrun, hzero, i, hi⟩ := hleft
    exact (hall clients s' hrun i hi).ne' hzero

/-! ### Two clients -/

/-- Two calls of `undo` that load before either decrements. -/
def twoUndos : List (Atomic Nat) := [.load 1, .load 2, .fetchSub 1]

/-- At version two both of them have something to take away. -/
theorem version_never_below_zero_twoUndos : ∃ s : Clients Nat,
    ({ engine := Engine.empty } : Clients Nat).Run .plain LeavesEnough (.redo 1 :: .redo 2 :: twoUndos) s ∧
      2 ∈ s.undoing ∧ 0 < s.engine.currentVersion := by
  obtain ⟨s, hrun, hs⟩ : ∃ s : Clients Nat, ({ engine := Engine.empty } : Clients Nat).Run .plain
      LeavesEnough (.redo 1 :: .redo 2 :: twoUndos) s ∧ 2 ∈ s.undoing :=
    ⟨_, ⟨.inl rfl, _, ⟨by decide, rfl⟩, .inl rfl, _, ⟨by decide, rfl⟩, .inr (by decide), _,
      ⟨by decide, rfl⟩, .inr (by decide), _, ⟨by decide, rfl⟩, trivial, _, ⟨by decide, rfl⟩, rfl⟩,
      by decide⟩
  exact ⟨s, hrun, hs, version_never_below_zero (by decide) hrun hs⟩

/-- **The counter goes below zero.** At version one both calls of `undo` find it above zero, and the
second one decrements it at zero. -/
theorem not_version_never_below_zero : ¬ ∀ (rt : Runtime) (e : Engine) (steps : List (Atomic Nat))
    (s : Clients Nat) (i : Nat), e.currentVersion < 2 ^ 64 →
      ({ engine := e } : Clients Nat).Run rt (fun _ _ ↦ True) steps s → i ∈ s.undoing →
        0 < s.engine.currentVersion := by
  intro h
  have hpos := h .plain Engine.empty (.redo 1 :: twoUndos) _ 2 (by decide)
    ⟨trivial, _, ⟨by decide, rfl⟩, trivial, _, ⟨by decide, rfl⟩, trivial, _, ⟨by decide, rfl⟩, trivial,
      _, ⟨by decide, rfl⟩, rfl⟩ (by decide)
  exact absurd hpos (by decide)

end Clients

end KsSql
