import KsSql.Util.PageTrace
import Mathlib.Logic.Relation

/-!
# Two routines on one device

A device serves the requests of two routines one at a time, in any order: `Race.Step` lets either of
two transition functions over a shared state take a step, and `Race.Runs` is any number of such
steps. `Device.step` serves one request of a routine.

Of a routine that only reads and one that writes, the latter runs as it would run alone, and the
reader sees its states in order. `Race.invariant_of_readOnly` is the rule for what the reader knows:
it must survive each write of the writer, which satisfies the guarantee, and each of the reader's own
reads. `Race.runs_to_point` and `Race.runs_right` build races: the writer goes ahead to one of its
points, and the reader runs to its end.
-/

namespace Race

variable {A B σ : Type}

/-- One of two parties takes a step on the shared state. -/
inductive Step (f : A → σ → Option (A × σ)) (g : B → σ → Option (B × σ)) :
    A × B × σ → A × B × σ → Prop
  /-- The first party's step. -/
  | left {a a' : A} {b : B} {s s' : σ} : f a s = some (a', s') → Step f g (a, b, s) (a', b, s')
  /-- The second party's step. -/
  | right {a : A} {b b' : B} {s s' : σ} : g b s = some (b', s') → Step f g (a, b, s) (a, b', s')

/-- Any number of steps of the two parties, in any order. -/
def Runs (f : A → σ → Option (A × σ)) (g : B → σ → Option (B × σ)) :
    A × B × σ → A × B × σ → Prop :=
  Relation.ReflTransGen (Step f g)

/-- What each step of either party keeps, every race keeps. -/
theorem Runs.invariant {f : A → σ → Option (A × σ)} {g : B → σ → Option (B × σ)}
    {I : A × B × σ → Prop} (hstep : ∀ x y, Step f g x y → I x → I y) {x y : A × B × σ}
    (h : Runs f g x y) (hx : I x) : I y := by
  induction h with
  | refl => exact hx
  | tail _ hyz ih => exact hstep _ _ hyz ih

end Race

namespace Device

open PageProgram

variable {σ N E α β : Type} (D : Device σ N E)

/-- Serve one request of a routine: what is left of the routine, and the state afterwards. A refused
append to the log ends the routine with its error. -/
def step : PageProgram N E α → σ → Option (PageProgram N E α × σ)
  | .done _, _ => none
  | .fail _, _ => none
  | .read pid k, s => some (k (D.read pid s), s)
  | .write pid n k, s => some (k, D.write pid n s)
  | .log pid n k, s =>
    match D.log pid n s with
    | .ok t => some (k, t)
    | .error e => some (.fail e, s)
  | .numPages k, s => some (k (D.numPages s).1, (D.numPages s).2)

/-- A routine that is over. -/
def result : Except E α → PageProgram N E α
  | .ok a => .done a
  | .error e => .fail e

variable {D}

/-- The rest of a run is the run of the rest. -/
theorem run_of_step {p p' : PageProgram N E α} {s s' : σ} (h : D.step p s = some (p', s')) :
    D.run p s = D.run p' s' := by
  cases p with
  | done a => cases h
  | fail e => cases h
  | read pid k => cases h; rfl
  | write pid n k => cases h; rfl
  | log pid n k =>
    rw [step] at h
    rw [run]
    rcases hlog : D.log pid n s with e | t
    · rw [hlog] at h
      cases h
      rfl
    · rw [hlog] at h
      cases h
      rfl
  | numPages k => cases h; rfl

/-- The rest of a run keeps its guarantee, and its first step satisfies it, unless it wrote no
page. -/
theorem writes_of_step {G : σ → σ → Prop} {p p' : PageProgram N E α} {s s' : σ}
    (h : D.step p s = some (p', s')) (hw : D.Writes G p s) :
    D.Writes G p' s' ∧
      (G s s' ∨ s' = s ∨ (∃ pid n, D.log pid n s = .ok s') ∨ s' = (D.numPages s).2) := by
  cases p with
  | done a => cases h
  | fail e => cases h
  | read pid k =>
    cases h
    exact ⟨hw, Or.inr (Or.inl rfl)⟩
  | write pid n k =>
    cases h
    exact ⟨hw.2, Or.inl hw.1⟩
  | log pid n k =>
    rw [step] at h
    rw [Writes] at hw
    rcases hlog : D.log pid n s with e | t
    · rw [hlog] at h
      cases h
      exact ⟨trivial, Or.inr (Or.inl rfl)⟩
    · rw [hlog] at h hw
      cases h
      exact ⟨hw, Or.inr (Or.inr (Or.inl ⟨pid, n, hlog⟩))⟩
  | numPages k =>
    cases h
    exact ⟨hw, Or.inr (Or.inr (Or.inr rfl))⟩

/-- A routine that only reads takes its steps by reading. -/
theorem step_of_readOnly {p p' : PageProgram N E α} {s s' : σ} (hp : p.ReadOnly)
    (h : D.step p s = some (p', s')) :
    s' = s ∧ ∃ pid k, p = .read pid k ∧ p' = k (D.read pid s) := by
  cases p with
  | done a => cases h
  | fail e => cases h
  | read pid k =>
    cases h
    exact ⟨rfl, pid, k, rfl, rfl⟩
  | write pid n k => exact hp.elim
  | log pid n k => exact hp.elim
  | numPages k => exact hp.elim

/-- A routine whose result is mapped takes the routine's steps. -/
theorem exists_step_of_map {f : α → β} {p : PageProgram N E α} {q : PageProgram N E β} {s s' : σ}
    (h : D.step (p >>= fun a ↦ .done (f a)) s = some (q, s')) :
    ∃ p', q = (p' >>= fun a ↦ .done (f a)) ∧ D.step p s = some (p', s') := by
  cases p with
  | done a => cases h
  | fail e => cases h
  | read pid k =>
    cases h
    exact ⟨_, rfl, rfl⟩
  | write pid n k =>
    cases h
    exact ⟨_, rfl, rfl⟩
  | log pid n k =>
    replace h : D.step (.log pid n (k >>= fun a ↦ .done (f a))) s = some (q, s') := h
    rw [step] at h
    rw [step]
    rcases hlog : D.log pid n s with e | t
    · rw [hlog] at h
      cases h
      exact ⟨.fail e, rfl, rfl⟩
    · rw [hlog] at h
      cases h
      exact ⟨k, rfl, rfl⟩
  | numPages k =>
    cases h
    exact ⟨_, rfl, rfl⟩

end Device

namespace Race

open PageProgram

variable {σ N E α β : Type} {D : Device σ N E}

/-- A race with a routine whose result is mapped is a race with the routine. -/
theorem runs_of_map {γ : Type} {f : α → γ} {g : β → σ → Option (β × σ)} {p : PageProgram N E α}
    {q q' : β} {s s' : σ} {p' : PageProgram N E γ}
    (h : Runs D.step g (p >>= fun a ↦ .done (f a), q, s) (p', q', s')) :
    ∃ p'', p' = (p'' >>= fun a ↦ .done (f a)) ∧ Runs D.step g (p, q, s) (p'', q', s') := by
  refine h.invariant (I := fun x ↦ ∃ p'', x.1 = (p'' >>= fun a ↦ .done (f a)) ∧
    Runs D.step g (p, q, s) (p'', x.2.1, x.2.2)) (fun x y hxy hx ↦ ?_) ⟨p, rfl, .refl⟩
  obtain ⟨p'', hp'', hruns⟩ := hx
  cases hxy with
  | left hstep =>
    obtain rfl := hp''
    obtain ⟨p₁, rfl, hstep'⟩ := Device.exists_step_of_map hstep
    exact ⟨p₁, rfl, hruns.tail (.left hstep')⟩
  | right hstep => exact ⟨p'', hp'', hruns.tail (.right hstep)⟩

/-- **Reading beside a writer.** What the reader knows must survive the writer's page writes, appends
to the log and requests for the page count, and the reader's own reads. At every point the writer is
going to end as it would have ended alone, with page writes that satisfy the guarantee. -/
theorem invariant_of_readOnly {G : σ → σ → Prop} {J : PageProgram N E β → σ → Prop}
    (hwrite : ∀ q s t, G s t → J q s → J q t)
    (hlog : ∀ q pid n s t, D.log pid n s = .ok t → J q s → J q t)
    (hnum : ∀ q s, J q s → J q (D.numPages s).2)
    {p p' : PageProgram N E α} {q q' : PageProgram N E β} {s s' : σ}
    (hread : ∀ (p₁ : PageProgram N E α) s₁, D.Writes G p₁ s₁ → D.run p₁ s₁ = D.run p s →
      ∀ pid k, J (.read pid k) s₁ → J (k (D.read pid s₁)) s₁)
    (hq : q.ReadOnly) (hw : D.Writes G p s) (hJ : J q s) (h : Runs D.step D.step (p, q, s) (p', q', s')) :
    J q' s' ∧ D.Writes G p' s' ∧ D.run p' s' = D.run p s := by
  have hinv := h.invariant (I := fun x ↦ x.2.1.ReadOnly ∧ D.Writes G x.1 x.2.2 ∧
    J x.2.1 x.2.2 ∧ D.run x.1 x.2.2 = D.run p s) (fun x y hxy hx ↦ ?_) ⟨hq, hw, hJ, rfl⟩
  · exact ⟨hinv.2.2.1, hinv.2.1, hinv.2.2.2⟩
  obtain ⟨hro, hw, hJ, hrun⟩ := hx
  cases hxy with
  | @left a a' b s s' hstep =>
    obtain ⟨hw', hcases⟩ := Device.writes_of_step hstep hw
    refine ⟨hro, hw', ?_, (Device.run_of_step hstep).symm.trans hrun⟩
    rcases hcases with hG | rfl | ⟨pid, n, hl⟩ | rfl
    · exact hwrite _ _ _ hG hJ
    · exact hJ
    · exact hlog _ _ _ _ _ hl hJ
    · exact hnum _ _ hJ
  | @right a b b' s s' hstep =>
    obtain ⟨rfl, pid, k, rfl, rfl⟩ := Device.step_of_readOnly hro hstep
    exact ⟨hro _, hw, hread _ _ hw hrun pid k hJ, hrun⟩

/-- The first routine goes ahead to one of its points, the second waits. -/
theorem runs_to_point {p : PageProgram N E α} {s t : σ} (ht : t ∈ D.points p s)
    (q : PageProgram N E β) : ∃ p', Runs D.step D.step (p, q, s) (p', q, t) := by
  suffices h : t ∈ D.trace p s → ∃ p', Runs D.step D.step (p, q, s) (p', q, t) from
    (List.mem_cons.1 ht).elim (fun e ↦ ⟨p, e ▸ .refl⟩) h
  clear ht
  intro ht
  induction p generalizing s with
  | done a => cases ht
  | fail e => cases ht
  | read pid k ih =>
    obtain ⟨p', h⟩ := ih _ ht
    exact ⟨p', .head (.left rfl) h⟩
  | write pid n k ih =>
    rcases List.mem_cons.1 ht with rfl | ht
    · exact ⟨k, .single (.left rfl)⟩
    · obtain ⟨p', h⟩ := ih ht
      exact ⟨p', .head (.left rfl) h⟩
  | log pid n k ih =>
    rw [Device.trace] at ht
    rcases hlog : D.log pid n s with e | u
    · rw [hlog] at ht
      cases ht
    · rw [hlog] at ht
      obtain ⟨p', h⟩ := ih ht
      exact ⟨p', .head (.left (by rw [Device.step, hlog])) h⟩
  | numPages k ih =>
    obtain ⟨p', h⟩ := ih _ ht
    exact ⟨p', .head (.left rfl) h⟩

/-- The second routine runs to its end, the first waits. -/
theorem runs_right (p : PageProgram N E α) (q : PageProgram N E β) (s : σ) :
    Runs D.step D.step (p, q, s) (p, Device.result (D.run q s).1, (D.run q s).2) := by
  induction q generalizing s with
  | done a => exact .refl
  | fail e => exact .refl
  | read pid k ih => exact .head (.right rfl) (ih _ s)
  | write pid n k ih => exact .head (.right rfl) (ih _)
  | log pid n k ih =>
    rw [Device.run]
    rcases hlog : D.log pid n s with e | u
    · exact .single (.right (by rw [Device.step, hlog]; rfl))
    · exact .head (.right (by rw [Device.step, hlog])) (ih u)
  | numPages k ih => exact .head (.right rfl) (ih _ _)

end Race
