import KsSql.Util.PageProgram

/-!
# The page writes of a run

What can be seen of a routine from outside while it runs. Its page writes take place one after
another, and a process that stops leaves the pages as they were between two of them: `points` lists
these states, from the first one on.

`Writes G p s` says that every page write of the run satisfies the guarantee `G`, a relation between
the states before and after it, and `gwp` is the weakest precondition with such a guarantee: the
rules are those of `wp` with one obligation more, at a page write. What the guarantee keeps, and what
does not depend on the log or on the counting of pages, holds at every point (`points_of_writes`).
-/

namespace Device

open PageProgram

variable {σ N E α β : Type} (D : Device σ N E)

/-- The states right after each page write of a run. -/
def trace : PageProgram N E α → σ → List σ
  | .done _, _ => []
  | .fail _, _ => []
  | .read pid k, s => trace (k (D.read pid s)) s
  | .write pid n k, s => D.write pid n s :: trace k (D.write pid n s)
  | .log pid n k, s =>
    match D.log pid n s with
    | .ok t => trace k t
    | .error _ => []
  | .numPages k, s => trace (k (D.numPages s).1) (D.numPages s).2

/-- The states between two page writes of a run, from its start to its end. -/
def points (p : PageProgram N E α) (s : σ) : List σ := s :: D.trace p s

/-- Every page write of a run satisfies the guarantee. -/
def Writes (G : σ → σ → Prop) : PageProgram N E α → σ → Prop
  | .done _, _ => True
  | .fail _, _ => True
  | .read pid k, s => Writes G (k (D.read pid s)) s
  | .write pid n k, s => G s (D.write pid n s) ∧ Writes G k (D.write pid n s)
  | .log pid n k, s =>
    match D.log pid n s with
    | .ok t => Writes G k t
    | .error _ => True
  | .numPages k, s => Writes G (k (D.numPages s).1) (D.numPages s).2

/-- The page writes of a sequence are those of its parts. -/
theorem trace_bind (p : PageProgram N E α) (f : α → PageProgram N E β) (s : σ) :
    D.trace (p >>= f) s = D.trace p s ++
      match D.run p s with
      | (.ok a, t) => D.trace (f a) t
      | (.error _, _) => [] := by
  show D.trace (p.bind f) s = _
  induction p generalizing s with
  | done a => rfl
  | fail e => rfl
  | read pid k ih => exact ih _ s
  | write pid n k ih => exact congrArg _ (ih _)
  | log pid n k ih =>
    rw [PageProgram.bind, trace, trace, run]
    cases D.log pid n s with
    | ok t => exact ih t
    | error e => rfl
  | numPages k ih => exact ih _ _

/-- The points of the first part of a sequence are points of the sequence. -/
theorem mem_points_bind {p : PageProgram N E α} {f : α → PageProgram N E β} {s t : σ}
    (ht : t ∈ D.points p s) : t ∈ D.points (p >>= f) s := by
  rw [points, trace_bind]
  exact (List.mem_cons.1 ht).elim (fun e ↦ e ▸ List.mem_cons_self)
    fun ht ↦ List.mem_cons_of_mem s (List.mem_append_left _ ht)

/-- The page writes of the second part of a sequence lead to points of the sequence. -/
theorem mem_points_bind_of_trace {p : PageProgram N E α} {f : α → PageProgram N E β} {s t u : σ}
    {a : α} (hrun : D.run p s = (.ok a, t)) (hu : u ∈ D.trace (f a) t) :
    u ∈ D.points (p >>= f) s := by
  rw [points, trace_bind, hrun]
  exact List.mem_cons_of_mem s (List.mem_append_right _ hu)

variable {D}

/-- What log and page count do not change is at the end of a run as it was at one of its points. -/
theorem exists_point {X : Type} (obs : σ → X)
    (hlog : ∀ pid n s t, D.log pid n s = .ok t → obs t = obs s)
    (hnum : ∀ s, obs (D.numPages s).2 = obs s) (p : PageProgram N E α) (s : σ) :
    ∃ t ∈ D.points p s, obs t = obs (D.run p s).2 := by
  induction p generalizing s with
  | done a => exact ⟨s, List.mem_cons_self, rfl⟩
  | fail e => exact ⟨s, List.mem_cons_self, rfl⟩
  | read pid k ih => exact ih _ s
  | write pid n k ih =>
    obtain ⟨t, ht, hobs⟩ := ih (D.write pid n s)
    exact ⟨t, List.mem_cons_of_mem s ht, hobs⟩
  | log pid n k ih =>
    rw [points, trace, run]
    rcases h : D.log pid n s with e | t
    · exact ⟨s, List.mem_cons_self, rfl⟩
    · obtain ⟨u, hu, hobs⟩ := ih t
      rcases List.mem_cons.1 hu with rfl | hu
      · exact ⟨s, List.mem_cons_self, (hlog pid n s u h).symm.trans hobs⟩
      · exact ⟨u, List.mem_cons_of_mem s hu, hobs⟩
  | numPages k ih =>
    obtain ⟨u, hu, hobs⟩ := ih (D.numPages s).1 (D.numPages s).2
    rcases List.mem_cons.1 hu with rfl | hu
    · exact ⟨s, List.mem_cons_self, (hnum s).symm.trans hobs⟩
    · exact ⟨u, List.mem_cons_of_mem s hu, hobs⟩

/-- A run only moves forward in an order in which every request does. -/
theorem points_between (Rel : σ → σ → Prop) (hrefl : ∀ s, Rel s s)
    (htrans : ∀ s t u, Rel s t → Rel t u → Rel s u) (hwrite : ∀ pid n s, Rel s (D.write pid n s))
    (hlog : ∀ pid n s t, D.log pid n s = .ok t → Rel s t) (hnum : ∀ s, Rel s (D.numPages s).2)
    (p : PageProgram N E α) (s : σ) : ∀ t ∈ D.points p s, Rel s t ∧ Rel t (D.run p s).2 := by
  have hrun : ∀ {p : PageProgram N E α} {s : σ}, Rel s (D.run p s).2 := fun {p s} ↦
    run_invariant (I := Rel s) (fun _ _ _ h ↦ htrans _ _ _ h (hwrite _ _ _))
      (fun _ _ _ _ hl h ↦ htrans _ _ _ h (hlog _ _ _ _ hl)) (fun _ h ↦ htrans _ _ _ h (hnum _))
      p (hrefl s)
  suffices h : ∀ t ∈ D.trace p s, Rel s t ∧ Rel t (D.run p s).2 by
    intro t ht
    rcases List.mem_cons.1 ht with rfl | ht
    · exact ⟨hrefl t, hrun⟩
    · exact h t ht
  induction p generalizing s with
  | done a => exact fun t ht ↦ absurd ht List.not_mem_nil
  | fail e => exact fun t ht ↦ absurd ht List.not_mem_nil
  | read pid k ih => exact ih _ s
  | write pid n k ih =>
    intro t ht
    rcases List.mem_cons.1 ht with rfl | ht
    · exact ⟨hwrite pid n s, hrun⟩
    · obtain ⟨hst, htr⟩ := ih _ t ht
      exact ⟨htrans _ _ _ (hwrite pid n s) hst, htr⟩
  | log pid n k ih =>
    rw [trace, run]
    rcases h : D.log pid n s with e | u
    · exact fun t ht ↦ absurd ht List.not_mem_nil
    · intro t ht
      obtain ⟨hut, htr⟩ := ih u t ht
      exact ⟨htrans _ _ _ (hlog pid n s u h) hut, htr⟩
  | numPages k ih =>
    intro t ht
    obtain ⟨hst, htr⟩ := ih _ _ t ht
    exact ⟨htrans _ _ _ (hnum s) hst, htr⟩

/-- What the guarantee, the log and the page count keep holds at every point. -/
theorem points_of_writes {G : σ → σ → Prop} {I : σ → Prop} (hG : ∀ s t, G s t → I s → I t)
    (hlog : ∀ pid n s t, D.log pid n s = .ok t → I s → I t)
    (hnum : ∀ s, I s → I (D.numPages s).2) (p : PageProgram N E α) {s : σ} (hs : I s)
    (hw : D.Writes G p s) : ∀ t ∈ D.points p s, I t := by
  suffices h : ∀ t ∈ D.trace p s, I t by
    intro t ht
    rcases List.mem_cons.1 ht with rfl | ht
    · exact hs
    · exact h t ht
  induction p generalizing s with
  | done a => exact fun t ht ↦ absurd ht List.not_mem_nil
  | fail e => exact fun t ht ↦ absurd ht List.not_mem_nil
  | read pid k ih => exact ih _ hs hw
  | write pid n k ih =>
    intro t ht
    have hs' := hG _ _ hw.1 hs
    rcases List.mem_cons.1 ht with rfl | ht
    · exact hs'
    · exact ih hs' hw.2 t ht
  | log pid n k ih =>
    rw [Writes] at hw
    rw [trace]
    rcases h : D.log pid n s with e | t
    · exact fun t ht ↦ absurd ht List.not_mem_nil
    · rw [h] at hw
      exact ih (hlog pid n s t h hs) hw
  | numPages k ih => exact ih _ (hnum s hs) hw

/-- What the guarantee, the log and the page count keep holds at the end. -/
theorem run_of_writes {G : σ → σ → Prop} {I : σ → Prop} (hG : ∀ s t, G s t → I s → I t)
    (hlog : ∀ pid n s t, D.log pid n s = .ok t → I s → I t)
    (hnum : ∀ s, I s → I (D.numPages s).2) (p : PageProgram N E α) {s : σ} (hs : I s)
    (hw : D.Writes G p s) : I (D.run p s).2 := by
  induction p generalizing s with
  | done a => exact hs
  | fail e => exact hs
  | read pid k ih => exact ih _ hs hw
  | write pid n k ih => exact ih (hG _ _ hw.1 hs) hw.2
  | log pid n k ih =>
    rw [Writes] at hw
    rw [run]
    rcases h : D.log pid n s with e | t
    · exact hs
    · rw [h] at hw
      exact ih (hlog pid n s t h hs) hw
  | numPages k ih => exact ih _ (hnum s hs) hw

theorem Writes.mono {G G' : σ → σ → Prop} (hG : ∀ s t, G s t → G' s t) (p : PageProgram N E α)
    {s : σ} (h : D.Writes G p s) : D.Writes G' p s := by
  induction p generalizing s with
  | done a => trivial
  | fail e => trivial
  | read pid k ih => exact ih _ h
  | write pid n k ih => exact ⟨hG _ _ h.1, ih h.2⟩
  | log pid n k ih =>
    rw [Writes] at h ⊢
    rcases hlog : D.log pid n s with e | t
    · trivial
    · rw [hlog] at h
      exact ih h
  | numPages k ih => exact ih _ h

theorem Writes.of_forall {G : σ → σ → Prop} (hG : ∀ s t, G s t) (p : PageProgram N E α) (s : σ) :
    D.Writes G p s := by
  induction p generalizing s with
  | done a => trivial
  | fail e => trivial
  | read pid k ih => exact ih _ s
  | write pid n k ih => exact ⟨hG _ _, ih _⟩
  | log pid n k ih =>
    rw [Writes]
    split
    · exact ih _
    · trivial
  | numPages k ih => exact ih _ _

theorem writes_bind {G : σ → σ → Prop} {p : PageProgram N E α} {f : α → PageProgram N E β} {s : σ}
    (hp : D.Writes G p s) (hf : ∀ a t, D.run p s = (.ok a, t) → D.Writes G (f a) t) :
    D.Writes G (p >>= f) s := by
  show D.Writes G (p.bind f) s
  induction p generalizing s with
  | done a => exact hf a s rfl
  | fail e => trivial
  | read pid k ih => exact ih _ hp hf
  | write pid n k ih => exact ⟨hp.1, ih hp.2 hf⟩
  | log pid n k ih =>
    rw [Writes] at hp
    rw [PageProgram.bind, Writes]
    rcases h : D.log pid n s with e | t
    · trivial
    · rw [h] at hp
      refine ih hp fun a u hu ↦ hf a u ?_
      rw [run, h]
      exact hu
  | numPages k ih => exact ih _ hp hf

/-! ### Weakest preconditions with a guarantee -/

variable (D)

/-- Run from `s`, `p` ends in a result satisfying `Q` or in an error satisfying `F`, and each of its
page writes satisfies the guarantee `G`, provided its last state satisfies the bound `B`. -/
def gwp (B : σ → Prop) (G : σ → σ → Prop) (p : PageProgram N E α) (Q : α → σ → Prop)
    (F : E → σ → Prop) (s : σ) : Prop :=
  B (D.run p s).2 → Outcome Q F (D.run p s) ∧ D.Writes G p s

variable {D} {B : σ → Prop} {G : σ → σ → Prop} {Q : α → σ → Prop} {F : E → σ → Prop} {s : σ}

theorem gwp_done {a : α} (h : B s → Q a s) : D.gwp B G (.done a) Q F s := fun hb ↦ ⟨h hb, trivial⟩

theorem gwp_fail {e : E} (h : B s → F e s) : D.gwp B G (.fail e) Q F s := fun hb ↦ ⟨h hb, trivial⟩

theorem gwp_read {pid : Nat} {k : N → PageProgram N E α}
    (h : D.gwp B G (k (D.read pid s)) Q F s) : D.gwp B G (.read pid k) Q F s := h

theorem gwp_write {pid : Nat} {n : N} {k : PageProgram N E α} (hG : G s (D.write pid n s))
    (h : D.gwp B G k Q F (D.write pid n s)) : D.gwp B G (.write pid n k) Q F s :=
  fun hb ↦ ⟨(h hb).1, hG, (h hb).2⟩

theorem gwp_numPages {k : Nat → PageProgram N E α}
    (h : D.gwp B G (k (D.numPages s).1) Q F (D.numPages s).2) : D.gwp B G (.numPages k) Q F s := h

theorem gwp_log {pid : Nat} {n : N} {k : PageProgram N E α}
    (hok : ∀ t, D.log pid n s = .ok t → D.gwp B G k Q F t)
    (herr : ∀ e, D.log pid n s = .error e → B s → F e s) : D.gwp B G (.log pid n k) Q F s := by
  intro hb
  rw [Writes]
  rcases hlog : D.log pid n s with e | t
  · simp only [run, hlog] at hb ⊢
    exact ⟨herr e hlog hb, trivial⟩
  · simp only [run, hlog] at hb ⊢
    exact hok t hlog hb

/-- **Consequence.** Postconditions and guarantee may be weakened. -/
theorem gwp_mono {p : PageProgram N E α} {G' : σ → σ → Prop} {Q' : α → σ → Prop}
    {F' : E → σ → Prop} (h : D.gwp B G p Q F s) (hG : ∀ s t, G s t → G' s t)
    (hQ : ∀ a t, B t → Q a t → Q' a t) (hF : ∀ e t, B t → F e t → F' e t) :
    D.gwp B G' p Q' F' s := by
  intro hb
  exact ⟨wp_mono (fun hb ↦ (h hb).1) hQ hF hb, (h hb).2.mono hG p⟩

/-- **Sequencing.** The first part must establish what the second part needs. -/
theorem gwp_bind (hB : D.Guard B) {p : PageProgram N E β} {f : β → PageProgram N E α}
    (h : D.gwp B G p (fun b t ↦ D.gwp B G (f b) Q F t) F s) : D.gwp B G (p >>= f) Q F s := by
  intro hb
  have hb₁ : B (D.run p s).2 := by
    rw [run_bind] at hb
    revert hb
    rcases D.run p s with ⟨e | b, t⟩
    · exact id
    · exact hB.run _
  obtain ⟨hout, hw⟩ := h hb₁
  rw [run_bind] at hb ⊢
  rcases hrun : D.run p s with ⟨e | b, t⟩
  · rw [hrun] at hout
    exact ⟨hout, writes_bind hw fun a u hu ↦ by rw [hrun] at hu; cases hu⟩
  · rw [hrun] at hb hout
    obtain ⟨hout', hw'⟩ := hout hb
    refine ⟨hout', writes_bind hw fun a u hu ↦ ?_⟩
    rw [hrun] at hu
    cases hu
    exact hw'

/-- Without a guarantee, it is the weakest precondition. -/
theorem wp_of_gwp {p : PageProgram N E α} (h : D.gwp B G p Q F s) : D.wp B p Q F s :=
  fun hb ↦ (h hb).1

/-- A guarantee that asks for nothing adds nothing. -/
theorem gwp_of_wp {p : PageProgram N E α} (hG : ∀ s t, G s t) (h : D.wp B p Q F s) :
    D.gwp B G p Q F s := fun hb ↦ ⟨h hb, .of_forall hG p s⟩

/-- A guarding bound may be assumed in the first state already. -/
theorem gwp_of_bound (hB : D.Guard B) {p : PageProgram N E α} (h : B s → D.gwp B G p Q F s) :
    D.gwp B G p Q F s := fun hb ↦ h (hB.run p hb) hb

theorem gwp_require {c : Prop} [Decidable c] {e : E} {Q : Unit → σ → Prop} (hc : c)
    (h : B s → Q () s) : D.gwp B G (PageProgram.require c e) Q F s := by
  rw [PageProgram.require, if_pos hc]
  exact gwp_done h

end Device
