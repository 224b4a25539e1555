import Mathlib.Data.Set.Finite.Basic
import Mathlib.Logic.Relation

/-!
# Trails along a partial function

A walk that goes on from a place to at most one other, `next : α → Option α`, and where it gets to.
`Trail.Ends next a` says that the walk from `a` comes to a place from which it does not go on, and
`Trail.Returns next a` that it comes to a place to which it later comes back. Where only finitely many
places lead on, a walk does exactly one of the two (`ends_iff_not_returns`).

A loop that carries more than a place is `Trail.loop step`, with a number of steps to take. It ends, given
enough steps, if its places are on a route that ends (`exists_loop_of_ends`), and a loop that only stops
where its route stops has followed the route to its end (`ends_of_loop`).
-/

namespace Trail

open Relation

variable {α : Type} (next : α → Option α)

/-- The walk goes on from `a` to `b`. -/
def Leads (a b : α) : Prop := next a = some b

/-- The walk from a place comes to an end. -/
inductive Ends : α → Prop
  | intro {a : α} : (∀ b, Leads next a b → Ends b) → Ends a

/-- The walk from a place gets to one that it visits again. -/
def Returns (a : α) : Prop := ∃ b, ReflTransGen (Leads next) a b ∧ TransGen (Leads next) b b

/-- The place after `n` steps. -/
def place (a : α) : Nat → Option α
  | 0 => some a
  | n + 1 => (place a n).bind next

variable {next} {a b : α}

theorem Leads.unique {c : α} (hb : Leads next a b) (hc : Leads next a c) : b = c :=
  Option.some.inj (hb.symm.trans hc)

/-- A walk has one end. -/
theorem end_unique {c : α} (hb : ReflTransGen (Leads next) a b) (hbend : next b = none)
    (hc : ReflTransGen (Leads next) a c) (hcend : next c = none) : b = c := by
  induction hb using ReflTransGen.head_induction_on with
  | refl =>
    rcases hc.cases_head with h | ⟨d, hd, -⟩
    · exact h
    · exact nomatch hd.symm.trans hbend
  | head hac' _ ih =>
    rcases hc.cases_head with rfl | ⟨d, hd, hdc⟩
    · exact nomatch hac'.symm.trans hcend
    · exact ih (hac'.unique hd ▸ hdc)

/-- A walk that ends does not come back to a place. -/
theorem Ends.not_returns (h : Ends next a) : ¬ Returns next a := by
  induction h with
  | @intro a _ ih =>
    rintro ⟨b, hab, hbb⟩
    rcases hab.cases_head with rfl | ⟨c, hac, hcb⟩
    · -- the cycle goes through the place itself, and so through the next one
      obtain ⟨c, hac, hca⟩ := TransGen.head'_iff.1 hbb
      exact ih c hac ⟨a, hca, hbb⟩
    · exact ih c hac ⟨b, hcb, hbb⟩

/-- Where the walk gets to lies on the route. -/
theorem reflTransGen_of_place {n : Nat} (h : place next a n = some b) :
    ReflTransGen (Leads next) a b := by
  induction n generalizing b with
  | zero => exact Option.some.inj h ▸ .refl
  | succ n ih =>
    obtain ⟨c, hc, hcb⟩ := Option.bind_eq_some_iff.1 h
    exact (ih hc).tail hcb

theorem transGen_of_place {m n : Nat} {c : α} (hlt : m < n) (hm : place next a m = some b)
    (hn : place next a n = some c) : TransGen (Leads next) b c := by
  induction n generalizing c with
  | zero => exact absurd hlt (Nat.not_lt_zero m)
  | succ n ih =>
    obtain ⟨d, hd, hdc⟩ := Option.bind_eq_some_iff.1 hn
    rcases Nat.lt_succ_iff_lt_or_eq.1 hlt with hlt | rfl
    · exact (ih hlt hd).tail hdc
    · obtain rfl := Option.some.inj (hm.symm.trans hd)
      exact .single hdc

/-- A walk that has come to an end after some steps ends. -/
theorem ends_of_place {n : Nat} : ∀ {a : α}, place next a n = none → Ends next a := by
  induction n with
  | zero => exact fun h ↦ nomatch h
  | succ n ih =>
    intro a h
    refine .intro fun b hb ↦ ih ?_
    have hshift : ∀ m, place next a (m + 1) = place next b m := by
      intro m
      induction m with
      | zero => exact hb
      | succ m ih => exact congrArg (Option.bind · next) ih
    rw [← hshift, h]

/-- **A walk over finitely many places that lead on** ends unless it comes back to a place. -/
theorem ends_iff_not_returns (hfinite : {a | (next a).isSome}.Finite) :
    Ends next a ↔ ¬ Returns next a := by
  refine ⟨Ends.not_returns, fun hreturns ↦ ?_⟩
  by_contra hends
  have hplace : ∀ n, ∃ b, place next a n = some b := fun n ↦
    Option.ne_none_iff_exists'.1 fun hnone ↦ hends (ends_of_place hnone)
  choose w hat using hplace
  -- the places of an endless walk all lead on, so that one of them is met twice
  have hleads : ∀ n, w n ∈ {a | (next a).isSome} := fun n ↦ by
    have hsucc : (place next a n).bind next = some (w (n + 1)) := hat (n + 1)
    rw [hat n] at hsucc
    exact Option.isSome_iff_exists.2 ⟨_, hsucc⟩
  obtain ⟨m, -, n, -, hne, heq⟩ :=
    Set.infinite_univ.exists_ne_map_eq_of_mapsTo (fun n _ ↦ hleads n) hfinite
  rcases Nat.lt_or_gt_of_ne hne with hlt | hlt
  · exact hreturns ⟨w m, reflTransGen_of_place (hat m),
      transGen_of_place hlt (hat m) ((hat n).trans (congrArg some heq.symm))⟩
  · exact hreturns ⟨w n, reflTransGen_of_place (hat n),
      transGen_of_place hlt (hat n) ((hat m).trans (congrArg some heq))⟩

/-! ### Loops along a route -/

variable {σ γ : Type}

/-- A loop: a step gives the result or the next state. `none` says that the steps ran out. -/
def loop (step : σ → γ ⊕ σ) : Nat → σ → Option γ
  | 0, _ => none
  | n + 1, s =>
    match step s with
    | .inl result => some result
    | .inr s => loop step n s

variable {step : σ → γ ⊕ σ} {w : σ → α}

/-- More steps do not change a result. -/
theorem loop_mono {result : γ} {m n : Nat} (hle : m ≤ n) :
    ∀ {s : σ}, loop step m s = some result → loop step n s = some result := by
  induction m generalizing n with
  | zero => exact fun h ↦ nomatch h
  | succ m ih =>
    intro s h
    obtain ⟨n, rfl⟩ := Nat.exists_eq_add_of_le' (Nat.le_trans (Nat.succ_pos m) hle)
    rw [loop] at h ⊢
    rcases hs : step s with r | s'
    · rw [hs] at h
      exact h
    · rw [hs] at h
      exact ih (Nat.le_of_succ_le_succ hle) h

/-- The result of a loop is that of its last state, which lies on the route. -/
theorem exists_last_of_loop (hstep : ∀ s s', step s = .inr s' → Leads next (w s) (w s'))
    {result : γ} : ∀ {n : Nat} {s : σ}, loop step n s = some result →
      ∃ s', ReflTransGen (Leads next) (w s) (w s') ∧ step s' = .inl result
  | 0, _, h => nomatch h
  | n + 1, s, h => by
    rw [loop] at h
    rcases hs : step s with r | s'
    · rw [hs] at h
      exact ⟨s, .refl, hs.trans (congrArg Sum.inl (Option.some.inj h))⟩
    · rw [hs] at h
      obtain ⟨t, ht, hlast⟩ := exists_last_of_loop hstep h
      exact ⟨t, .head (hstep s s' hs) ht, hlast⟩

/-- A loop along a route that ends has a result. -/
theorem exists_loop_of_ends
    (hstep : ∀ s s', step s = .inr s' → Leads next (w s) (w s')) (h : Ends next a) :
    ∀ s, w s = a → ∃ n, (loop step n s).isSome := by
  induction h with
  | @intro a _ ih =>
    rintro s rfl
    rcases hs : step s with result | s'
    · exact ⟨1, by rw [loop, hs]; rfl⟩
    · obtain ⟨n, hn⟩ := ih _ (hstep s s' hs) s' rfl
      exact ⟨n + 1, by rw [loop, hs]; exact hn⟩

/-- A loop that has a result has followed its route to the end, if that is where it stops. -/
theorem ends_of_loop (hstep : ∀ s s', step s = .inr s' → Leads next (w s) (w s'))
    (hstop : ∀ s result, step s = .inl result → next (w s) = none) :
    ∀ {n : Nat} {s : σ}, (loop step n s).isSome → Ends next (w s)
  | 0, _, h => nomatch h
  | n + 1, s, h => by
    refine .intro fun b hb ↦ ?_
    rcases hs : step s with result | s'
    · exact nomatch (hstop s result hs).symm.trans hb
    · obtain rfl := (hstep s s' hs).unique hb
      rw [loop, hs] at h
      exact ends_of_loop hstep hstop h

end Trail
