import Mathlib.Logic.Basic

/-!
# Stateful routines that may fail

`Effect σ ε α` is a routine on a state `σ` that returns a result or fails with an error, and keeps the
state it has reached either way: what was done before a failure stays done. It is the meaning of a
routine that returns a `Result` and leaves through `?`.

`Effect.wp p Q F s` says that, run from `s`, the routine `p` ends in a result satisfying `Q` or in an
error satisfying `F`. There is one rule for each way to build a routine; the rule for a loop over a
list (`wp_forEach`) takes an invariant on the part of the list that was gone through.

`Effect.Maintains I p` says that `p` keeps the property `I` of the state, whether it fails or not. The
parts of a routine then keep it one by one. `Effect.FailsOnly F p` says that `p` fails with errors
satisfying `F` only, from whichever state.
-/

/-- A computation that may fail goes on with its result. -/
theorem Except.ok_bind {ε α β : Type} (a : α) (f : α → Except ε β) : (Except.ok a >>= f) = f a := rfl

theorem Except.eq_ok_of_toOption {ε α : Type} {x : Except ε α} {a : α} (h : x.toOption = some a) :
    x = .ok a := by
  cases x with
  | ok b => exact congrArg Except.ok (Option.some.inj h)
  | error e => cases h

/-- A computation that goes well went well in its first part. -/
theorem Except.exists_of_bind_eq_ok {ε α β : Type} {x : Except ε α} {f : α → Except ε β} {b : β}
    (h : (x >>= f) = .ok b) : ∃ a, x = .ok a ∧ f a = .ok b := by
  cases x with
  | ok a => exact ⟨a, rfl, h⟩
  | error e => cases h

/-- The computation fails with errors of a kind only. -/
def Except.FailsOnly {ε α : Type} (F : ε → Prop) (x : Except ε α) : Prop := ∀ e, x = .error e → F e

namespace Except

variable {ε α β : Type} {F : ε → Prop}

theorem failsOnly_ok (a : α) : (Except.ok a : Except ε α).FailsOnly F := fun _ h ↦ nomatch h

theorem failsOnly_error {e : ε} (h : F e) : (Except.error e : Except ε α).FailsOnly F :=
  fun _ he ↦ Except.error.inj he ▸ h

theorem failsOnly_bind {x : Except ε α} {f : α → Except ε β} (hx : x.FailsOnly F)
    (hf : ∀ a, (f a).FailsOnly F) : (x >>= f).FailsOnly F := by
  cases x with
  | ok a => exact hf a
  | error e => exact failsOnly_error (hx e rfl)

theorem failsOnly_foldlM {f : β → α → Except ε β} (hf : ∀ b a, (f b a).FailsOnly F) :
    ∀ (l : List α) (b : β), (l.foldlM f b).FailsOnly F
  | [], b => failsOnly_ok b
  | a :: l, b => by
    rw [List.foldlM_cons]
    exact failsOnly_bind (hf b a) fun b' ↦ failsOnly_foldlM hf l b'

end Except

/-- A routine on states `σ` with results `α` and errors `ε`. -/
def Effect (σ ε α : Type) : Type := σ → Except ε α × σ

namespace Effect

variable {σ ε α β γ : Type}

/-- A routine that does nothing. -/
protected def pure (a : α) : Effect σ ε α := fun s ↦ (.ok a, s)

/-- Sequencing: the second routine runs on the result of the first, unless that failed. -/
protected def bind (p : Effect σ ε α) (f : α → Effect σ ε β) : Effect σ ε β := fun s ↦
  match p s with
  | (.ok a, t) => f a t
  | (.error e, t) => (.error e, t)

instance : Monad (Effect σ ε) where
  pure := Effect.pure
  bind := Effect.bind

/-- The state. -/
def get : Effect σ ε σ := fun s ↦ (.ok s, s)

/-- Change the state. -/
def modify (f : σ → σ) : Effect σ ε Unit := fun s ↦ (.ok (), f s)

/-- Fail. -/
def throw (e : ε) : Effect σ ε α := fun s ↦ (.error e, s)

/-- A computation without effects that may fail. -/
def ofExcept : Except ε α → Effect σ ε α
  | .ok a => fun s ↦ (.ok a, s)
  | .error e => fun s ↦ (.error e, s)

/-- A loop over a list that carries a value along. -/
def fold (f : β → α → Effect σ ε β) : List α → β → Effect σ ε β
  | [], b => pure b
  | a :: l, b => do
    let b ← f b a
    fold f l b

/-- A loop over a list. -/
def forEach (l : List α) (f : α → Effect σ ε Unit) : Effect σ ε Unit :=
  fold (fun _ a ↦ f a) l ()

/-- What follows a look at the state is run on it. -/
theorem get_bind (f : σ → Effect σ ε α) (s : σ) : (get >>= f) s = f s s := rfl

/-- Sequencing is associative. -/
protected theorem bind_assoc (p : Effect σ ε α) (f : α → Effect σ ε β) (g : β → Effect σ ε γ) :
    (p.bind f).bind g = p.bind fun a ↦ (f a).bind g := by
  funext s
  unfold Effect.bind
  rcases p s with ⟨e | a, t⟩ <;> rfl

/-! ### Weakest preconditions -/

/-- Run from `s`, `p` ends in a result satisfying `Q` or in an error satisfying `F`. -/
def wp (p : Effect σ ε α) (Q : α → σ → Prop) (F : ε → σ → Prop) (s : σ) : Prop :=
  match p s with
  | (.ok a, t) => Q a t
  | (.error e, t) => F e t

variable {Q : α → σ → Prop} {F : ε → σ → Prop} {s : σ}

theorem wp_pure {a : α} (h : Q a s) : wp (pure a : Effect σ ε α) Q F s := h

theorem wp_throw {e : ε} (h : F e s) : wp (throw e : Effect σ ε α) Q F s := h

theorem wp_get {Q : σ → σ → Prop} (h : Q s s) : wp (get : Effect σ ε σ) Q F s := h

theorem wp_modify {Q : Unit → σ → Prop} {f : σ → σ} (h : Q () (f s)) :
    wp (modify f : Effect σ ε Unit) Q F s := h

theorem wp_ofExcept {x : Except ε α} (hok : ∀ a, x = .ok a → Q a s)
    (herr : ∀ e, x = .error e → F e s) : wp (ofExcept x) Q F s := by
  cases x with
  | ok a => exact hok a rfl
  | error e => exact herr e rfl

/-- **Sequencing.** -/
theorem wp_bind {p : Effect σ ε β} {f : β → Effect σ ε α}
    (h : wp p (fun b t ↦ wp (f b) Q F t) F s) : wp (p >>= f) Q F s := by
  show wp (Effect.bind p f) Q F s
  unfold wp Effect.bind at *
  rcases hp : p s with ⟨e | b, t⟩
  · rw [hp] at h; exact h
  · rw [hp] at h; exact h

/-- **Consequence.** -/
theorem wp_mono {p : Effect σ ε α} {Q' : α → σ → Prop} {F' : ε → σ → Prop} (h : wp p Q F s)
    (hQ : ∀ a t, Q a t → Q' a t) (hF : ∀ e t, F e t → F' e t) : wp p Q' F' s := by
  unfold wp at *
  rcases hp : p s with ⟨e | b, t⟩
  · rw [hp] at h; exact hF e t h
  · rw [hp] at h; exact hQ b t h

/-- **Loops.** `I done b` holds when the part `done` of the list was gone through and `b` is carried
along. -/
theorem wp_fold {f : β → α → Effect σ ε β} {l : List α} {b : β} {Q : β → σ → Prop}
    (I : List α → β → σ → Prop) (hinit : I [] b s)
    (hstep : ∀ done a rest, l = done ++ a :: rest → ∀ b s, I done b s →
      wp (f b a) (fun b' t ↦ I (done ++ [a]) b' t) F s)
    (hQ : ∀ b t, I l b t → Q b t) : wp (fold f l b) Q F s := by
  have hrest : ∀ (rest done : List α) (b : β) (s : σ), l = done ++ rest → I done b s →
      wp (fold f rest b) Q F s := by
    intro rest
    induction rest with
    | nil =>
      intro done b s hl hI
      rw [List.append_nil] at hl
      exact hQ b s (hl ▸ hI)
    | cons a rest ih =>
      intro done b s hl hI
      refine wp_bind (wp_mono (hstep done a rest hl b s hI) (fun b' t hI' ↦ ?_) fun _ _ h ↦ h)
      exact ih (done ++ [a]) b' t (by rw [hl, List.append_assoc, List.singleton_append]) hI'
  exact hrest l [] b s rfl hinit

theorem wp_forEach {f : α → Effect σ ε Unit} {l : List α} {Q : Unit → σ → Prop}
    (I : List α → σ → Prop) (hinit : I [] s)
    (hstep : ∀ done a rest, l = done ++ a :: rest → ∀ s, I done s →
      wp (f a) (fun _ t ↦ I (done ++ [a]) t) F s)
    (hQ : ∀ t, I l t → Q () t) : wp (forEach l f) Q F s :=
  wp_fold (fun done _ ↦ I done) hinit (fun done a rest hl _ s ↦ hstep done a rest hl s)
    fun _ ↦ hQ

/-- What a routine did, read off its weakest precondition. -/
theorem of_wp_ok {p : Effect σ ε α} (h : wp p Q F s) {a : α} {t : σ} (hp : p s = (.ok a, t)) :
    Q a t := by
  unfold wp at h
  rw [hp] at h
  exact h

/-- What a routine leaves behind, whether it fails or not. -/
theorem state_of_wp {p : Effect σ ε α} {I : σ → Prop} (h : wp p (fun _ ↦ I) (fun _ ↦ I) s) :
    I (p s).2 := by
  unfold wp at h
  rcases hp : p s with ⟨e | a, t⟩
  · rw [hp] at h; exact h
  · rw [hp] at h; exact h

theorem of_wp_error {p : Effect σ ε α} (h : wp p Q F s) {e : ε} {t : σ}
    (hp : p s = (.error e, t)) : F e t := by
  unfold wp at h
  rw [hp] at h
  exact h

/-! ### Invariants -/

/-- The routine keeps the property, whether it fails or not. -/
def Maintains (I : σ → Prop) (p : Effect σ ε α) : Prop := ∀ s, I s → wp p (fun _ ↦ I) (fun _ ↦ I) s

variable {I : σ → Prop} {p : Effect σ ε α}

theorem Maintains.wp (h : Maintains I p) (hs : I s) : wp p (fun _ ↦ I) (fun _ ↦ I) s := h s hs

theorem Maintains.state (h : Maintains I p) (hs : I s) : I (p s).2 := state_of_wp (h s hs)

theorem maintains_of_state (h : ∀ s, I s → I (p s).2) : Maintains I p := fun s hs ↦ by
  have hstate := h s hs
  unfold wp
  rcases hp : p s with ⟨e | a, t⟩
  · rw [hp] at hstate
    exact hstate
  · rw [hp] at hstate
    exact hstate

theorem maintains_pure (a : α) : Maintains I (pure a : Effect σ ε α) := fun _ hs ↦ wp_pure hs

theorem maintains_throw (e : ε) : Maintains I (throw e : Effect σ ε α) := fun _ hs ↦ wp_throw hs

theorem maintains_get : Maintains I (get : Effect σ ε σ) := fun _ hs ↦ wp_get hs

theorem maintains_ofExcept (x : Except ε α) : Maintains I (ofExcept x) := fun _ hs ↦
  wp_ofExcept (fun _ _ ↦ hs) fun _ _ ↦ hs

theorem maintains_modify {f : σ → σ} (h : ∀ s, I s → I (f s)) :
    Maintains I (modify f : Effect σ ε Unit) := fun s hs ↦ wp_modify (h s hs)

theorem maintains_bind {p : Effect σ ε β} {f : β → Effect σ ε α} (hp : Maintains I p)
    (hf : ∀ b, Maintains I (f b)) : Maintains I (p >>= f) := fun s hs ↦
  wp_bind (wp_mono (hp s hs) (fun b t ht ↦ hf b t ht) fun _ _ ht ↦ ht)

/-- What follows a look at the state may use what was seen. -/
theorem maintains_get_bind {f : σ → Effect σ ε α}
    (h : ∀ s, I s → wp (f s) (fun _ ↦ I) (fun _ ↦ I) s) : Maintains I (get >>= f) := fun s hs ↦
  wp_bind (wp_get (h s hs))

theorem maintains_fold {f : β → α → Effect σ ε β} {l : List α} (b : β)
    (h : ∀ b a, Maintains I (f b a)) : Maintains I (fold f l b) := fun _ hs ↦
  wp_fold (fun _ _ ↦ I) hs (fun _ a _ _ b t ht ↦ h b a t ht) fun _ _ ht ↦ ht

theorem maintains_forEach {f : α → Effect σ ε Unit} {l : List α} (h : ∀ a, Maintains I (f a)) :
    Maintains I (forEach l f) := maintains_fold () fun _ a ↦ h a

/-! ### Errors -/

/-- The routine fails with errors of a kind only. -/
def FailsOnly (F : ε → Prop) (p : Effect σ ε α) : Prop := ∀ s, (p s).1.FailsOnly F

variable {F : ε → Prop}

theorem failsOnly_pure (a : α) : FailsOnly F (pure a : Effect σ ε α) := fun _ ↦ Except.failsOnly_ok a

theorem failsOnly_throw {e : ε} (h : F e) : FailsOnly F (throw e : Effect σ ε α) := fun _ ↦
  Except.failsOnly_error h

theorem failsOnly_get : FailsOnly F (get : Effect σ ε σ) := fun s ↦ Except.failsOnly_ok s

theorem failsOnly_modify (f : σ → σ) : FailsOnly F (modify f : Effect σ ε Unit) := fun _ ↦
  Except.failsOnly_ok ()

theorem failsOnly_ofExcept {x : Except ε α} (h : x.FailsOnly F) :
    FailsOnly F (ofExcept x : Effect σ ε α) := fun _ ↦ by
  cases x with
  | ok a => exact Except.failsOnly_ok a
  | error e => exact h

theorem failsOnly_bind {p : Effect σ ε β} {f : β → Effect σ ε α} (hp : FailsOnly F p)
    (hf : ∀ b, FailsOnly F (f b)) : FailsOnly F (p >>= f) := fun s ↦ by
  show (Effect.bind p f s).1.FailsOnly F
  have hfirst := hp s
  unfold Effect.bind
  rcases hrun : p s with ⟨e | b, t⟩
  · rw [hrun] at hfirst
    exact Except.failsOnly_error (hfirst e rfl)
  · exact hf b t

theorem failsOnly_fold {f : β → α → Effect σ ε β} (hf : ∀ b a, FailsOnly F (f b a)) :
    ∀ (l : List α) (b : β), FailsOnly F (fold f l b)
  | [], b => failsOnly_pure b
  | a :: l, b => failsOnly_bind (hf b a) fun b' ↦ failsOnly_fold hf l b'

theorem failsOnly_forEach {f : α → Effect σ ε Unit} (hf : ∀ a, FailsOnly F (f a)) (l : List α) :
    FailsOnly F (forEach l f) := failsOnly_fold (fun _ a ↦ hf a) l ()

end Effect
