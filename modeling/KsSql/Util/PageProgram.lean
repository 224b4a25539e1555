import Mathlib.Logic.Basic

/-!
# Programs over a page device

A storage routine that talks to its pages one request at a time, as a value: `PageProgram N E α`
is a tree of requests whose leaves are results of type `α` or errors of type `E`. Reading a page,
writing one, appending a page image to a log and asking for the page count are the requests; the
pages themselves are of an arbitrary type `N`.

Keeping the routine apart from the device that serves it lets one definition have several meanings.
Here it is run against a `Device` one request after another (`run`); a run keeps its final state
also when it ends in an error, since what was written stays written.

`wp` is the rule set for such runs: `D.wp B p Q F s` says that, run from `s`, the program `p` ends
in a result satisfying `Q` or in an error satisfying `F`. The parameter `B` bounds the states the
statement is about, for instance by the number of pages they hold: runs whose last state lies
outside `B` are not spoken of. A bound that only ever gets lost along a run (`Guard`) therefore
holds in every intermediate state too, which is what `wp_bind` needs.
-/

/-- A routine over pages of type `N`, failing with errors of type `E`. -/
inductive PageProgram (N E α : Type) : Type where
  /-- The routine is done. -/
  | done (a : α)
  /-- The routine fails. -/
  | fail (e : E)
  /-- Read page `pid`. -/
  | read (pid : Nat) (next : N → PageProgram N E α)
  /-- Overwrite page `pid`. -/
  | write (pid : Nat) (n : N) (next : PageProgram N E α)
  /-- Append the image `n` of page `pid` to the log; the log may refuse it. -/
  | log (pid : Nat) (n : N) (next : PageProgram N E α)
  /-- Ask for the number of pages. -/
  | numPages (next : Nat → PageProgram N E α)

namespace PageProgram

variable {N E α β : Type}

/-- Sequencing: the second routine runs on the result of the first. -/
protected def bind : PageProgram N E α → (α → PageProgram N E β) → PageProgram N E β
  | .done a, f => f a
  | .fail e, _ => .fail e
  | .read pid k, f => .read pid fun n ↦ (k n).bind f
  | .write pid n k, f => .write pid n (k.bind f)
  | .log pid n k, f => .log pid n (k.bind f)
  | .numPages k, f => .numPages fun n ↦ (k n).bind f

instance : Monad (PageProgram N E) where
  pure := .done
  bind := PageProgram.bind

/-- Read page `pid`, as a routine of its own. -/
def readPage (pid : Nat) : PageProgram N E N := .read pid .done

/-- Overwrite page `pid`, as a routine of its own. -/
def writePage (pid : Nat) (n : N) : PageProgram N E Unit := .write pid n (.done ())

/-- Log the image of page `pid`, as a routine of its own. -/
def logPage (pid : Nat) (n : N) : PageProgram N E Unit := .log pid n (.done ())

/-- Ask for the number of pages, as a routine of its own. -/
def countPages : PageProgram N E Nat := .numPages .done

/-- A check in the middle of a routine: it fails with `e` unless `c` holds. -/
def require (c : Prop) [Decidable c] (e : E) : PageProgram N E Unit :=
  if c then .done () else .fail e

/-- A read comes before what follows. -/
theorem read_bind (pid : Nat) (next : N → PageProgram N E α) (f : α → PageProgram N E β) :
    .read pid next >>= f = .read pid fun n ↦ next n >>= f := rfl

theorem readPage_bind (pid : Nat) (k : N → PageProgram N E α) : readPage pid >>= k = .read pid k := rfl

/-- The routine reads pages and requests nothing else. -/
def ReadOnly : PageProgram N E α → Prop
  | .done _ => True
  | .fail _ => True
  | .read _ next => ∀ n, (next n).ReadOnly
  | .write _ _ _ => False
  | .log _ _ _ => False
  | .numPages _ => False

theorem ReadOnly.bind {p : PageProgram N E α} {f : α → PageProgram N E β} (hp : p.ReadOnly)
    (hf : ∀ a, (f a).ReadOnly) : (p >>= f).ReadOnly := by
  show (p.bind f).ReadOnly
  induction p with
  | done a => exact hf a
  | fail e => trivial
  | read pid k ih => exact fun n ↦ ih n (hp n)
  | write pid n k ih => exact hp.elim
  | log pid n k ih => exact hp.elim
  | numPages k ih => exact hp.elim

/-- Every page that the routine writes satisfies `C`. -/
def WritesOnly (C : N → Prop) : PageProgram N E α → Prop
  | .done _ => True
  | .fail _ => True
  | .read _ next => ∀ n, (next n).WritesOnly C
  | .write _ n next => C n ∧ next.WritesOnly C
  | .log _ _ next => next.WritesOnly C
  | .numPages next => ∀ n, (next n).WritesOnly C

theorem WritesOnly.bind {C : N → Prop} {p : PageProgram N E α} {f : α → PageProgram N E β}
    (hp : p.WritesOnly C) (hf : ∀ a, (f a).WritesOnly C) : (p >>= f).WritesOnly C := by
  show (p.bind f).WritesOnly C
  induction p with
  | done a => exact hf a
  | fail e => trivial
  | read pid k ih => exact fun n ↦ ih n (hp n)
  | write pid n k ih => exact ⟨hp.1, ih hp.2⟩
  | log pid n k ih => exact ih hp
  | numPages k ih => exact fun n ↦ ih n (hp n)

theorem WritesOnly.require {C : N → Prop} {c : Prop} [Decidable c] {e : E} :
    (PageProgram.require c e).WritesOnly C := by
  rw [PageProgram.require]
  split <;> trivial

/-- While the pages that the routine reads satisfy `C`, so do those that it writes and logs, and its
result satisfies `Q`. -/
def Maintains (C : N → Prop) (Q : α → Prop) : PageProgram N E α → Prop
  | .done a => Q a
  | .fail _ => True
  | .read _ next => ∀ n, C n → (next n).Maintains C Q
  | .write _ n next => C n ∧ next.Maintains C Q
  | .log _ n next => C n ∧ next.Maintains C Q
  | .numPages next => ∀ n, (next n).Maintains C Q

theorem Maintains.bind {C : N → Prop} {Q : α → Prop} {Q' : β → Prop} {p : PageProgram N E α}
    {f : α → PageProgram N E β} (hp : p.Maintains C Q) (hf : ∀ a, Q a → (f a).Maintains C Q') :
    (p >>= f).Maintains C Q' := by
  show (p.bind f).Maintains C Q'
  induction p with
  | done a => exact hf a hp
  | fail e => trivial
  | read pid k ih => exact fun n hn ↦ ih n (hp n hn)
  | write pid n k ih => exact ⟨hp.1, ih hp.2⟩
  | log pid n k ih => exact ⟨hp.1, ih hp.2⟩
  | numPages k ih => exact fun n ↦ ih n (hp n)

theorem Maintains.mono {C : N → Prop} {Q Q' : α → Prop} {p : PageProgram N E α}
    (hp : p.Maintains C Q) (hQ : ∀ a, Q a → Q' a) : p.Maintains C Q' := by
  induction p with
  | done a => exact hQ a hp
  | fail e => trivial
  | read pid k ih => exact fun n hn ↦ ih n (hp n hn)
  | write pid n k ih => exact ⟨hp.1, ih hp.2⟩
  | log pid n k ih => exact ⟨hp.1, ih hp.2⟩
  | numPages k ih => exact fun n ↦ ih n (hp n)

theorem maintains_require {C : N → Prop} {c : Prop} [Decidable c] {e : E} :
    (require c e).Maintains C fun _ ↦ c := by
  rw [require]
  split
  · assumption
  · trivial

/-- What the routine writes was logged just before, except a blank page, which it writes under the number
of pages just asked for. -/
inductive Saves (blank : N) : PageProgram N E α → Prop
  | done (a : α) : Saves blank (.done a)
  | fail (e : E) : Saves blank (.fail e)
  | read (pid : Nat) {next : N → PageProgram N E α} :
      (∀ n, Saves blank (next n)) → Saves blank (.read pid next)
  | save (pid : Nat) (n : N) {next : PageProgram N E α} :
      Saves blank next → Saves blank (.log pid n (.write pid n next))
  | extend {next : Nat → PageProgram N E α} :
      (∀ pid, Saves blank (next pid)) → Saves blank (.numPages fun pid ↦ .write pid blank (next pid))

theorem Saves.bind {blank : N} {p : PageProgram N E α} {f : α → PageProgram N E β}
    (hp : p.Saves blank) (hf : ∀ a, (f a).Saves blank) : (p >>= f).Saves blank := by
  show (p.bind f).Saves blank
  induction hp with
  | done a => exact hf a
  | fail e => exact .fail e
  | read pid _ ih => exact .read pid ih
  | save pid n _ ih => exact .save pid n ih
  | extend _ ih => exact .extend ih

theorem saves_require {blank : N} {c : Prop} [Decidable c] {e : E} :
    (require c e).Saves blank := by
  rw [require]
  split
  · exact .done ()
  · exact .fail e

end PageProgram

/-- A device serving page requests, with states of type `σ`. -/
structure Device (σ N E : Type) where
  /-- The content of a page. -/
  read : Nat → σ → N
  /-- The state after a page write. -/
  write : Nat → N → σ → σ
  /-- The state after an image was appended to the log, or why it was refused. -/
  log : Nat → N → σ → Except E σ
  /-- The number of pages the device reports, and the state after the request. -/
  numPages : σ → Nat × σ

namespace Device

open PageProgram

variable {σ N E α β : Type} (D : Device σ N E)

/-- Serve a routine's requests one after another. The final state is kept on error. -/
def run : PageProgram N E α → σ → Except E α × σ
  | .done a, s => (.ok a, s)
  | .fail e, s => (.error e, s)
  | .read pid k, s => run (k (D.read pid s)) s
  | .write pid n k, s => run k (D.write pid n s)
  | .log pid n k, s =>
    match D.log pid n s with
    | .ok t => run k t
    | .error e => (.error e, s)
  | .numPages k, s => run (k (D.numPages s).1) (D.numPages s).2

/-- Running a sequence is running its parts in order, stopping at the first error. -/
theorem run_bind (p : PageProgram N E α) (f : α → PageProgram N E β) (s : σ) :
    D.run (p >>= f) s =
      match D.run p s with
      | (.ok a, t) => D.run (f a) t
      | (.error e, t) => (.error e, t) := by
  show D.run (p.bind f) s = _
  induction p generalizing s with
  | done a => rfl
  | fail e => rfl
  | read pid k ih => exact ih _ s
  | write pid n k ih => exact ih _
  | log pid n k ih =>
    rw [PageProgram.bind, run, run]
    cases D.log pid n s with
    | ok t => exact ih t
    | error e => rfl
  | numPages k ih => exact ih _ _

/-- A sequence that is done has done its first part. -/
theorem exists_run_of_bind {p : PageProgram N E α} {f : α → PageProgram N E β} {s : σ} {b : β}
    (h : (D.run (p >>= f) s).1 = .ok b) :
    ∃ a t, D.run p s = (.ok a, t) ∧ D.run (p >>= f) s = D.run (f a) t := by
  rw [run_bind] at h ⊢
  rcases hrun : D.run p s with ⟨e | a, t⟩
  · rw [hrun] at h
    cases h
  · exact ⟨a, t, rfl, rfl⟩

/-! ### Routines that only read -/

/-- A routine that only reads leaves the state alone, and its result depends on nothing but the pages
it can read. -/
theorem run_of_readOnly {s : σ} {p : PageProgram N E α} (hp : p.ReadOnly) :
    (D.run p s).2 = s ∧
      ∀ t, (∀ pid, D.read pid t = D.read pid s) → (D.run p t).1 = (D.run p s).1 := by
  induction p with
  | done a => exact ⟨rfl, fun _ _ ↦ rfl⟩
  | fail e => exact ⟨rfl, fun _ _ ↦ rfl⟩
  | read pid k ih =>
    obtain ⟨hstate, hresult⟩ := ih (D.read pid s) (hp _)
    refine ⟨hstate, fun t ht ↦ ?_⟩
    rw [run, run, ht pid]
    exact hresult t ht
  | write pid n k ih => exact hp.elim
  | log pid n k ih => exact hp.elim
  | numPages k ih => exact hp.elim

/-! ### Bounds that hold along a run -/

/-- A bound on states that can only get lost along a run: it held before whenever it holds after. -/
structure Guard (B : σ → Prop) : Prop where
  /-- No page write brings the bound back. -/
  write : ∀ {pid : Nat} {n : N} {s : σ}, B (D.write pid n s) → B s
  /-- No append to the log brings the bound back. -/
  log : ∀ {pid : Nat} {n : N} {s t : σ}, D.log pid n s = .ok t → B t → B s
  /-- No request for the page count brings the bound back. -/
  numPages : ∀ {s : σ}, B (D.numPages s).2 → B s

variable {D}

/-- What every request keeps, a whole run keeps. -/
theorem run_invariant {I : σ → Prop} (hwrite : ∀ pid n s, I s → I (D.write pid n s))
    (hlog : ∀ pid n s t, D.log pid n s = .ok t → I s → I t)
    (hnum : ∀ s, I s → I (D.numPages s).2) (p : PageProgram N E α) {s : σ} (hs : I s) :
    I (D.run p s).2 := by
  induction p generalizing s with
  | done a => exact hs
  | fail e => exact hs
  | read pid k ih => exact ih _ hs
  | write pid n k ih => exact ih (hwrite pid n s hs)
  | log pid n k ih =>
    rw [run]
    rcases h : D.log pid n s with e | t
    · exact hs
    · exact ih (hlog pid n s t h hs)
  | numPages k ih => exact ih _ (hnum s hs)

/-- What every request keeps, when only such pages are written, a whole run of a routine that writes
only such pages keeps. -/
theorem run_invariant_of_writesOnly {C : N → Prop} {I : σ → Prop}
    (hwrite : ∀ pid n s, C n → I s → I (D.write pid n s))
    (hlog : ∀ pid n s t, D.log pid n s = .ok t → I s → I t)
    (hnum : ∀ s, I s → I (D.numPages s).2) {p : PageProgram N E α} (hp : p.WritesOnly C) {s : σ}
    (hs : I s) : I (D.run p s).2 := by
  induction p generalizing s with
  | done a => exact hs
  | fail e => exact hs
  | read pid k ih => exact ih _ (hp _) hs
  | write pid n k ih => exact ih hp.2 (hwrite pid n s hp.1 hs)
  | log pid n k ih =>
    rw [run]
    rcases h : D.log pid n s with e | t
    · exact hs
    · exact ih hp (hlog pid n s t h hs)
  | numPages k ih => exact ih _ (hp _) (hnum s hs)

/-- What every request with a page satisfying `C` keeps, and what makes all pages satisfy `C`, a run of
a routine that maintains `C` keeps, and its result is as promised. -/
theorem run_of_maintains {C : N → Prop} {Q : α → Prop} {I : σ → Prop}
    (hread : ∀ pid s, I s → C (D.read pid s))
    (hwrite : ∀ pid n s, C n → I s → I (D.write pid n s))
    (hlog : ∀ pid n s t, C n → D.log pid n s = .ok t → I s → I t)
    (hnum : ∀ s, I s → I (D.numPages s).2) {p : PageProgram N E α} (hp : p.Maintains C Q) {s : σ}
    (hs : I s) : I (D.run p s).2 ∧ ∀ a, (D.run p s).1 = .ok a → Q a := by
  induction p generalizing s with
  | done a => exact ⟨hs, fun b hb ↦ Except.ok.inj hb ▸ hp⟩
  | fail e => exact ⟨hs, fun b hb ↦ nomatch hb⟩
  | read pid k ih => exact ih _ (hp _ (hread pid s hs)) hs
  | write pid n k ih => exact ih hp.2 (hwrite pid n s hp.1 hs)
  | log pid n k ih =>
    rw [run]
    rcases h : D.log pid n s with e | t
    · exact ⟨hs, fun b hb ↦ nomatch hb⟩
    · exact ih hp.2 (hlog pid n s t hp.1 h hs)
  | numPages k ih => exact ih _ (hp _) (hnum s hs)

/-- What is kept when a page is logged and then written, and when a blank page is written under the
number of pages, a run of a routine that saves its pages keeps. -/
theorem run_of_saves {blank : N} {I : σ → Prop}
    (hsave : ∀ pid n s t, D.log pid n s = .ok t → I s → I (D.write pid n t))
    (hextend : ∀ s, I s → I (D.write (D.numPages s).1 blank (D.numPages s).2))
    {p : PageProgram N E α} (hp : p.Saves blank) {s : σ} (hs : I s) : I (D.run p s).2 := by
  induction hp generalizing s with
  | done a => exact hs
  | fail e => exact hs
  | read pid _ ih => exact ih _ hs
  | save pid n _ ih =>
    rw [run]
    rcases h : D.log pid n s with e | t
    · exact hs
    · exact ih (hsave pid n s t h hs)
  | extend _ ih => exact ih _ (hextend s hs)

/-- A guarding bound held at the start of every run that ends inside it. -/
theorem Guard.run {B : σ → Prop} (hB : D.Guard B) (p : PageProgram N E α) {s : σ} :
    B (D.run p s).2 → B s := by
  induction p generalizing s with
  | done a => exact id
  | fail e => exact id
  | read pid k ih => exact ih _
  | write pid n k ih => exact fun h ↦ hB.write (ih h)
  | log pid n k ih =>
    intro h
    rw [Device.run] at h
    rcases hlog : D.log pid n s with e | t
    · rw [hlog] at h; exact h
    · rw [hlog] at h; exact hB.log hlog (ih h)
  | numPages k ih => exact fun h ↦ hB.numPages (ih _ h)

variable (D)

/-! ### Weakest preconditions -/

/-- A run's outcome, judged by `Q` on a result and by `F` on an error. -/
def Outcome (Q : α → σ → Prop) (F : E → σ → Prop) : Except E α × σ → Prop
  | (.ok a, t) => Q a t
  | (.error e, t) => F e t

/-- Run from `s`, `p` ends in a result satisfying `Q` or in an error satisfying `F`, provided its
last state satisfies the bound `B`. -/
def wp (B : σ → Prop) (p : PageProgram N E α) (Q : α → σ → Prop) (F : E → σ → Prop) (s : σ) : Prop :=
  B (D.run p s).2 → Outcome Q F (D.run p s)

variable {D} {B : σ → Prop} {Q : α → σ → Prop} {F : E → σ → Prop} {s : σ}

theorem wp_done {a : α} (h : B s → Q a s) : D.wp B (.done a) Q F s := h

theorem wp_fail {e : E} (h : B s → F e s) : D.wp B (.fail e) Q F s := h

theorem wp_read {pid : Nat} {k : N → PageProgram N E α}
    (h : D.wp B (k (D.read pid s)) Q F s) : D.wp B (.read pid k) Q F s := h

/-- **Consequence.** Postconditions may be weakened, with the bound known in the last state. -/
theorem wp_mono {p : PageProgram N E α} {Q' : α → σ → Prop} {F' : E → σ → Prop}
    (h : D.wp B p Q F s) (hQ : ∀ a t, B t → Q a t → Q' a t) (hF : ∀ e t, B t → F e t → F' e t) :
    D.wp B p Q' F' s := by
  intro hb
  have hout := h hb
  revert hb hout
  rcases D.run p s with ⟨e | a, t⟩
  · exact fun hb hout ↦ hF e t hb hout
  · exact fun hb hout ↦ hQ a t hb hout

/-- Two specifications of one run hold together. -/
theorem wp_and {p : PageProgram N E α} {Q' : α → σ → Prop} {F' : E → σ → Prop}
    (h : D.wp B p Q F s) (h' : D.wp B p Q' F' s) :
    D.wp B p (fun a t ↦ Q a t ∧ Q' a t) (fun e t ↦ F e t ∧ F' e t) s := by
  intro hb
  have hout := h hb
  have hout' := h' hb
  revert hout hout'
  rcases D.run p s with ⟨e | a, t⟩
  · exact fun hout hout' ↦ ⟨hout, hout'⟩
  · exact fun hout hout' ↦ ⟨hout, hout'⟩

/-- **Sequencing.** The first part must establish what the second part needs. -/
theorem wp_bind (hB : D.Guard B) {p : PageProgram N E β} {f : β → PageProgram N E α}
    (h : D.wp B p (fun b t ↦ D.wp B (f b) Q F t) F s) : D.wp B (p >>= f) Q F s := by
  unfold wp at h ⊢
  rw [run_bind]
  revert h
  rcases D.run p s with ⟨e | b, t⟩
  · exact id
  · intro h hb
    exact h (hB.run _ hb) hb

theorem wp_require {c : Prop} [Decidable c] {e : E} {Q : Unit → σ → Prop} (hc : c)
    (h : B s → Q () s) : D.wp B (PageProgram.require c e) Q F s := by
  rw [PageProgram.require, if_pos hc]
  exact wp_done h

/-- What a run did, read off its weakest precondition. -/
theorem outcome_of_wp {p : PageProgram N E α} (h : D.wp B p Q F s) {r : Except E α} {t : σ}
    (hrun : D.run p s = (r, t)) (hb : B t) : Outcome Q F (r, t) := by
  unfold wp at h
  rw [hrun] at h
  exact h hb

end Device
