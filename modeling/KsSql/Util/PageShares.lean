import KsSql.Util.PageProgram
import Mathlib.Logic.Function.Basic

/-!
# Routines that share pages

Any number of routines take their steps on the same pages, in any order. It is agreed beforehand what a
page may hold while they run (`PageShares`), and each routine may have a page of its own, which no other
routine has. A routine keeps to the agreement (`PageProgram.Within`) if it writes its own page only as
agreed, and any other page only with what the page holds anyway, whatever it may read in the pages that
are not its own.

Then no routine notices the others beyond what was agreed (`Owned.read`), and each page holds at any time
what its owner has written there (`Owned.write`).
-/

/-- What the pages may hold, and which of them may be written. -/
structure PageShares (N : Type) where
  /-- A page may hold this. -/
  Holds : Nat → N → Prop
  /-- The page may be written. -/
  Writable : Nat → Prop

namespace PageProgram

variable {N E α β : Type} {S : PageShares N} {own : Option Nat}

/-- While its own page holds `c`, the routine keeps to what was agreed. It ends in a result that satisfies
`Q`, together with what its page holds then, or in an error while its page holds something that satisfies
`F`. -/
def Within (S : PageShares N) (own : Option Nat) (Q : α → N → Prop) (F : N → Prop) :
    PageProgram N E α → N → Prop
  | .done a, c => Q a c
  | .fail _, c => F c
  | .read pid next, c =>
    (own = some pid → (next c).Within S own Q F c) ∧
      (own ≠ some pid → ∀ n, S.Holds pid n → (next n).Within S own Q F c)
  | .write pid n next, c => S.Writable pid ∧
    (own = some pid → S.Holds pid n ∧ next.Within S own Q F n) ∧
      (own ≠ some pid → (∀ n', S.Holds pid n' → n' = n) ∧ next.Within S own Q F c)
  | .log _ _ next, c => F c ∧ next.Within S own Q F c
  | .numPages _, _ => False

theorem Within.bind {Q : α → N → Prop} {Q' : β → N → Prop} {F : N → Prop} {p : PageProgram N E α}
    {f : α → PageProgram N E β} (hf : ∀ a c, Q a c → (f a).Within S own Q' F c) :
    ∀ {c : N}, p.Within S own Q F c → (p >>= f).Within S own Q' F c := by
  show ∀ {c : N}, p.Within S own Q F c → (p.bind f).Within S own Q' F c
  induction p with
  | done a => exact fun h ↦ hf a _ h
  | fail e => exact fun h ↦ h
  | read pid k ih => exact fun h ↦ ⟨fun ho ↦ ih _ (h.1 ho), fun ho n hn ↦ ih n (h.2 ho n hn)⟩
  | write pid n k ih =>
    exact fun h ↦ ⟨h.1, fun ho ↦ ⟨(h.2.1 ho).1, ih (h.2.1 ho).2⟩,
      fun ho ↦ ⟨(h.2.2 ho).1, ih (h.2.2 ho).2⟩⟩
  | log pid n k ih => exact fun h ↦ ⟨h.1, ih h.2⟩
  | numPages k ih => exact fun h ↦ h

theorem within_require {Q : Unit → N → Prop} {F : N → Prop} {b : Prop} [Decidable b] {e : E} {c : N}
    (hQ : b → Q () c) (hF : F c) : (require b e).Within S own Q F c := by
  rw [require]
  split
  · rename_i hb
    exact hQ hb
  · exact hF

end PageProgram

variable {N E α ι : Type}

/-- The pages hold what was agreed, those that a routine owns what it has written, and those that nobody
owns what they held in the beginning. -/
structure Owned (S : PageShares N) (own : ι → Option Nat) (P₀ P : Nat → N) (c : ι → N) : Prop where
  holds : ∀ pid, S.Holds pid (P pid)
  content : ∀ i pid, own i = some pid → P pid = c i
  rest : ∀ pid, (∀ i, own i ≠ some pid) → P pid = P₀ pid

namespace Owned

variable {S : PageShares N} {own : ι → Option Nat} {P₀ P : Nat → N} {c : ι → N} {i : ι} {pid : Nat}
  {Q : α → N → Prop} {F : N → Prop}

/-- A routine reads what it has written, or what was agreed. -/
theorem read (h : Owned S own P₀ P c) {next : N → PageProgram N E α}
    (hw : (PageProgram.read pid next).Within S (own i) Q F (c i)) :
    (next (P pid)).Within S (own i) Q F (c i) := by
  by_cases ho : own i = some pid
  · rw [h.content i pid ho]
    exact hw.1 ho
  · exact hw.2 ho _ (h.holds pid)

variable [DecidableEq ι]

/-- **A routine writes its page**, or nothing new. -/
theorem write (h : Owned S own P₀ P c) (hown : ∀ i j pid, own i = some pid → own j = some pid → i = j)
    {n : N} {next : PageProgram N E α}
    (hw : (PageProgram.write pid n next).Within S (own i) Q F (c i)) :
    ∃ n', next.Within S (own i) Q F n' ∧
      Owned S own P₀ (Function.update P pid n) (Function.update c i n') := by
  obtain ⟨-, hmine, hother⟩ := hw
  by_cases ho : own i = some pid
  · obtain ⟨hn, hnext⟩ := hmine ho
    refine ⟨n, hnext, fun q ↦ ?_, fun j q hj ↦ ?_, fun q hq ↦ ?_⟩
    · rcases eq_or_ne q pid with rfl | hq
      · rwa [Function.update_self]
      · rw [Function.update_of_ne hq]
        exact h.holds q
    · rcases eq_or_ne j i with rfl | hji
      · obtain rfl : pid = q := Option.some.inj (ho.symm.trans hj)
        rw [Function.update_self, Function.update_self]
      · have hq : q ≠ pid := fun heq ↦ hji (hown j i pid (heq ▸ hj) ho)
        rw [Function.update_of_ne hq, Function.update_of_ne hji]
        exact h.content j q hj
    · have hne : q ≠ pid := fun heq ↦ hq i (heq ▸ ho)
      rw [Function.update_of_ne hne]
      exact h.rest q hq
  · obtain ⟨hsame, hnext⟩ := hother ho
    rw [← hsame _ (h.holds pid), Function.update_eq_self]
    refine ⟨c i, hnext, ?_⟩
    rw [Function.update_eq_self]
    exact h

end Owned
