import Mathlib.Data.List.Basic
import Mathlib.Order.Lattice

/-!
# Binary search on a sorted list

`slice::binary_search` returns `Ok` with the index of a matching element, or `Err` with the index
at which the key can be inserted keeping the order. Which of several equal elements it returns is
left open by its documentation, so the routines that call it take any function with that contract
(`BinarySearch`). `BinarySearch.std` is the standard library's loop, which halves the range and
ends on the last element that is not greater than the key.
-/

/-- A search routine with the documented contract of `slice::binary_search`, on sorted lists. -/
structure BinarySearch (K : Type) [LinearOrder K] where
  /-- The search: `ok` of a matching index, or `error` of an insertion point. -/
  search : List K → K → Except Nat Nat
  /-- A reported match is one. -/
  ok_spec : ∀ {l : List K} {k : K} {i : Nat}, l.Pairwise (· ≤ ·) → search l k = .ok i →
    l[i]? = some k
  /-- A reported insertion point has the smaller elements before it and the greater after it. -/
  error_spec : ∀ {l : List K} {k : K} {i : Nat}, l.Pairwise (· ≤ ·) → search l k = .error i →
    i ≤ l.length ∧ (∀ x ∈ l.take i, x < k) ∧ ∀ x ∈ l.drop i, k < x

namespace BinarySearch

variable {K : Type} [LinearOrder K]

/-- A reported match lies in the list. -/
theorem lt_length_of_ok (bs : BinarySearch K) {l : List K} {k : K} {i : Nat}
    (hl : l.Pairwise (· ≤ ·)) (h : bs.search l k = .ok i) : i < l.length :=
  (List.getElem?_eq_some_iff.1 (bs.ok_spec hl h)).1

/-- No match is missed: an insertion point is reported only for an absent key. -/
theorem not_mem_of_error (bs : BinarySearch K) {l : List K} {k : K} {i : Nat}
    (hl : l.Pairwise (· ≤ ·)) (h : bs.search l k = .error i) : k ∉ l := by
  obtain ⟨-, hlt, hgt⟩ := bs.error_spec hl h
  intro hk
  rw [← List.take_append_drop i l] at hk
  rcases List.mem_append.1 hk with hk | hk
  · exact lt_irrefl k (hlt k hk)
  · exact lt_irrefl k (hgt k hk)

/-! ### The standard library's loop -/

/-- The halving loop: `size` elements from `base` on are still in question. -/
def stdLoop (l : List K) (k : K) : Nat → Nat → Nat → Nat
  | 0, _, base => base
  | fuel + 1, size, base =>
    if size ≤ 1 then base
    else
      let half := size / 2
      let mid := base + half
      match l[mid]? with
      | some x => stdLoop l k fuel (size - half) (if k < x then base else mid)
      | none => base

/-- The search built on the loop: one last comparison decides between match and insertion point. -/
def stdSearch (l : List K) (k : K) : Except Nat Nat :=
  let base := stdLoop l k l.length l.length 0
  match l[base]? with
  | none => .error 0
  | some x => if x = k then .ok base else if x < k then .error (base + 1) else .error 0

/-- Elements of a sorted list are in the order of their indices. -/
theorem le_of_getElem?_of_le {l : List K} (hl : l.Pairwise (· ≤ ·)) {i j : Nat} {x y : K}
    (hij : i ≤ j) (hx : l[i]? = some x) (hy : l[j]? = some y) : x ≤ y := by
  obtain ⟨hi, rfl⟩ := List.getElem?_eq_some_iff.1 hx
  obtain ⟨hj, rfl⟩ := List.getElem?_eq_some_iff.1 hy
  rcases Nat.eq_or_lt_of_le hij with rfl | hlt
  · exact le_rfl
  · exact List.pairwise_iff_getElem.1 hl i j hi hj hlt

/-- What the loop ends on: everything past its result is greater than the key, and the result
itself is not, unless it is the first index. -/
theorem stdLoop_spec {l : List K} {k : K} (hl : l.Pairwise (· ≤ ·)) :
    ∀ {fuel size base : Nat}, size ≤ fuel → 0 < size → base + size ≤ l.length →
      (∀ j x, base + size ≤ j → l[j]? = some x → k < x) →
      (base = 0 ∨ ∃ x, l[base]? = some x ∧ x ≤ k) →
      stdLoop l k fuel size base < l.length ∧
        (∀ j x, stdLoop l k fuel size base < j → l[j]? = some x → k < x) ∧
        (stdLoop l k fuel size base = 0 ∨ ∃ x, l[stdLoop l k fuel size base]? = some x ∧ x ≤ k) := by
  intro fuel
  induction fuel with
  | zero => intro size base hsize hpos; omega
  | succ fuel ih =>
    intro size base hsize hpos hlen hgt hle
    rw [stdLoop]
    by_cases h1 : size ≤ 1
    · rw [if_pos h1]
      exact ⟨by omega, fun j x hj ↦ hgt j x (by omega), hle⟩
    · rw [if_neg h1]
      have hmid : l[base + size / 2]? = some (l.get ⟨base + size / 2, by omega⟩) :=
        List.getElem?_eq_getElem _
      simp only [hmid]
      split
      · -- everything from the middle on is at least its element, which is greater than the key
        rename_i hk
        exact ih (by omega) (by omega) (by omega)
          (fun j x hj hx ↦ lt_of_lt_of_le hk (le_of_getElem?_of_le hl (by omega) hmid hx)) hle
      · rename_i hk
        exact ih (by omega) (by omega) (by omega) (fun j x hj ↦ hgt j x (by omega))
          (Or.inr ⟨_, hmid, not_lt.1 hk⟩)

/-- The last element not greater than the key, as the loop finds it in a nonempty sorted list. -/
theorem stdLoop_length_spec {l : List K} {k : K} (hl : l.Pairwise (· ≤ ·)) (hne : 0 < l.length) :
    stdLoop l k l.length l.length 0 < l.length ∧
      (∀ j x, stdLoop l k l.length l.length 0 < j → l[j]? = some x → k < x) ∧
      (stdLoop l k l.length l.length 0 = 0 ∨
        ∃ x, l[stdLoop l k l.length l.length 0]? = some x ∧ x ≤ k) :=
  stdLoop_spec hl (Nat.le_refl _) hne (by omega)
    (fun j x hj hx ↦ absurd (List.getElem?_eq_some_iff.1 hx).1 (by omega)) (Or.inl rfl)

theorem stdSearch_ok {l : List K} {k : K} {i : Nat} (h : stdSearch l k = .ok i) :
    l[i]? = some k := by
  rw [stdSearch] at h
  revert h
  generalize stdLoop l k l.length l.length 0 = base
  intro h
  rcases hx : l[base]? with _ | x
  · rw [hx] at h; cases h
  · rw [hx] at h
    dsimp only at h
    split at h
    · rename_i heq
      cases h
      rw [hx, heq]
    · split at h <;> cases h

theorem stdSearch_error {l : List K} {k : K} {i : Nat} (hl : l.Pairwise (· ≤ ·))
    (h : stdSearch l k = .error i) :
    i ≤ l.length ∧ (∀ x ∈ l.take i, x < k) ∧ ∀ x ∈ l.drop i, k < x := by
  rcases Nat.eq_zero_or_pos l.length with hnil | hne
  · obtain rfl := List.eq_nil_of_length_eq_zero hnil
    cases h
    simp
  · obtain ⟨hlt, hgt, hle⟩ := stdLoop_length_spec (k := k) hl hne
    rw [stdSearch] at h
    revert h hlt hgt hle
    generalize stdLoop l k l.length l.length 0 = base
    intro h hlt hgt hle
    have hx : l[base]? = some l[base] := List.getElem?_eq_getElem hlt
    simp only [hx] at h hle
    split at h
    · cases h
    · rename_i hne'
      split at h
      · rename_i hlt'
        cases h
        refine ⟨hlt, fun y hy ↦ ?_, fun y hy ↦ ?_⟩
        · obtain ⟨j, hj, rfl⟩ := List.mem_take_iff_getElem.1 hy
          exact lt_of_le_of_lt (le_of_getElem?_of_le hl (by omega)
            (List.getElem?_eq_getElem (by omega)) hx) hlt'
        · obtain ⟨j, hj, rfl⟩ := List.mem_drop_iff_getElem.1 hy
          exact hgt (base + 1 + j) _ (by omega) (List.getElem?_eq_getElem (by omega))
      · -- the result is the first index and already greater than the key
        rename_i hnlt
        cases h
        have hkx : k < l[base] := lt_of_le_of_ne (not_lt.1 hnlt) (Ne.symm hne')
        have hbase : base = 0 := by
          rcases hle with h0 | ⟨x, hx', hxk⟩
          · exact h0
          · obtain rfl := Option.some.inj hx'
            exact absurd hxk (not_le.2 hkx)
        subst hbase
        refine ⟨by omega, by simp, fun y hy ↦ ?_⟩
        obtain ⟨j, hj, rfl⟩ := List.mem_drop_iff_getElem.1 hy
        exact lt_of_lt_of_le hkx (le_of_getElem?_of_le hl (by omega) hx
          (List.getElem?_eq_getElem (by omega)))

/-- The standard library's search. -/
def std : BinarySearch K where
  search := stdSearch
  ok_spec _ h := stdSearch_ok h
  error_spec := stdSearch_error

end BinarySearch
