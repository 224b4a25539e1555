import Mathlib.Data.List.Nodup
import Mathlib.Data.List.Perm.Basic
import Mathlib.Data.List.Perm.Lattice

/-!
# First hits

Going through a list of bindings in which keys may come several times, and keeping for each key the
first value that is accepted. `firstHits f l acc` is the list of what is kept, behind what was kept
already; `firstHit f l k` is the value kept for the key `k`.

The keys of what is kept are different from each other, and the values are the first hits. So two
lists with the same first hits keep the same bindings, up to their order (`firstHits_perm`).
-/

variable {K V W : Type} [DecidableEq K]

/-- Keep an accepted value. -/
def keepHit (acc : List (K × W)) (k : K) : Option W → List (K × W)
  | some w => acc ++ [(k, w)]
  | none => acc

/-- Keep for each key the first value that `f` accepts. -/
def firstHits (f : K → V → Option W) : List (K × V) → List (K × W) → List (K × W)
  | [], acc => acc
  | (k, v) :: l, acc =>
    if k ∈ acc.map Prod.fst then firstHits f l acc else firstHits f l (keepHit acc k (f k v))

/-- The first value under the key `k` that `f` accepts. -/
def firstHit (f : K → V → Option W) (l : List (K × V)) (k : K) : Option W :=
  l.findSome? fun e ↦ if e.1 = k then f e.1 e.2 else none

variable {f : K → V → Option W} {l : List (K × V)} {k : K} {w : W}

theorem firstHit_cons_self (v : V) (l : List (K × V)) :
    firstHit f ((k, v) :: l) k = (f k v).or (firstHit f l k) := by
  rw [firstHit, List.findSome?_cons, if_pos rfl]
  cases f k v <;> rfl

theorem firstHit_cons_ne {k' : K} (h : k' ≠ k) (v : V) (l : List (K × V)) :
    firstHit f ((k', v) :: l) k = firstHit f l k := by
  rw [firstHit, List.findSome?_cons, if_neg h]
  rfl

theorem firstHit_append (l l' : List (K × V)) (k : K) :
    firstHit f (l ++ l') k = (firstHit f l k).or (firstHit f l' k) := by
  rw [firstHit, List.findSome?_append]
  rfl

/-- A hit is an accepted binding of the list. -/
theorem exists_mem_of_firstHit (h : firstHit f l k = some w) : ∃ v, (k, v) ∈ l ∧ f k v = some w := by
  obtain ⟨⟨k', v⟩, hmem, hf⟩ := List.exists_of_findSome?_eq_some h
  split at hf
  · rename_i hk
    obtain rfl : k' = k := hk
    exact ⟨v, hmem, hf⟩
  · cases hf

theorem firstHit_eq_none_iff : firstHit f l k = none ↔ ∀ v, (k, v) ∈ l → f k v = none := by
  rw [firstHit, List.findSome?_eq_none_iff]
  constructor
  · intro h v hv
    simpa using h (k, v) hv
  · rintro h ⟨k', v⟩ hmem
    by_cases hk : k' = k
    · subst hk
      simpa using h v hmem
    · simp [hk]

/-- What counts is what is accepted of the key's bindings. -/
theorem firstHit_congr {f' : K → V → Option W} :
    ∀ {l : List (K × V)}, (∀ v, (k, v) ∈ l → f k v = f' k v) → firstHit f l k = firstHit f' l k
  | [], _ => rfl
  | (k', v) :: l, h => by
    have hrest : firstHit f l k = firstHit f' l k :=
      firstHit_congr fun v hv ↦ h v (List.mem_cons_of_mem _ hv)
    by_cases hk : k' = k
    · subst hk
      rw [firstHit_cons_self, firstHit_cons_self, h v List.mem_cons_self, hrest]
    · rw [firstHit_cons_ne hk, firstHit_cons_ne hk, hrest]

/-- Where keys come once, the hit is decided by the value of the key. -/
theorem firstHit_of_mem (hl : (l.map Prod.fst).Nodup) {v : V} (hv : (k, v) ∈ l) :
    firstHit f l k = f k v := by
  induction l with
  | nil => cases hv
  | cons e l ih =>
    obtain ⟨hnot, hl⟩ := List.nodup_cons.1 hl
    rcases List.mem_cons.1 hv with rfl | hv
    · have hnone : firstHit f l k = none := firstHit_eq_none_iff.2 fun v' hv' ↦
        absurd (List.mem_map_of_mem (f := Prod.fst) hv') hnot
      rw [firstHit_cons_self, hnone]
      cases f k v <;> rfl
    · have hne : e.1 ≠ k := fun h ↦ hnot (h ▸ List.mem_map_of_mem (f := Prod.fst) hv)
      rw [show e = (e.1, e.2) from rfl, firstHit_cons_ne hne]
      exact ih hl hv

theorem firstHits_append (l l' : List (K × V)) (acc : List (K × W)) :
    firstHits f (l ++ l') acc = firstHits f l' (firstHits f l acc) := by
  induction l generalizing acc with
  | nil => rfl
  | cons e l ih =>
    rw [List.cons_append, firstHits, firstHits]
    split
    · exact ih acc
    · exact ih _

/-- Every key is kept once. -/
theorem nodup_firstHits : ∀ (l : List (K × V)) (acc : List (K × W)), (acc.map Prod.fst).Nodup →
    ((firstHits f l acc).map Prod.fst).Nodup
  | [], _, h => h
  | (k, v) :: l, acc, h => by
    rw [firstHits]
    split
    · exact nodup_firstHits l acc h
    · rename_i hk
      rcases f k v with - | w
      · exact nodup_firstHits l acc h
      · refine nodup_firstHits l _ ?_
        rw [keepHit, List.map_append, List.nodup_append]
        exact ⟨h, List.nodup_singleton _, fun a ha b hb e ↦ hk (by
          obtain rfl : b = k := List.mem_singleton.1 hb
          exact e ▸ ha)⟩

/-- What is kept are the first hits. -/
theorem mem_firstHits_iff : ∀ (l : List (K × V)) (acc : List (K × W)),
    (k, w) ∈ firstHits f l acc ↔
      (k, w) ∈ acc ∨ (k ∉ acc.map Prod.fst ∧ firstHit f l k = some w)
  | [], acc => by
    rw [firstHits, firstHit, List.findSome?_nil]
    exact ⟨Or.inl, fun h ↦ h.elim id fun h ↦ nomatch h.2⟩
  | (k', v) :: l, acc => by
    rw [firstHits]
    split
    · rename_i hk'
      rw [mem_firstHits_iff l acc]
      refine or_congr_right (and_congr_right fun hk ↦ ?_)
      rw [firstHit_cons_ne fun h : k' = k ↦ hk (h ▸ hk')]
    · rename_i hk'
      rcases hw' : f k' v with - | w'
      · rw [keepHit, mem_firstHits_iff l acc]
        refine or_congr_right (and_congr_right fun hk ↦ ?_)
        by_cases hkk : k' = k
        · subst hkk
          rw [firstHit_cons_self, hw']
          rfl
        · rw [firstHit_cons_ne hkk]
      · rw [keepHit, mem_firstHits_iff l _, List.map_append]
        by_cases hkk : k' = k
        · subst hkk
          rw [firstHit_cons_self, hw']
          simp [hk', eq_comm]
        · rw [firstHit_cons_ne hkk]
          simp [Ne.symm hkk]

/-- What is kept from the start are the first hits. -/
theorem mem_firstHits : (k, w) ∈ firstHits f l [] ↔ firstHit f l k = some w := by
  rw [mem_firstHits_iff]
  exact ⟨fun h ↦ h.elim (fun h ↦ nomatch h) And.right, fun h ↦ Or.inr ⟨List.not_mem_nil, h⟩⟩

/-- The list has each binding of the function, once. -/
structure Enumerates (m : K → Option V) (l : List (K × V)) : Prop where
  nodup : (l.map Prod.fst).Nodup
  mem_iff : ∀ k v, (k, v) ∈ l ↔ m k = some v

omit [DecidableEq K] in
/-- Two such lists differ in their order only. -/
theorem Enumerates.perm {m : K → Option V} {l l' : List (K × V)} (h : Enumerates m l)
    (h' : Enumerates m l') : l.Perm l' :=
  (List.perm_ext_iff_of_nodup h.nodup.of_map h'.nodup.of_map).2 fun x ↦
    (h.mem_iff x.1 x.2).trans (h'.mem_iff x.1 x.2).symm

/-- What is kept from the start is a list of the first hits. -/
theorem enumerates_firstHits (f : K → V → Option W) (l : List (K × V)) :
    Enumerates (firstHit f l) (firstHits f l []) :=
  ⟨nodup_firstHits l [] List.nodup_nil, fun _ _ ↦ mem_firstHits⟩

/-- **Lists with the same first hits** keep the same bindings. -/
theorem firstHits_perm {V' : Type} {f' : K → V' → Option W} {l' : List (K × V')}
    (h : ∀ k, firstHit f l k = firstHit f' l' k) :
    (firstHits f l []).Perm (firstHits f' l' []) := by
  refine (List.perm_ext_iff_of_nodup ?_ ?_).2 fun e ↦ ?_
  · exact (nodup_firstHits l [] List.nodup_nil).of_map
  · exact (nodup_firstHits l' [] List.nodup_nil).of_map
  · rw [show e = (e.1, e.2) from rfl, mem_firstHits, mem_firstHits, h]
