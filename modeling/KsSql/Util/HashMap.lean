import Mathlib.Data.List.AList

/-!
# Hash maps

`HashMap` and `DashMap` as Mathlib's association lists without duplicate keys. Lookup, insertion and
removal are `AList`'s; this file adds the view of a map as a list of pairs, which is what an
iteration over it visits.
-/

/-- A hash map: an association list without duplicate keys. -/
abbrev HashMap (K V : Type) := AList fun _ : K ↦ V

namespace HashMap

variable {K V : Type}

/-- The bindings of a map, as an iteration visits them. -/
def toList (m : HashMap K V) : List (K × V) := m.entries.map fun e ↦ (e.1, e.2)

/-- The number of bindings. -/
def size (m : HashMap K V) : Nat := m.entries.length

/-- Two maps are compared by their lists, which can be evaluated. -/
instance [DecidableEq K] [DecidableEq V] : DecidableEq (HashMap K V) := fun m m' ↦
  decidable_of_iff (m.entries = m'.entries) AList.ext_iff.symm

theorem map_fst_toList (m : HashMap K V) : m.toList.map Prod.fst = m.keys := by
  rw [toList, List.map_map]
  rfl

/-- No key is visited twice. -/
theorem nodup_map_fst_toList (m : HashMap K V) : (m.toList.map Prod.fst).Nodup :=
  m.map_fst_toList ▸ m.keys_nodup

variable [DecidableEq K]

/-- The removal of a key that is not there. -/
theorem erase_of_not_mem {m : HashMap K V} {k : K} (h : k ∉ m) : AList.erase k m = m :=
  AList.ext (List.kerase_of_notMem_keys h)

/-- What an iteration visits is what lookups find. -/
theorem mem_toList_iff {m : HashMap K V} {k : K} {v : V} :
    (k, v) ∈ m.toList ↔ m.lookup k = some v := by
  rw [← Option.mem_def, AList.mem_lookup_iff, toList, List.mem_map]
  constructor
  · rintro ⟨⟨k', v'⟩, hmem, heq⟩
    cases heq
    exact hmem
  · exact fun h ↦ ⟨⟨k, v⟩, h, rfl⟩

/-- An insertion adds at most one binding. -/
theorem size_insert_le (m : HashMap K V) (k : K) (v : V) : size (m.insert k v) ≤ m.size + 1 := by
  rw [size, AList.entries_insert, List.length_cons]
  exact Nat.succ_le_succ (List.kerase_sublist k m.entries).length_le

/-- A lookup after an insertion finds the new value under its key, and the old ones elsewhere. -/
theorem lookup_insert_eq_ite (m : HashMap K V) (k k' : K) (v : V) :
    (m.insert k v).lookup k' = if k' = k then some v else m.lookup k' := by
  split
  · rename_i h
    rw [h, AList.lookup_insert]
  · rename_i h
    rw [AList.lookup_insert_ne h]

/-! ### Inserting the bindings of a list -/

/-- A key that the list does not bind keeps its value. -/
theorem lookup_foldl_insert_of_not_mem {l : List (K × V)} {k : K} (h : k ∉ l.map Prod.fst)
    (m : HashMap K V) : (l.foldl (fun m c ↦ m.insert c.1 c.2) m).lookup k = m.lookup k := by
  induction l generalizing m with
  | nil => rfl
  | cons c l ih =>
    rw [List.map_cons, List.mem_cons, not_or] at h
    rw [List.foldl_cons, ih h.2, AList.lookup_insert_ne h.1]

/-- A key that the list binds to one value only has that value. -/
theorem lookup_foldl_insert_of_mem {l : List (K × V)} {k : K} {v : V} (hmem : (k, v) ∈ l)
    (hv : ∀ v', (k, v') ∈ l → v' = v) (m : HashMap K V) :
    (l.foldl (fun m c ↦ m.insert c.1 c.2) m).lookup k = some v := by
  induction l generalizing m with
  | nil => cases hmem
  | cons c l ih =>
    rw [List.foldl_cons]
    by_cases hrest : k ∈ l.map Prod.fst
    · obtain ⟨⟨k', v'⟩, hc, rfl⟩ := List.mem_map.1 hrest
      obtain rfl := hv v' (List.mem_cons_of_mem c hc)
      exact ih hc (fun w hw ↦ hv w (List.mem_cons_of_mem c hw)) _
    · rw [lookup_foldl_insert_of_not_mem hrest]
      rcases List.mem_cons.1 hmem with rfl | hmem
      · exact AList.lookup_insert _
      · exact absurd (List.mem_map_of_mem (f := Prod.fst) hmem) hrest

/-- What a key has after the insertions is a value that the list binds it to, or what it had before. -/
theorem mem_or_lookup_of_lookup_foldl_insert {l : List (K × V)} {k : K} {v : V} {m : HashMap K V}
    (h : (l.foldl (fun m c ↦ m.insert c.1 c.2) m).lookup k = some v) :
    (k, v) ∈ l ∨ m.lookup k = some v := by
  induction l generalizing m with
  | nil => exact .inr h
  | cons c l ih =>
    rcases ih h with hmem | hlookup
    · exact .inl (List.mem_cons_of_mem c hmem)
    · rw [lookup_insert_eq_ite] at hlookup
      split at hlookup
      · rename_i hk
        exact .inl (List.mem_cons.2 (.inl (Prod.ext hk (Option.some.inj hlookup).symm)))
      · exact .inr hlookup

end HashMap
