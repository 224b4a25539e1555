import KsSql.Util.HashMap
import Mathlib.Algebra.Group.Nat.Defs
import Mathlib.Data.List.Sort

/-!
# The memory tier

`MemoryTier` of `storage/mod.rs`: the cache, the clock reading of each entry's last insertion, and
the configured limit. The hit and miss counters and the switch that turns them off are left out, as
nothing but the dashboard reads them.

The limit is compared in 64-bit arithmetic against an estimate of 256 bytes an entry. Over it, an
insertion first evicts a tenth of the entries, those with the oldest readings.
-/

namespace KsSql

/-- `MemoryTier` -/
structure MemoryTier (K V : Type) where
  /-- The cached values. -/
  cache : HashMap K V
  /-- The clock reading of each entry's last insertion. -/
  lru : HashMap K Int
  /-- The limit in mebibytes. -/
  maxRamMb : Nat

namespace MemoryTier

variable {K V : Type} [DecidableEq K]

/-- `MemoryTier::new` -/
def new (maxRamMb : Nat) : MemoryTier K V := ⟨∅, ∅, maxRamMb⟩

/-- `MemoryTier::get` -/
def get (t : MemoryTier K V) (key : K) : Option V := t.cache.lookup key

/-- `MemoryTier::remove` -/
def remove (t : MemoryTier K V) (key : K) : MemoryTier K V :=
  { t with cache := t.cache.erase key, lru := t.lru.erase key }

/-- `MemoryTier::clear` -/
def clear (t : MemoryTier K V) : MemoryTier K V := { t with cache := ∅, lru := ∅ }

/-- `MemoryTier::evict_lru`: remove the `count` entries with the oldest readings. -/
def evictLru (t : MemoryTier K V) (count : Nat) : MemoryTier K V :=
  let items := t.lru.toList.mergeSort fun a b ↦ a.2 ≤ b.2
  (items.take count).foldl (fun t item ↦ t.remove item.1) t

/-- The test before an insertion: the estimated size is over the limit. -/
def overLimit (t : MemoryTier K V) : Bool :=
  let maxBytes := t.maxRamMb * 1024 * 1024 % 2 ^ 64
  let estimatedSize := t.cache.size * 256 % 2 ^ 64
  estimatedSize > maxBytes && t.cache.size != 0

/-- `MemoryTier::insert`, at clock reading `now`. -/
def insert (t : MemoryTier K V) (now : Int) (key : K) (value : V) : MemoryTier K V :=
  let t := if t.overLimit then t.evictLru (t.cache.size / 10) else t
  { t with lru := t.lru.insert key now, cache := t.cache.insert key value }

@[simp] theorem get_new (maxRamMb : Nat) (k : K) : (new maxRamMb : MemoryTier K V).get k = none :=
  rfl

/-- Under the limit an insertion binds its key and changes no other binding. -/
theorem get_insert {t : MemoryTier K V} (h : t.overLimit = false) (now : Int) (k k' : K) (v : V) :
    (t.insert now k v).get k' = if k' = k then some v else t.get k' := by
  simp only [insert, h, Bool.false_eq_true, if_false, get, HashMap.lookup_insert_eq_ite]

/-- Each of the next `n` insertions finds the tier within its limit. -/
def HasRoom (t : MemoryTier K V) (n : Nat) : Prop :=
  ∀ i < n, (t.cache.size + i) * 256 ≤ t.maxRamMb * 1024 * 1024 % 2 ^ 64

instance (t : MemoryTier K V) (n : Nat) : Decidable (t.HasRoom n) :=
  inferInstanceAs (Decidable (∀ i < n, _))

omit [DecidableEq K] in
theorem HasRoom.mono {t : MemoryTier K V} {m n : Nat} (h : t.HasRoom n) (hle : m ≤ n) :
    t.HasRoom m :=
  fun i hi ↦ h i (hi.trans_le hle)

omit [DecidableEq K] in
theorem overLimit_of_hasRoom {t t' : MemoryTier K V} {n : Nat} (h : t.HasRoom (n + 1))
    (hlimit : t'.maxRamMb = t.maxRamMb) (hsize : t'.cache.size ≤ t.cache.size + n) :
    t'.overLimit = false := by
  have hle : t'.cache.size * 256 % 2 ^ 64 ≤ t'.maxRamMb * 1024 * 1024 % 2 ^ 64 := by
    rw [hlimit]
    exact ((Nat.mod_le _ _).trans (Nat.mul_le_mul_right 256 hsize)).trans (h n (Nat.lt_succ_self n))
  rw [overLimit, Bool.and_eq_false_iff]
  exact Or.inl (decide_eq_false (Nat.not_lt_of_le hle))

theorem size_insert_le {t : MemoryTier K V} (h : t.overLimit = false) (now : Int) (key : K) (v : V) :
    (t.insert now key v).cache.size ≤ t.cache.size + 1 := by
  rw [insert, if_neg (by rw [h]; exact Bool.false_ne_true)]
  exact HashMap.size_insert_le _ _ _

theorem maxRamMb_insert {t : MemoryTier K V} (h : t.overLimit = false) (now : Int) (key : K) (v : V) :
    (t.insert now key v).maxRamMb = t.maxRamMb := by
  rw [insert, if_neg (by rw [h]; exact Bool.false_ne_true)]

/-- An insertion takes the room of one entry. -/
theorem HasRoom.insert {t : MemoryTier K V} {n : Nat} (h : t.HasRoom (n + 1)) (now : Int) (key : K)
    (v : V) : (t.insert now key v).HasRoom n := by
  have hlimit : t.overLimit = false :=
    overLimit_of_hasRoom (h.mono (Nat.succ_le_succ n.zero_le)) rfl le_rfl
  intro i hi
  rw [maxRamMb_insert hlimit]
  have hsize : (t.insert now key v).cache.size + i ≤ t.cache.size + (i + 1) := by
    have := size_insert_le hlimit now key v
    omega
  exact (Nat.mul_le_mul_right 256 hsize).trans (h (i + 1) (Nat.succ_lt_succ hi))

/-- What an insertion leaves of the tier before it binds its key. -/
def relieved (t : MemoryTier K V) : MemoryTier K V :=
  if t.overLimit then t.evictLru (t.cache.size / 10) else t

/-- An insertion binds its key and keeps the other bindings that it does not evict. -/
theorem get_insert_eq_ite (t : MemoryTier K V) (now : Int) (key : K) (v : V) (k : K) :
    (t.insert now key v).get k = if k = key then some v else t.relieved.get k := by
  rw [insert, relieved, get, HashMap.lookup_insert_eq_ite]
  rfl

/-- The next insertion does not evict the key. -/
def Spares (t : MemoryTier K V) (key : K) : Prop := t.relieved.get key = t.get key

instance [DecidableEq V] (t : MemoryTier K V) (key : K) : Decidable (t.Spares key) :=
  inferInstanceAs (Decidable (_ = _))

/-- An insertion keeps what it does not evict. -/
theorem get_insert_of_spares {t : MemoryTier K V} {k key : K} (h : t.Spares k) (hne : k ≠ key)
    (now : Int) (v : V) : (t.insert now key v).get k = t.get k := by
  rw [get_insert_eq_ite, if_neg hne, h]

theorem get_insert_self (t : MemoryTier K V) (now : Int) (key : K) (v : V) :
    (t.insert now key v).get key = some v :=
  AList.lookup_insert _

/-- Removals only remove. -/
theorem get_of_get_remove {t : MemoryTier K V} {key k : K} {v : V}
    (h : (t.remove key).get k = some v) : t.get k = some v := by
  by_cases hk : k = key
  · subst hk
    rw [remove, get, AList.lookup_erase] at h
    cases h
  · rwa [remove, get, AList.lookup_erase_ne hk] at h

theorem get_of_get_foldl_remove {t : MemoryTier K V} {keys : List K} {k : K} {v : V}
    (h : (keys.foldl (fun t key ↦ t.remove key) t).get k = some v) : t.get k = some v := by
  induction keys generalizing t with
  | nil => exact h
  | cons key keys ih => exact get_of_get_remove (ih h)

/-- What an insertion does not evict was there. -/
theorem get_of_get_relieved {t : MemoryTier K V} {k : K} {v : V} (h : t.relieved.get k = some v) :
    t.get k = some v := by
  rw [relieved] at h
  split at h
  · rw [evictLru, ← List.foldl_map (f := Prod.fst) (g := fun t key ↦ remove t key)] at h
    exact get_of_get_foldl_remove h
  · exact h

/-- After an insertion that may have evicted entries, what is bound is what was put in or was bound
before. -/
theorem get_insert_cases {t : MemoryTier K V} {now : Int} {key k : K} {value v : V}
    (h : (t.insert now key value).get k = some v) :
    k = key ∧ v = value ∨ k ≠ key ∧ t.get k = some v := by
  rw [get_insert_eq_ite] at h
  split at h
  · rename_i hk
    exact Or.inl ⟨hk, (Option.some.inj h).symm⟩
  · rename_i hk
    exact Or.inr ⟨hk, get_of_get_relieved h⟩

end MemoryTier

end KsSql
