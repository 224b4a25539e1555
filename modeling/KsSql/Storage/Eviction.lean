import KsSql.Storage.MemoryTier
import KsSql.Util.Bytes

/-!
# Eviction

What the memory tier holds after any sequence of calls. `evict_lru` picks from `lru` and is called on
the size of `cache`, so everything rests on the two maps having the same keys (`InStep`). Then an
eviction takes out as many entries as it is asked for, and a tier stays within the larger of its limit
and ten entries, as the tenth of less than ten entries is none (`tier_bounded`).

`evict_lru` goes by the readings of `lru`, which only an insertion sets. A `get` that finds its key is no
use in its eyes, so an eviction can pick the key that was found last. And the limit in bytes is a product
in 64-bit arithmetic, which comes out small for a large limit (`not_evicts_least_recent`). Where the
limit fits and no key among the oldest tenth was found since its insertion, the eviction is
least-recently-used, and only comes over the limit (`evicts_least_recent`).

In which order the iteration over `lru` visits the bindings is up to the map, and decides which of
several entries with one reading go first. So an insertion has the order as an argument here;
`insert_eq_insertVisited` says that `MemoryTier.insert` is the case of one order.
-/

namespace KsSql

namespace MemoryTier

variable {K V : Type}

/-- The bindings of `lru` in the order in which `evict_lru` takes them. -/
def sorted (visited : List (K × Int)) : List (K × Int) := visited.mergeSort fun a b ↦ a.2 ≤ b.2

/-- The keys that an insertion evicts. -/
def victims (t : MemoryTier K V) (visited : List (K × Int)) : List K :=
  if t.overLimit then ((sorted visited).take (t.cache.size / 10)).map Prod.fst else []

/-- The two maps have the same keys. -/
def InStep (t : MemoryTier K V) : Prop := t.cache.keys.Perm t.lru.keys

variable {t : MemoryTier K V} {visited : List (K × Int)}

theorem InStep.mem_iff (h : t.InStep) (k : K) : k ∈ t.cache ↔ k ∈ t.lru := by
  rw [AList.mem_keys, AList.mem_keys]
  exact List.Perm.mem_iff h

theorem inStep_new (maxRamMb : Nat) : (new maxRamMb : MemoryTier K V).InStep := List.Perm.refl []

theorem inStep_clear (t : MemoryTier K V) : t.clear.InStep := List.Perm.refl []

/-! ### Whom an insertion evicts -/

theorem size_eq_length_keys (m : HashMap K V) : m.size = m.keys.length :=
  (List.length_map _).symm

/-- The keys are sorted with their bindings. -/
theorem map_fst_sorted_perm (hvisited : visited.Perm t.lru.toList) :
    ((sorted visited).map Prod.fst).Perm t.lru.keys := by
  rw [← HashMap.map_fst_toList]
  exact ((List.mergeSort_perm _ _).trans hvisited).map Prod.fst

theorem sublist_victims (t : MemoryTier K V) (visited : List (K × Int)) :
    (t.victims visited).Sublist ((sorted visited).map Prod.fst) := by
  rw [victims]
  split
  · exact (List.take_sublist _ _).map Prod.fst
  · exact List.nil_sublist _

theorem nodup_victims (hvisited : visited.Perm t.lru.toList) : (t.victims visited).Nodup :=
  (sublist_victims t visited).nodup ((map_fst_sorted_perm hvisited).nodup_iff.2 t.lru.keys_nodup)

theorem mem_lru_of_mem_victims (hvisited : visited.Perm t.lru.toList) {k : K}
    (hk : k ∈ t.victims visited) : k ∈ t.lru :=
  (map_fst_sorted_perm hvisited).mem_iff.1 ((sublist_victims t visited).subset hk)

/-- The tier over its limit loses a tenth of its entries. -/
theorem length_victims (h : t.InStep) (hvisited : visited.Perm t.lru.toList) :
    (t.victims visited).length = if t.overLimit then t.cache.size / 10 else 0 := by
  have hsize : (sorted visited).length = t.cache.size := by
    have hsorted := (map_fst_sorted_perm hvisited).length_eq
    rw [List.length_map] at hsorted
    rw [hsorted, size_eq_length_keys]
    exact h.length_eq.symm
  rw [victims]
  split
  · rw [List.length_map, List.length_take, hsize]
    omega
  · rfl

/-! ### What an insertion leaves -/

variable [DecidableEq K]

/-- `MemoryTier::insert`, where the iteration over `lru` visits the bindings in the given order. -/
def insertVisited (t : MemoryTier K V) (visited : List (K × Int)) (now : Int) (key : K) (value : V) :
    MemoryTier K V :=
  let t := (t.victims visited).foldl remove t
  { t with lru := t.lru.insert key now, cache := t.cache.insert key value }

/-- The one order in which an association list is visited. -/
theorem insert_eq_insertVisited (t : MemoryTier K V) (now : Int) (key : K) (value : V) :
    t.insert now key value = t.insertVisited t.lru.toList now key value := by
  have hevict : (if t.overLimit then t.evictLru (t.cache.size / 10) else t) =
      (t.victims t.lru.toList).foldl remove t := by
    rw [victims]
    split
    · rw [evictLru, List.foldl_map]
      rfl
    · rfl
  rw [insert, hevict]
  rfl

theorem InStep.remove (h : t.InStep) (key : K) : (t.remove key).InStep := by
  show (AList.erase key t.cache).keys.Perm (AList.erase key t.lru).keys
  rw [AList.keys_erase, AList.keys_erase]
  exact List.Perm.erase key h

theorem InStep.foldl_remove {keys : List K} (h : t.InStep) :
    (keys.foldl MemoryTier.remove t).InStep := by
  induction keys generalizing t with
  | nil => exact h
  | cons key keys ih => exact ih (h.remove key)

theorem InStep.insertVisited (h : t.InStep) (now : Int) (key : K) (value : V) :
    (t.insertVisited visited now key value).InStep := by
  have hrest : ((t.victims visited).foldl MemoryTier.remove t).InStep := h.foldl_remove
  show (AList.insert key value _).keys.Perm (AList.insert key now _).keys
  rw [AList.keys_insert, AList.keys_insert]
  exact (List.Perm.erase key hrest).cons key

theorem maxRamMb_foldl_remove (keys : List K) (t : MemoryTier K V) :
    (keys.foldl remove t).maxRamMb = t.maxRamMb := by
  induction keys generalizing t with
  | nil => rfl
  | cons key keys ih => exact ih (t.remove key)

/-- What removals leave in `lru`. -/
theorem lookup_foldl_remove (keys : List K) (t : MemoryTier K V) (k : K) :
    (keys.foldl remove t).lru.lookup k = if k ∈ keys then none else t.lru.lookup k := by
  induction keys generalizing t with
  | nil => rfl
  | cons key keys ih =>
    rw [List.foldl_cons, ih]
    rcases eq_or_ne k key with rfl | hne
    · rw [if_pos List.mem_cons_self, remove, AList.lookup_erase, ite_self]
    · rw [remove, AList.lookup_erase_ne hne]
      exact if_congr (by rw [List.mem_cons, or_iff_right hne]) rfl rfl

/-- A reading behind an insertion is the new one, or one that was there. -/
theorem lookup_insertVisited_cases {now r : Int} {key k : K} {value : V}
    (h : (t.insertVisited visited now key value).lru.lookup k = some r) :
    k = key ∧ r = now ∨ k ≠ key ∧ t.lru.lookup k = some r := by
  have hlookup : (t.insertVisited visited now key value).lru.lookup k =
      if k = key then some now else ((t.victims visited).foldl remove t).lru.lookup k :=
    HashMap.lookup_insert_eq_ite _ _ _ _
  rw [hlookup] at h
  split at h
  · rename_i hk
    exact Or.inl ⟨hk, (Option.some.inj h).symm⟩
  · rename_i hk
    rw [lookup_foldl_remove] at h
    split at h
    · cases h
    · exact Or.inr ⟨hk, h⟩

/-- Each removal of a key that is there makes the tier smaller by one. -/
theorem size_foldl_remove {keys : List K} (hnodup : keys.Nodup) (hmem : ∀ k ∈ keys, k ∈ t.cache) :
    (keys.foldl remove t).cache.size + keys.length = t.cache.size := by
  induction keys generalizing t with
  | nil => rfl
  | cons key keys ih =>
    obtain ⟨hkey, hnodup⟩ := List.nodup_cons.1 hnodup
    have hone : (t.remove key).cache.size + 1 = t.cache.size := by
      have hin : key ∈ t.cache.keys := hmem key List.mem_cons_self
      have hpos := List.length_pos_of_mem hin
      have hlength : (t.remove key).cache.keys.length = t.cache.keys.length - 1 := by
        rw [remove, AList.keys_erase, List.length_erase_of_mem hin]
      rw [size_eq_length_keys, size_eq_length_keys, hlength]
      omega
    have hrest := ih (t := t.remove key) hnodup fun k hk ↦
      AList.mem_erase.2 ⟨fun e ↦ hkey (e ▸ hk), hmem k (List.mem_cons_of_mem key hk)⟩
    rw [List.foldl_cons, List.length_cons]
    omega

/-- What an insertion does to the number of entries. -/
theorem size_insertVisited_le (h : t.InStep) (hvisited : visited.Perm t.lru.toList) (now : Int)
    (key : K) (value : V) : (t.insertVisited visited now key value).cache.size ≤
      t.cache.size - (if t.overLimit then t.cache.size / 10 else 0) + 1 := by
  have hrest := size_foldl_remove (nodup_victims hvisited) fun k hk ↦
    (h.mem_iff k).2 (mem_lru_of_mem_victims hvisited hk)
  have hlength := length_victims h hvisited
  have hinsert := HashMap.size_insert_le ((t.victims visited).foldl remove t).cache key value
  show HashMap.size (AList.insert key value ((t.victims visited).foldl remove t).cache) ≤ _
  omega

/-- An insertion keeps the tier within its limit, or under ten entries. -/
theorem size_insertVisited_le_max {maxRamMb : Nat} (h : t.InStep)
    (hvisited : visited.Perm t.lru.toList) (hlimit : t.maxRamMb = maxRamMb)
    (hfits : maxRamMb * 2 ^ 20 < 2 ^ 64) (hsize : t.cache.size ≤ max (4096 * maxRamMb + 1) 10)
    (now : Int) (key : K) (value : V) :
    (t.insertVisited visited now key value).cache.size ≤ max (4096 * maxRamMb + 1) 10 := by
  have hinsert := size_insertVisited_le h hvisited now key value
  split at hinsert
  · -- from ten entries on, an eviction makes room for the new one
    omega
  · rename_i hunder
    -- neither side of the comparison wraps around, so the entries fit into the limit
    have hle : t.cache.size * 256 ≤ maxRamMb * 2 ^ 20 ∨ t.cache.size = 0 := by
      rw [Bool.not_eq_true, overLimit, hlimit, Bool.and_eq_false_iff] at hunder
      rcases hunder with hle | hzero
      · have hle := of_decide_eq_false hle
        omega
      · exact Or.inr (by simpa using hzero)
    omega

/-! ### Calls one after another -/

/-- The calls of the memory tier. -/
inductive Call (K V : Type)
  | get (key : K)
  /-- An insertion: the order in which the iteration over `lru` visits the bindings, the reading of the
  clock, and what is inserted. -/
  | insert (visited : List (K × Int)) (now : Int) (key : K) (value : V)
  | remove (key : K)
  | clear

end MemoryTier

/-- A memory tier in use. All but `tier` is history. -/
structure Usage (K V : Type) where
  tier : MemoryTier K V
  /-- The number of calls so far. -/
  calls : Nat := 0
  /-- The last reading of the clock. -/
  clock : Option Int := none
  /-- The number of the call that last inserted a key. -/
  insertedAt : K → Nat := fun _ ↦ 0
  /-- The number of the call that last used a key: inserted it, or was a `get` that found it. -/
  usedAt : K → Nat := fun _ ↦ 0

namespace Usage

open MemoryTier

variable {K V : Type}

/-- The empty tier with a limit, as the limit endpoint stores it. -/
def start (limitMb : Nat) : Usage K V := { tier := .new limitMb }

variable [DecidableEq K]

/-- A call. -/
def call (u : Usage K V) : Call K V → Usage K V
  | .get key =>
    let used := if (u.tier.get key).isSome then Function.update u.usedAt key u.calls else u.usedAt
    { u with calls := u.calls + 1, usedAt := used }
  | .insert visited now key value =>
    { tier := u.tier.insertVisited visited now key value
      calls := u.calls + 1
      clock := some now
      insertedAt := Function.update u.insertedAt key u.calls
      usedAt := Function.update u.usedAt key u.calls }
  | .remove key => { u with tier := u.tier.remove key, calls := u.calls + 1 }
  | .clear => { u with tier := u.tier.clear, calls := u.calls + 1 }

/-- The tier after some calls. -/
def after (u : Usage K V) (calls : List (Call K V)) : Usage K V := calls.foldl call u

/-- Each call has the property in the state before it. -/
def Along (P : Usage K V → Call K V → Prop) (u : Usage K V) : List (Call K V) → Prop
  | [] => True
  | c :: calls => P u c ∧ (u.call c).Along P calls

instance decidableAlong (P : Usage K V → Call K V → Prop) [∀ u, DecidablePred (P u)] :
    ∀ (calls : List (Call K V)) (u : Usage K V), Decidable (u.Along P calls)
  | [], _ => .isTrue trivial
  | c :: calls, u =>
    have := decidableAlong P calls (u.call c)
    inferInstanceAs (Decidable (_ ∧ _))

/-- An iteration over `lru` visits each binding once. -/
def Admits (u : Usage K V) : Call K V → Prop
  | .insert visited _ _ _ => visited.Perm u.tier.lru.toList
  | _ => True

/-- The clock shows more than it did. -/
def Ticks (u : Usage K V) : Call K V → Prop
  | .insert _ now _ _ => ∀ r ∈ u.clock, r < now
  | _ => True

instance (u : Usage K V) : DecidablePred u.Admits
  | .insert visited _ _ _ => inferInstanceAs (Decidable (visited.Perm u.tier.lru.toList))
  | .get _ | .remove _ | .clear => inferInstanceAs (Decidable True)

instance (u : Usage K V) : DecidablePred u.Ticks
  | .insert _ now _ _ => inferInstanceAs (Decidable (∀ r ∈ u.clock, r < now))
  | .get _ | .remove _ | .clear => inferInstanceAs (Decidable True)

/-- What every call keeps holds after all of them. -/
theorem along_invariant {P : Usage K V → Call K V → Prop} {I : Usage K V → Prop}
    (hstep : ∀ u c, P u c → I u → I (u.call c)) :
    ∀ {calls : List (Call K V)} {u : Usage K V}, I u → u.Along P calls → I (u.after calls)
  | [], _, hu, _ => hu
  | c :: calls, u, hu, ⟨hc, hrest⟩ => by
    show I ((u.call c).after calls)
    exact along_invariant hstep (hstep u c hc hu) hrest

/-! ### The tier stays bounded -/

/-- What holds of the tier of the given limit after every call. -/
structure Bounded (maxRamMb : Nat) (t : MemoryTier K V) : Prop where
  inStep : t.InStep
  limit : t.maxRamMb = maxRamMb
  size : t.cache.size ≤ max (4096 * maxRamMb + 1) 10

theorem Bounded.call {maxRamMb : Nat} (hfits : maxRamMb * 2 ^ 20 < 2 ^ 64) {u : Usage K V}
    {c : Call K V} (hc : u.Admits c) (h : Bounded maxRamMb u.tier) :
    Bounded maxRamMb (u.call c).tier := by
  cases c with
  | get key => exact h
  | insert visited now key value =>
    exact ⟨h.inStep.insertVisited now key value, (maxRamMb_foldl_remove _ _).trans h.limit,
      size_insertVisited_le_max h.inStep hc h.limit hfits h.size now key value⟩
  | remove key =>
    refine ⟨h.inStep.remove key, h.limit, le_trans ?_ h.size⟩
    exact (List.kerase_sublist key u.tier.cache.entries).length_le
  | clear => exact ⟨inStep_clear _, h.limit, Nat.zero_le _⟩

/-- **The tier is bounded.** After any calls, at whatever clock readings, the two maps have the same
keys, what was inserted last is there, and there are no more entries than the limit has room for and
one, or ten. -/
theorem tier_bounded {maxRamMb : Nat} (hfits : maxRamMb * 2 ^ 20 < 2 ^ 64) {calls : List (Call K V)}
    (hcalls : (start maxRamMb).Along Admits calls) :
    let t := ((start maxRamMb).after calls).tier
    (∀ k, k ∈ t.cache ↔ k ∈ t.lru) ∧
      (∀ visited now key value, calls.getLast? = some (.insert visited now key value) →
        t.get key = some value) ∧
      t.cache.size ≤ max (4096 * maxRamMb + 1) 10 := by
  have hbounded : Bounded maxRamMb ((start maxRamMb).after calls).tier :=
    along_invariant (I := fun u ↦ Bounded maxRamMb u.tier) (fun _ _ hc hu ↦ hu.call hfits hc)
      ⟨inStep_new maxRamMb, rfl, Nat.zero_le _⟩ hcalls
  refine ⟨hbounded.inStep.mem_iff, fun visited now key value hlast ↦ ?_, hbounded.size⟩
  obtain ⟨before, rfl⟩ := List.getLast?_eq_some_iff.1 hlast
  rw [after, List.foldl_append]
  exact AList.lookup_insert _

/-- Insertions of different keys. -/
def insertions (n : Nat) : List (Call Bytes Bytes) :=
  (List.range n).map fun i ↦
    .insert ((List.range i).map fun j ↦ ([UInt8.ofNat j], (j : Int))) i [UInt8.ofNat i] []

/-- The eleventh entry finds no room, and one goes. -/
theorem tier_bounded_eleven :
    ((start 0 : Usage Bytes Bytes).after (insertions 11)).tier.cache.size ≤ 10 :=
  (tier_bounded (by decide) (by decide +kernel)).2.2

/-! ### The order of use -/

/-- The insertion evicts entries only over the limit, and each of them was used less recently than
every entry that stays. -/
def EvictsLeastRecent (u : Usage K V) : Call K V → Prop
  | .insert visited _ _ _ =>
    (u.tier.victims visited ≠ [] → u.tier.maxRamMb * 2 ^ 20 < 256 * u.tier.cache.size) ∧
      ∀ k ∈ u.tier.victims visited, ∀ k' ∈ u.tier.cache, k' ∉ u.tier.victims visited →
        u.usedAt k < u.usedAt k'
  | _ => True

/-- How many entries were inserted before the key. -/
def older (u : Usage K V) (key : K) : Nat :=
  (u.tier.lru.keys.filter fun k ↦ u.insertedAt k < u.insertedAt key).length

/-- If the insertion finds at least ten entries and takes the limit to be exceeded, then the limit fits
into 64 bits in bytes, and no key of the oldest tenth was found by a `get` since its insertion. -/
def OldestUnread (u : Usage K V) : Call K V → Prop
  | .insert _ _ _ _ => u.tier.overLimit → 10 ≤ u.tier.cache.size →
    u.tier.maxRamMb * 2 ^ 20 < 2 ^ 64 ∧
      ∀ k ∈ u.tier.cache.keys, u.older k < u.tier.cache.size / 10 → u.usedAt k = u.insertedAt k
  | _ => True

/-- The readings of `lru` are in the order of the insertions, which are numbered below the number of
calls. -/
structure Dated (u : Usage K V) : Prop where
  inStep : u.tier.InStep
  clock : ∀ k r, u.tier.lru.lookup k = some r → ∃ c ∈ u.clock, r ≤ c
  order : ∀ k k' r r', u.tier.lru.lookup k = some r → u.tier.lru.lookup k' = some r' →
    (r < r' ↔ u.insertedAt k < u.insertedAt k')
  distinct : ∀ k k', k ∈ u.tier.lru → k' ∈ u.tier.lru → u.insertedAt k = u.insertedAt k' → k = k'
  used : ∀ k ∈ u.tier.lru, u.insertedAt k ≤ u.usedAt k ∧ u.insertedAt k < u.calls

variable {u : Usage K V}

theorem dated_start (limitMb : Nat) : (start limitMb : Usage K V).Dated :=
  ⟨inStep_new limitMb, nofun, nofun, nofun, nofun⟩

theorem mem_lru_iff (t : MemoryTier K V) (k : K) : k ∈ t.lru ↔ ∃ r, t.lru.lookup k = some r := by
  rw [← AList.lookup_isSome, Option.isSome_iff_exists]

/-- Some of the entries go. -/
theorem Dated.restrict (h : u.Dated) {t : MemoryTier K V} (hstep : t.InStep)
    (hsub : ∀ k r, t.lru.lookup k = some r → u.tier.lru.lookup k = some r) {n : Nat} (hn : u.calls ≤ n) :
    ({ u with tier := t, calls := n } : Usage K V).Dated := by
  have hmem : ∀ k ∈ t.lru, k ∈ u.tier.lru := by
    intro k hk
    obtain ⟨r, hr⟩ := (mem_lru_iff t k).1 hk
    exact (mem_lru_iff u.tier k).2 ⟨r, hsub k r hr⟩
  refine ⟨hstep, fun k r hr ↦ h.clock k r (hsub k r hr),
    fun k k' r r' hr hr' ↦ h.order k k' r r' (hsub k r hr) (hsub k' r' hr'),
    fun k k' hk hk' ↦ h.distinct k k' (hmem k hk) (hmem k' hk'), fun k hk ↦ ?_⟩
  obtain ⟨hused, hcalls⟩ := h.used k (hmem k hk)
  exact ⟨hused, hcalls.trans_le hn⟩

/-- A `get` leaves the readings alone. -/
theorem Dated.get (h : u.Dated) (key : K) : (u.call (.get key : Call K V)).Dated := by
  refine ⟨h.inStep, h.clock, h.order, h.distinct, fun k hk ↦ ?_⟩
  obtain ⟨hused, hcalls⟩ := h.used k hk
  refine ⟨?_, hcalls.trans (Nat.lt_succ_self _)⟩
  show u.insertedAt k ≤
    (if (u.tier.get key).isSome then Function.update u.usedAt key u.calls else u.usedAt) k
  split
  · rcases eq_or_ne k key with rfl | hne
    · rw [Function.update_self]
      exact hcalls.le
    · rwa [Function.update_of_ne hne]
  · exact hused

/-- An insertion gets the last number and the last reading. -/
theorem Dated.insert (h : u.Dated) {visited : List (K × Int)} {now : Int} {key : K} {value : V}
    (hticks : u.Ticks (.insert visited now key value)) :
    (u.call (.insert visited now key value)).Dated := by
  have hcases : ∀ k r, (u.call (.insert visited now key value)).tier.lru.lookup k = some r →
      k = key ∧ r = now ∨ k ≠ key ∧ u.tier.lru.lookup k = some r := fun k r ↦
    lookup_insertVisited_cases
  have hmem : ∀ k r, u.tier.lru.lookup k = some r → k ∈ u.tier.lru := fun k r hr ↦
    (mem_lru_iff u.tier k).2 ⟨r, hr⟩
  have hreading : ∀ k r, u.tier.lru.lookup k = some r → r < now := by
    intro k r hr
    obtain ⟨c, hc, hle⟩ := h.clock k r hr
    exact hle.trans_lt (hticks c hc)
  have hnumber : ∀ k r, u.tier.lru.lookup k = some r → u.insertedAt k < u.calls := fun k r hr ↦
    (h.used k (hmem k r hr)).2
  have hkey : (u.call (.insert visited now key value)).insertedAt key = u.calls :=
    Function.update_self _ _ _
  have hother : ∀ {k}, k ≠ key →
      (u.call (.insert visited now key value)).insertedAt k = u.insertedAt k :=
    fun hk ↦ Function.update_of_ne hk _ _
  refine ⟨h.inStep.insertVisited now key value, fun k r hr ↦ ⟨now, rfl, ?_⟩,
    fun k k' r r' hr hr' ↦ ?_, fun k k' hk hk' heq ↦ ?_, fun k hk ↦ ?_⟩
  · rcases hcases k r hr with ⟨-, rfl⟩ | ⟨-, hold⟩
    · exact le_rfl
    · exact (hreading k r hold).le
  · -- the new entry is behind every other one, in both orders
    rcases hcases k r hr with ⟨rfl, rfl⟩ | ⟨hk, hold⟩ <;>
      rcases hcases k' r' hr' with ⟨rfl, rfl⟩ | ⟨hk', hold'⟩
    · exact iff_of_false (lt_irrefl _) (lt_irrefl _)
    · rw [hkey, hother hk']
      exact iff_of_false (hreading k' r' hold').asymm (hnumber k' r' hold').asymm
    · rw [hkey, hother hk]
      exact iff_of_true (hreading k r hold) (hnumber k r hold)
    · rw [hother hk, hother hk']
      exact h.order k k' r r' hold hold'
  · obtain ⟨r, hr⟩ := (mem_lru_iff _ k).1 hk
    obtain ⟨r', hr'⟩ := (mem_lru_iff _ k').1 hk'
    rcases hcases k r hr with ⟨rfl, -⟩ | ⟨hk, hold⟩ <;>
      rcases hcases k' r' hr' with ⟨rfl, -⟩ | ⟨hk', hold'⟩
    · rfl
    · rw [hkey, hother hk'] at heq
      exact absurd heq (hnumber k' r' hold').ne'
    · rw [hkey, hother hk] at heq
      exact absurd heq (hnumber k r hold).ne
    · rw [hother hk, hother hk'] at heq
      exact h.distinct k k' (hmem k r hold) (hmem k' r' hold') heq
  · obtain ⟨r, hr⟩ := (mem_lru_iff _ k).1 hk
    rcases hcases k r hr with ⟨rfl, -⟩ | ⟨hk, hold⟩
    · rw [hkey]
      exact ⟨(Function.update_self k u.calls u.usedAt).ge, Nat.lt_succ_self _⟩
    · rw [hother hk]
      obtain ⟨hused, hcalls⟩ := h.used k (hmem k r hold)
      exact ⟨hused.trans (Function.update_of_ne hk _ _).ge, hcalls.trans (Nat.lt_succ_self _)⟩

theorem Dated.call {c : Call K V} (h : u.Dated) (hticks : u.Ticks c) : (u.call c).Dated := by
  cases c with
  | get key => exact h.get key
  | insert visited now key value => exact h.insert hticks
  | remove key =>
    refine h.restrict (h.inStep.remove key) (fun k r hr ↦ ?_) (Nat.le_succ _)
    have hlookup := lookup_foldl_remove [key] u.tier k
    rw [List.foldl_cons, List.foldl_nil, hr] at hlookup
    split at hlookup
    · cases hlookup
    · exact hlookup.symm
  | clear => exact h.restrict (inStep_clear _) nofun (Nat.le_succ _)

/-! ### The eviction -/

/-- What is evicted was inserted before what stays, and is among the oldest tenth. -/
theorem Dated.insertedAt_lt (h : u.Dated) {visited : List (K × Int)}
    (hvisited : visited.Perm u.tier.lru.toList) {k k' : K} (hk : k ∈ u.tier.victims visited)
    (hk' : k' ∈ u.tier.cache) (hstays : k' ∉ u.tier.victims visited) :
    u.insertedAt k < u.insertedAt k' := by
  have hlru : ∀ x, x ∈ sorted visited → u.tier.lru.lookup x.1 = some x.2 := fun x hx ↦
    HashMap.mem_toList_iff.1 (((List.mergeSort_perm _ _).trans hvisited).mem_iff.1 hx)
  have hsorted : (sorted visited).Pairwise fun a b ↦ a.2 ≤ b.2 := by
    have hpairs : (sorted visited).Pairwise fun a b ↦ decide (a.2 ≤ b.2) = true :=
      List.pairwise_mergeSort
        (fun a b c hab hbc ↦ decide_eq_true ((of_decide_eq_true hab).trans (of_decide_eq_true hbc)))
        (fun a b ↦ by simpa using le_total a.2 b.2) visited
    exact hpairs.imp fun hab ↦ of_decide_eq_true hab
  rw [victims] at hk hstays
  split at hk
  · rename_i hover
    rw [if_pos hover] at hstays
    rw [← List.take_append_drop (u.tier.cache.size / 10) (sorted visited), List.pairwise_append]
      at hsorted
    obtain ⟨x, hx, rfl⟩ := List.mem_map.1 hk
    obtain ⟨x', hx', rfl⟩ := List.mem_map.1
      ((map_fst_sorted_perm hvisited).mem_iff.2 ((h.inStep.mem_iff k').1 hk'))
    have hbehind : x' ∈ (sorted visited).drop (u.tier.cache.size / 10) := by
      rw [← List.take_append_drop (u.tier.cache.size / 10) (sorted visited)] at hx'
      exact (List.mem_append.1 hx').resolve_left fun hin ↦ hstays (List.mem_map_of_mem hin)
    have hread := hlru x (List.mem_of_mem_take hx)
    have hread' := hlru x' hx'
    refine lt_of_le_of_ne ?_ fun heq ↦ ?_
    · refine Nat.le_of_not_lt fun hlt ↦ ?_
      exact ((h.order _ _ _ _ hread' hread).2 hlt).not_ge (hsorted.2.2 x hx x' hbehind)
    · have hsame := h.distinct _ _ ((mem_lru_iff u.tier _).2 ⟨_, hread⟩)
        ((mem_lru_iff u.tier _).2 ⟨_, hread'⟩) heq
      exact hstays (hsame ▸ hk)
  · cases hk

/-- What is evicted is among the oldest tenth. -/
theorem Dated.older_lt (h : u.Dated) {visited : List (K × Int)}
    (hvisited : visited.Perm u.tier.lru.toList) {k : K} (hk : k ∈ u.tier.victims visited) :
    u.older k < (u.tier.victims visited).length := by
  have hnodup : (k :: u.tier.lru.keys.filter fun x ↦ u.insertedAt x < u.insertedAt k).Nodup := by
    refine List.nodup_cons.2 ⟨fun hin ↦ ?_, u.tier.lru.keys_nodup.filter _⟩
    exact lt_irrefl _ (of_decide_eq_true (List.mem_filter.1 hin).2)
  -- an older entry that stayed would have been inserted after the key
  have hsub : (k :: u.tier.lru.keys.filter fun x ↦ u.insertedAt x < u.insertedAt k) ⊆
      u.tier.victims visited := by
    refine List.cons_subset.2 ⟨hk, fun x hx ↦ ?_⟩
    obtain ⟨hin, hlt⟩ := List.mem_filter.1 hx
    by_contra hstays
    have hafter := h.insertedAt_lt hvisited hk ((h.inStep.mem_iff x).2 hin) hstays
    exact hafter.asymm (of_decide_eq_true hlt)
  have hlength := (hnodup.subperm hsub).length_le
  rwa [List.length_cons] at hlength

/-- The step: an insertion evicts what was used least recently. -/
theorem Dated.evictsLeastRecent (h : u.Dated) {c : Call K V} (hadmits : u.Admits c)
    (hunread : u.OldestUnread c) : u.EvictsLeastRecent c := by
  cases c with
  | insert visited now key value =>
    have hvisited : visited.Perm u.tier.lru.toList := hadmits
    have hlength := length_victims h.inStep hvisited
    have hcondition : u.tier.victims visited ≠ [] → u.tier.overLimit = true ∧
        (u.tier.victims visited).length = u.tier.cache.size / 10 ∧ 10 ≤ u.tier.cache.size := by
      intro hne
      have hpos := List.length_pos_iff.2 hne
      split at hlength
      · rename_i hover
        exact ⟨hover, hlength, by omega⟩
      · omega
    refine ⟨fun hne ↦ ?_, fun k hk k' hk' hstays ↦ ?_⟩
    · obtain ⟨hover, -, hten⟩ := hcondition hne
      obtain ⟨hfits, -⟩ := hunread hover hten
      have hgt := of_decide_eq_true (Bool.and_eq_true_iff.1 hover).1
      -- the limit did not wrap around, and the estimate is no more than the entries take
      omega
    · obtain ⟨hover, hsize, hten⟩ := hcondition (List.ne_nil_of_mem hk)
      obtain ⟨-, hunread⟩ := hunread hover hten
      have hin := mem_lru_of_mem_victims hvisited hk
      have hused := hunread k ((h.inStep.mem_iff k).2 hin) (hsize ▸ h.older_lt hvisited hk)
      have hlater := (h.used k' ((h.inStep.mem_iff k').1 hk')).1
      exact hused ▸ (h.insertedAt_lt hvisited hk hk' hstays).trans_le hlater
  | get key => trivial
  | remove key => trivial
  | clear => trivial

/-- What holds of each step from a state with the invariant holds all along. -/
theorem along_of_invariant {P Q : Usage K V → Call K V → Prop} {I : Usage K V → Prop}
    (hstep : ∀ u c, P u c → I u → Q u c ∧ I (u.call c)) :
    ∀ {calls : List (Call K V)} {u : Usage K V}, I u → u.Along P calls → u.Along Q calls
  | [], _, _, _ => trivial
  | c :: _, u, hu, ⟨hc, hrest⟩ => by
    obtain ⟨hq, hnext⟩ := hstep u c hc hu
    exact ⟨hq, along_of_invariant hstep hnext hrest⟩

/-- **Eviction is least-recently-used**, and only comes over the limit: with a clock that goes forward,
in a run in which no key that is about to be evicted was found since its insertion, and in which the
limit fits into 64 bits where it matters. -/
theorem evicts_least_recent {limitMb : Nat} {calls : List (Call K V)}
    (hcalls : (start limitMb).Along (fun u c ↦ u.Admits c ∧ u.Ticks c ∧ u.OldestUnread c) calls) :
    (start limitMb).Along EvictsLeastRecent calls :=
  along_of_invariant (I := Dated) (fun _ _ ⟨hadmits, hticks, hunread⟩ hu ↦
    ⟨hu.evictsLeastRecent hadmits hunread, hu.call hticks⟩) (dated_start limitMb) hcalls

/-! ### Runs to look at -/

theorem along_append {P : Usage K V → Call K V → Prop} {more : List (Call K V)} :
    ∀ {calls : List (Call K V)} {u : Usage K V},
      u.Along P (calls ++ more) ↔ u.Along P calls ∧ (u.after calls).Along P more
  | [], _ => (iff_of_eq (true_and _)).symm
  | c :: calls, u => by
    show P u c ∧ (u.call c).Along P (calls ++ more) ↔
      (P u c ∧ (u.call c).Along P calls) ∧ ((u.call c).after calls).Along P more
    rw [along_append, and_assoc]

instance (u : Usage K V) : DecidablePred u.OldestUnread
  | .insert _ _ _ _ => inferInstanceAs (Decidable (_ → _ → _ ∧ _))
  | .get _ | .remove _ | .clear => inferInstanceAs (Decidable True)

/-- Ten insertions, and a `get` that finds a key. -/
def found (key : UInt8) : List (Call Bytes Bytes) := insertions 10 ++ [.get [key]]

/-- The eleventh insertion. -/
def eleventh : Call Bytes Bytes :=
  .insert ((List.range 10).map fun j ↦ ([UInt8.ofNat j], (j : Int))) 10 [10] []

/-- The key that is found is not the oldest one. -/
theorem evicts_least_recent_found :
    (start 0 : Usage Bytes Bytes).Along EvictsLeastRecent (found 9 ++ [eleventh]) :=
  evicts_least_recent (by decide +kernel)

/-- **Eviction goes by insertion, at a limit that wraps around.** With a limit of 2^44 mebibytes, the
eleventh entry makes the first one go, which was found last. -/
theorem not_evicts_least_recent : ¬ ∀ (limitMb : Nat) (calls : List (Call Bytes Bytes)),
    limitMb < 2 ^ 64 → (start limitMb).Along (fun u c ↦ u.Admits c ∧ u.Ticks c) calls →
      (start limitMb).Along EvictsLeastRecent calls := by
  intro h
  obtain ⟨-, ⟨-, hrecent⟩, -⟩ := along_append.1
    (h (2 ^ 44) (found 0 ++ [eleventh]) (by decide) (by decide +kernel))
  have hover : ((start (2 ^ 44)).after (found 0)).tier.overLimit = true := by decide +kernel
  have hsize : ((start (2 ^ 44)).after (found 0)).tier.cache.size = 10 := by decide +kernel
  have hvictims : ((start (2 ^ 44)).after (found 0)).tier.victims
      ((List.range 10).map fun j ↦ ([UInt8.ofNat j], (j : Int))) = [[0]] := by
    rw [victims, if_pos hover, hsize, sorted, List.mergeSort_of_pairwise (by decide)]
    decide
  rw [hvictims] at hrecent
  have hlt := hrecent [0] (List.mem_singleton_self _) [1] (by decide +kernel) (by decide)
  have hlater : ¬ ((start (2 ^ 44) : Usage Bytes Bytes).after (found 0)).usedAt [0] <
      ((start (2 ^ 44) : Usage Bytes Bytes).after (found 0)).usedAt [1] := by decide +kernel
  exact hlater hlt

end Usage

end KsSql
