import KsSql.Storage.ChainSteps
import KsSql.Storage.CrashSafety
import KsSql.Util.Race

/-!
# Reading beside an insertion

A statement's thread reads the pages of the tree one by one while the drain thread writes them. The
two are a race on the pager (`Race.Runs`), and what is shown of it holds in every state that any
interleaving reaches.

A scan (`collectLeaves`) relies on the leaf chain, which every page write keeps but the one that turns
a leaf at the root into an internal node: a scan that found the root to be a leaf reads it a second
time to visit it. So a scan finds everything, and reads no leaf whose values are missing, exactly if
the root is not a leaf that the insertion splits (`scanSafe_iff`).

A lookup relies on the nodes above the leaves, too, which do not know of the upper half of a split
node until the insertion has returned from below. It finds what was there exactly if the insertion
splits no node below the root (`reads_beside_insert_iff`).
-/

namespace KsSql

open PageProgram BPlusTree

variable {K V : Type} [LinearOrder K] {P P' : Nat → Node K V}

/-! ### Scans -/

section Scan

/-- A chain that passes through a page goes on as the page's chain. -/
theorem LeafChain.exists_append {R : K → V → Prop} {p q : Nat} {l : List Nat}
    (hl : LeafChain R P p l) (hq : q ∈ l) : ∃ pre l', l = pre ++ l' ∧ LeafChain R P q l' := by
  induction hl with
  | @last p hok hnone =>
    obtain rfl := List.mem_singleton.1 hq
    exact ⟨[], [q], rfl, .last hok hnone⟩
  | @next p r l hok hsome hr hl ih =>
    rcases List.mem_cons.1 hq with rfl | hq
    · exact ⟨[], q :: l, rfl, .next hok hsome hr hl⟩
    · obtain ⟨pre, l', rfl, hl'⟩ := ih hq
      exact ⟨p :: pre, l', rfl, hl'⟩

/-- What stands before an element stands before it in every larger list without repetitions. -/
theorem length_le_of_sublist {α : Type} {x : α} {a b c d : List α}
    (h : (a ++ x :: b).Sublist (c ++ x :: d)) (hnodup : (c ++ x :: d).Nodup) :
    a.length ≤ c.length := by
  obtain ⟨-, hd, hcd⟩ := List.nodup_append.1 hnodup
  have hxc : x ∉ c := fun hx ↦ hcd x hx x List.mem_cons_self rfl
  have hxd : x ∉ d := (List.nodup_cons.1 hd).1
  obtain ⟨l₁, l₂, heq, h₁, h₂⟩ := List.sublist_append_iff.1 h
  rcases List.append_eq_append_iff.1 heq with ⟨a', rfl, ha'⟩ | ⟨c', rfl, hc'⟩
  · rcases a' with _ | ⟨y, a'⟩
    · simpa using h₁.length_le
    · obtain ⟨rfl, -⟩ := List.cons.inj ha'
      exact absurd (h₁.subset (by simp)) hxc
  · rcases c' with _ | ⟨y, c'⟩
    · simpa using h₁.length_le
    · rw [hc', List.cons_append] at h₂
      have hmem : x ∈ d := by
        rcases List.sublist_cons_iff.1 h₂ with h₂ | ⟨r, hr, h₂⟩
        · exact h₂.subset (by simp)
        · obtain ⟨-, rfl⟩ := List.cons.inj hr
          exact h₂.subset (by simp)
      exact absurd hmem hxd

/-- Visiting a leaf by putting it on a list. -/
def collect (nodes : List (Node K V)) (_ : Nat) (node : Node K V) :
    Except Unit (List (Node K V)) := .ok (nodes ++ [node])

/-- The leaf walk of `scan_table_with_filter`, with the nodes that it visits. -/
def collectLeaves (fuel : Nat) : Program K V (Except Unit (List (Node K V))) := do
  let leaf ← leftmostLeaf fuel rootPageId
  walkLeaves collect fuel leaf []

variable (keys : List K) (first fuel : Nat)

/-- The nodes visited are leaves with a value for each key, and the keys not met on them are on the
chain that is left. -/
structure Visited (P : Nat → Node K V) (nodes : List (Node K V)) (l : List Nat) : Prop where
  shape : ∀ n ∈ nodes, n.LeafShape
  covers : ∀ key ∈ keys, (∃ n ∈ nodes, key ∈ n.keys) ∨ ∃ q ∈ l, key ∈ (P q).keys

/-- What a scan knows of the pages at each of its requests: that its descent is going to end at the
first leaf, on whose chain the keys are; or that its page is on that chain, with the keys still to be
met behind it, and no fewer pages before it than the scan has visited. -/
inductive ScanKnows (P : Nat → Node K V) : Program K V (Except Unit (List (Node K V))) → Prop
  | descend {p f h : Nat} {l : List Nat} (hp : WellFormed AnyBinding P h p)
      (hfirst : firstLeaf P h p = first) (hroot : p = rootPageId → f = fuel)
      (hbelow : p ≠ rootPageId → h < f) (hl : LeafChain AnyBinding P first l)
      (hvisited : Visited keys P [] l) :
      ScanKnows P (leftmostLeaf f p >>= fun leaf ↦ walkLeaves collect fuel leaf [])
  | walk {p f : Nat} {nodes : List (Node K V)} {pre l : List Nat}
      (hchain : LeafChain AnyBinding P first (pre ++ l)) (hl : LeafChain AnyBinding P p l)
      (hfuel : fuel ≤ f + pre.length) (hvisited : Visited keys P nodes l) :
      ScanKnows P (walkLeaves collect f p nodes)
  | ended {nodes : List (Node K V)} (hvisited : Visited keys P nodes []) :
      ScanKnows P (.done (.ok nodes))

variable {keys first fuel}

theorem Visited.step {nodes : List (Node K V)} {l l' : List Nat} (h : Visited keys P nodes l)
    (hkeys : ∀ q ∈ l, ∀ key ∈ (P q).keys, ∃ q' ∈ l', key ∈ (P' q').keys) :
    Visited keys P' nodes l' :=
  ⟨h.shape, fun key hkey ↦ (h.covers key hkey).imp_right fun ⟨q, hq, hq'⟩ ↦ hkeys q hq key hq'⟩

/-- **A page write** leaves the scan as well informed as it was. -/
theorem ScanKnows.write {q : Program K V (Except Unit (List (Node K V)))} (hstep : WalkStep P P')
    (h : ScanKnows keys first fuel P q) : ScanKnows keys first fuel P' q := by
  cases h with
  | descend hp hfirst hroot hbelow hl hvisited =>
    obtain ⟨h', hle, heq, hp', hfirst'⟩ := hstep.keeps _ _ hp
    obtain ⟨l', hl', -, hkeys⟩ := hstep.chain _ _ hl
    exact .descend hp' (hfirst'.trans hfirst) hroot (fun hp0 ↦ (heq hp0).symm ▸ hbelow hp0) hl'
      (hvisited.step hkeys)
  | @walk p f nodes pre l hchain hl hfuel hvisited =>
    obtain ⟨full, hfull, hsub, -⟩ := hstep.chain _ _ hchain
    obtain ⟨l', hl', -, hkeys⟩ := hstep.chain _ _ hl
    have hp : p ∈ full := hsub.subset (List.mem_append_right pre hl.head_mem)
    obtain ⟨pre', l'', rfl, hl''⟩ := hfull.exists_append hp
    obtain rfl := hl''.unique hl'
    refine .walk hfull hl'' (hfuel.trans (Nat.add_le_add_left ?_ f)) (hvisited.step hkeys)
    have hnodup := hfull.nodup
    obtain ⟨b, rfl⟩ : ∃ b, l = p :: b := by
      cases hl with
      | last => exact ⟨_, rfl⟩
      | next => exact ⟨_, rfl⟩
    obtain ⟨d, rfl⟩ : ∃ d, l'' = p :: d := by
      cases hl'' with
      | last => exact ⟨_, rfl⟩
      | next => exact ⟨_, rfl⟩
    exact length_le_of_sublist hsub hnodup
  | ended hvisited => exact .ended (hvisited.step fun q hq ↦ nomatch hq)

/-- **A read** of the scan. The tree is never higher, and no chain longer, than the scan has steps. -/
theorem ScanKnows.read {pid : Nat} {next : Node K V → Program K V (Except Unit (List (Node K V)))}
    (hheight : ∀ h, WellFormed AnyBinding P h rootPageId → h < fuel)
    (h : ScanKnows keys first fuel P (.read pid next)) :
    ScanKnows keys first fuel P (next (P pid)) := by
  generalize hq : PageProgram.read pid next = q at h
  cases h with
  | @descend p f h l hp hfirst hroot hbelow hl hvisited =>
    cases f with
    | zero => cases hq
    | succ f =>
      rw [leftmostLeaf, readPage_bind, read_bind] at hq
      obtain ⟨rfl, rfl⟩ := PageProgram.read.inj hq
      have hlt : h < f + 1 := by
        by_cases hp0 : pid = rootPageId
        · rw [hroot hp0]
          exact hheight h (hp0 ▸ hp)
        · exact hbelow hp0
      dsimp only
      cases h with
      | zero =>
        rw [hp.leafOk.shape.isLeaf]
        have hpid : pid = first := hfirst
        subst hpid
        exact .walk (show LeafChain AnyBinding P pid ([] ++ l) from hl) hl (Nat.le_add_right _ _)
          hvisited
      | succ h =>
        rw [hp.1.isInternal]
        rcases hch : (P pid).children with _ | ⟨c, cs⟩
        · have := hp.1.length_eq
          rw [hch] at this
          cases this
        · obtain ⟨hc0, hc⟩ := hp.2 c (by rw [hch]; exact List.mem_cons_self)
          rw [firstLeaf_succ (c := c) (by rw [hch]; rfl)] at hfirst
          exact .descend hc hfirst (fun e ↦ absurd e hc0) (fun _ ↦ Nat.succ_lt_succ_iff.1 hlt) hl
            hvisited
  | @walk p f nodes pre l hchain hl hfuel hvisited =>
    cases f with
    | zero => cases hq
    | succ f =>
      rw [walkLeaves, readPage_bind] at hq
      obtain ⟨rfl, rfl⟩ := PageProgram.read.inj hq
      dsimp only [collect]
      have hshape : ∀ n ∈ nodes ++ [P pid], n.LeafShape := fun n hn ↦
        (List.mem_append.1 hn).elim (hvisited.shape n) fun hn ↦
          List.mem_singleton.1 hn ▸ hl.leafOk.shape
      -- a key is on the nodes visited, on the one being visited, or further on
      have hcovers : ∀ {rest : List Nat}, l = pid :: rest → ∀ key ∈ keys,
          (∃ n ∈ nodes ++ [P pid], key ∈ n.keys) ∨ ∃ q ∈ rest, key ∈ (P q).keys := by
        intro rest hrest key hkey
        rcases hvisited.covers key hkey with ⟨n, hn, hkey⟩ | ⟨q, hq, hkey⟩
        · exact Or.inl ⟨n, List.mem_append_left _ hn, hkey⟩
        · rcases List.mem_cons.1 (hrest ▸ hq) with rfl | hq
          · exact Or.inl ⟨P q, List.mem_append_right _ List.mem_cons_self, hkey⟩
          · exact Or.inr ⟨q, hq, hkey⟩
      have hnodup := hl.nodup
      cases hl with
      | last hok hnone =>
        rw [hnone]
        exact .ended ⟨hshape, hcovers rfl⟩
      | @next _ q rest hok hsome hq hl =>
        have hne : q ≠ pid := fun e ↦ (List.nodup_cons.1 hnodup).1 (e ▸ hl.head_mem)
        simp only [hsome, if_neg hne]
        have hchain' : LeafChain AnyBinding P first ((pre ++ [pid]) ++ rest) := by
          rwa [List.append_assoc, List.singleton_append]
        refine .walk hchain' hl ?_ ⟨hshape, hcovers rfl⟩
        · rw [List.length_append, List.length_singleton]
          omega
  | ended => cases hq

/-- A scan that knows its way does not fail. -/
theorem ScanKnows.ne_fail {e : StorageError}
    {q : Program K V (Except Unit (List (Node K V)))}
    (hheight : ∀ h, WellFormed AnyBinding P h rootPageId → h < fuel)
    (hlength : ∀ p l, LeafChain AnyBinding P p l → l.length ≤ fuel)
    (h : ScanKnows keys first fuel P q) : q ≠ .fail e := by
  cases h with
  | @descend p f h l hp hfirst hroot hbelow hl hvisited =>
    cases f with
    | zero =>
      by_cases hp0 : p = rootPageId
      · have := hheight h (hp0 ▸ hp)
        have := hroot hp0
        omega
      · exact absurd (hbelow hp0) (Nat.not_lt_zero _)
    | succ f => exact fun h ↦ by cases h
  | @walk p f nodes pre l hchain hl hfuel hvisited =>
    cases f with
    | zero =>
      have := hlength _ _ hchain
      have := List.length_pos_of_mem hl.head_mem
      rw [List.length_append] at *
      omega
    | succ f => exact fun h ↦ by cases h
  | ended => exact nofun

/-- The descent of a scan ends at the first leaf. -/
theorem run_leftmostLeaf_eq_firstLeaf {t : BPlusTree K V} {fuel : Nat} : ∀ {h p : Nat},
    WellFormed AnyBinding t.pager.pages h p → h < fuel →
    (pagerDevice K V).run (leftmostLeaf fuel p) t = (.ok (firstLeaf t.pager.pages h p), t) := by
  induction fuel with
  | zero => exact fun _ h ↦ absurd h (Nat.not_lt_zero _)
  | succ fuel ih =>
    intro h p hp hfuel
    rw [leftmostLeaf, readPage_bind, Device.run, pagerDevice_read]
    cases h with
    | zero =>
      rw [hp.leafOk.shape.isLeaf]
      rfl
    | succ h =>
      obtain ⟨c, hc, hmem⟩ := hp.head_children
      rw [firstLeaf_succ hc, hp.1.isInternal]
      rcases hch : (t.pager.pages p).children with _ | ⟨d, ds⟩
      · rw [hch] at hc
        cases hc
      · rw [hch] at hc
        obtain rfl := Option.some.inj hc
        exact ih (hp.2 d hmem).2 (by omega)

variable [ByteLen K] [ByteLen V] (bs : BinarySearch K) (t : BPlusTree K V) (k : K) (v : V)

/-- In every interleaving with the insertion a scan, given steps for all pages of the file, visits
nodes with a value for each key, and meets every key that it would have met alone before. -/
def ScanSafe : Prop :=
  ∀ fuel, (t.insert bs k v).2.fuel ≤ fuel → ∀ p q s,
    Race.Runs (pagerDevice K V).step (pagerDevice K V).step
      (insertProgram bs t.fuel k v, collectLeaves fuel, t) (p, q, s) →
    (∀ e, q ≠ .fail e) ∧ ∀ r, q = .done r → ∃ nodes, r = .ok nodes ∧
      (∀ n ∈ nodes, n.keys.length ≤ n.values.length) ∧
      ∀ e ∈ t.leafEntries, ∃ n ∈ nodes, e.1 ∈ n.keys

variable {bs t k v}

/-- **A scan beside an insertion**, when the root is no leaf that is split. -/
theorem scanSafe (ht : Sound AnyBinding t) (hb : (t.insert bs k v).2.PagesBelow)
    (hnot : ¬ t.RootIsFullLeaf) : ScanSafe bs t k v := by
  intro fuel hfuel p q s hrace
  obtain ⟨h, hroot⟩ := ht.root
  have hwrites := (gwp_insertProgram_walk bs k v ht.sized hroot hnot hb).2
  have hsized := (insert_sound bs ht trivial hb).1.sized
  have hheight : ∀ (p₁ : Program K V Unit) (s₁ : BPlusTree K V),
      (pagerDevice K V).Writes (onPages WalkStep) p₁ s₁ →
      (pagerDevice K V).run p₁ s₁ = t.insert bs k v →
      ∀ h, WellFormed AnyBinding s₁.pager.pages h rootPageId → h < fuel := by
    intro p₁ s₁ hw hrun h₁ hroot₁
    have hend := Device.run_of_writes (G := onPages WalkStep)
      (I := fun u : BPlusTree K V ↦ ∃ h', h₁ ≤ h' ∧ WellFormed AnyBinding u.pager.pages h' rootPageId)
      (fun u u' hG ⟨h', hle, hwf⟩ ↦ by
        obtain ⟨h'', hle', -, hwf', -⟩ := hG.keeps h' rootPageId hwf
        exact ⟨h'', hle.trans hle', hwf'⟩)
      (fun _ _ _ _ hlog hu ↦ (pager_of_log hlog).symm ▸ hu) (fun _ hu ↦ hu) p₁
      ⟨h₁, le_rfl, hroot₁⟩ hw
    rw [hrun] at hend
    obtain ⟨h', hle, hwf⟩ := hend
    exact lt_of_le_of_lt hle (lt_of_lt_of_le (Nat.lt_succ_of_lt (hwf.height_lt hsized.blank)) hfuel)
  have hlength : ∀ (p₁ : Program K V Unit) (s₁ : BPlusTree K V),
      (pagerDevice K V).Writes (onPages WalkStep) p₁ s₁ →
      (pagerDevice K V).run p₁ s₁ = t.insert bs k v →
      ∀ x l, LeafChain AnyBinding s₁.pager.pages x l → l.length ≤ fuel := by
    intro p₁ s₁ hw hrun x l hl
    have hend := Device.run_of_writes (G := onPages WalkStep)
      (I := fun u : BPlusTree K V ↦ ∃ l', LeafChain AnyBinding u.pager.pages x l' ∧
        l.length ≤ l'.length)
      (fun u u' hG ⟨l', hl', hle⟩ ↦ by
        obtain ⟨l'', hl'', hsub, -⟩ := hG.chain x l' hl'
        exact ⟨l'', hl'', hle.trans hsub.length_le⟩)
      (fun _ _ _ _ hlog hu ↦ (pager_of_log hlog).symm ▸ hu) (fun _ hu ↦ hu) p₁
      ⟨l, hl, le_rfl⟩ hw
    rw [hrun] at hend
    obtain ⟨l', hl', hle⟩ := hend
    exact hle.trans ((length_le_of_leafChain hsized hl').trans ((Nat.le_succ _).trans hfuel))
  obtain ⟨first, hchain, hdescent⟩ := exists_leafChain ht
  obtain rfl : firstLeaf t.pager.pages h rootPageId = first := Except.ok.inj (Prod.mk.inj
    ((run_leftmostLeaf_eq_firstLeaf hroot (Nat.lt_succ_of_lt (hroot.height_lt
      ht.sized.blank))).symm.trans hdescent)).1
  have hstart : ScanKnows (t.leafEntries.map Prod.fst) (firstLeaf t.pager.pages h rootPageId) fuel
      t.pager.pages (collectLeaves fuel) := by
    refine .descend hroot rfl (fun _ ↦ rfl) (fun h ↦ absurd rfl h) hchain
      ⟨fun n hn ↦ (nomatch hn), fun key hkey ↦ Or.inr ?_⟩
    obtain ⟨e, he, rfl⟩ := List.mem_map.1 hkey
    obtain ⟨q, hq, he⟩ := List.mem_flatMap.1 he
    exact ⟨q, hq, SortedAssoc.mem_fst_of_mem_zip he⟩
  obtain ⟨hknows, hw, hrun⟩ := Race.invariant_of_readOnly (G := onPages WalkStep)
    (J := fun q u ↦ ScanKnows (t.leafEntries.map Prod.fst)
      (firstLeaf t.pager.pages h rootPageId) fuel u.pager.pages q)
    (fun _ _ _ hG hJ ↦ hJ.write hG) (fun _ _ _ _ _ hlog hJ ↦ (pager_of_log hlog).symm ▸ hJ)
    (fun _ _ hJ ↦ hJ) (fun p₁ s₁ hw hrun _ _ hJ ↦ hJ.read (hheight p₁ s₁ hw hrun))
    ((readOnly_leftmostLeaf _ _).bind fun _ ↦ readOnly_walkLeaves _ _ _ _) hwrites hstart hrace
  refine ⟨fun e ↦ hknows.ne_fail (hheight p s hw hrun) (hlength p s hw hrun), fun r hr ↦ ?_⟩
  subst hr
  generalize hq : PageProgram.done r = q' at hknows
  cases hknows with
  | @descend p f h l hp hfirst hroot hbelow hl hvisited =>
    cases f <;> cases hq
  | @walk p f nodes pre l hchain hl hfuel hvisited =>
    cases f <;> cases hq
  | ended hvisited =>
    obtain rfl := PageProgram.done.inj hq
    refine ⟨_, rfl, fun n hn ↦ (hvisited.shape n hn).length_eq.le, fun e he ↦ ?_⟩
    rcases hvisited.covers e.1 (List.mem_map_of_mem he) with h | ⟨q, hq, -⟩
    · exact h
    · exact nomatch hq

/-- **A scan beside the split of its leaf.** A scan that found the root to be a leaf reads it again
when it has become internal: a node with a key and no value. -/
theorem not_scanSafe (ht : Sound AnyBinding t) (hfits : ∀ q, (t.pager.pages q).Fits)
    (hok : (t.insert bs k v).1 = .ok ()) (hb : (t.insert bs k v).2.PagesBelow)
    (hfull : t.RootIsFullLeaf) : ¬ ScanSafe bs t k v := by
  obtain ⟨h, hroot⟩ := ht.root
  obtain ⟨⟨m, hm⟩, -⟩ := hroot.exists_midKey hfull.2
  rcases exists_descent bs ht.sized hroot hfits hb with
    herr | ⟨-, -, -, -, -, -, s, hs, hpages⟩
  · rw [hok] at herr
    cases herr
  · rw [descentPages, if_pos hfull.2, hm] at hpages
    have hnode : s.pager.pages rootPageId =
        ⟨.internal, [m], [t.pager.pageCount, t.pager.pageCount + 1], [], none⟩ := by
      rw [hpages]
      exact rootSplitPages_root
    intro hsafe
    obtain ⟨p', hwriter⟩ := Race.runs_to_point hs
      (walkLeaves collect (t.insert bs k v).2.fuel rootPageId [] :
        Program K V (Except Unit (List (Node K V))))
    -- the scan sees the leaf, then the insertion writes the new root, then the scan goes on
    have hread : (pagerDevice K V).step (collectLeaves (t.insert bs k v).2.fuel) t =
        some (walkLeaves collect (t.insert bs k v).2.fuel rootPageId [], t) := by
      rw [collectLeaves, BPlusTree.fuel, leftmostLeaf, readPage_bind, read_bind, Device.step,
        pagerDevice_read, hfull.1]
      rfl
    have hwalk : (pagerDevice K V).run
        (walkLeaves collect (t.insert bs k v).2.fuel rootPageId []) s =
        (.ok (.ok [s.pager.pages rootPageId]), s) := by
      rw [BPlusTree.fuel, walkLeaves, readPage_bind, Device.run, pagerDevice_read, hnode]
      rfl
    have hrest := Race.runs_right (D := pagerDevice K V) p'
      (walkLeaves collect (t.insert bs k v).2.fuel rootPageId [] :
        Program K V (Except Unit (List (Node K V)))) s
    rw [hwalk] at hrest
    obtain ⟨-, hdone⟩ := hsafe _ le_rfl _ _ _
      (Relation.ReflTransGen.head (Race.Step.right hread) (hwriter.trans hrest))
    obtain ⟨nodes, hnodes, hvalues, -⟩ := hdone _ rfl
    obtain rfl := Except.ok.inj hnodes
    have := hvalues _ List.mem_cons_self
    rw [hnode] at this
    exact absurd this (by simp)

end Scan

/-! ### Lookups -/

section Lookup

variable [ByteLen K] [ByteLen V] (bs : BinarySearch K) (t : BPlusTree K V) (k : K) (v : V)

/-- In every interleaving with the insertion a lookup, given steps for all pages of the file, finds
the value that it would have found alone before, or the inserted one. -/
def LookupSafe : Prop :=
  ∀ fuel, (t.insert bs k v).2.fuel ≤ fuel → ∀ key old, t.getPages bs key = .ok (some old) →
    ∀ p q s, Race.Runs (pagerDevice K V).step (pagerDevice K V).step
      (insertProgram bs t.fuel k v, getLoop bs key fuel rootPageId, t) (p, q, s) →
    (∀ e, q ≠ .fail e) ∧ ∀ r, q = .done r → r = some old ∨ key = k ∧ r = some v

variable (key : K) (old : V) (height fuel : Nat)

/-- What a lookup knows of a tree at each of its requests: below its page is an answer. -/
inductive LookupKnows (P : Nat → Node K V) : Program K V (Option V) → Prop
  | descend {p f h : Nat} {w : V} (hp : WellFormed AnyBinding P h p)
      (hroot : p = rootPageId → f = fuel ∧ h ≤ height) (hbelow : p ≠ rootPageId → h < f)
      (hlookup : lookupBelow bs key P h p = some w) (hw : w = old ∨ key = k ∧ w = v) :
      LookupKnows P (getLoop bs key f p)
  | ended {w : V} (hw : w = old ∨ key = k ∧ w = v) : LookupKnows P (.done (some w))

variable {bs t k v key old height fuel}

omit [ByteLen K] [ByteLen V] in
/-- **A read** of the lookup. -/
theorem LookupKnows.read {P : Nat → Node K V} {pid : Nat}
    {next : Node K V → Program K V (Option V)} (hfuel : height < fuel)
    (h : LookupKnows bs k v key old height fuel P (.read pid next)) :
    LookupKnows bs k v key old height fuel P (next (P pid)) := by
  generalize hq : PageProgram.read pid next = q at h
  cases h with
  | @descend p f h w hp hroot hbelow hlookup hw =>
    cases f with
    | zero => cases hq
    | succ f =>
      rw [getLoop_succ] at hq
      obtain ⟨rfl, rfl⟩ := PageProgram.read.inj hq
      have hlt : h < f + 1 := by
        by_cases hp0 : pid = rootPageId
        · obtain ⟨hf, hh⟩ := hroot hp0
          omega
        · exact hbelow hp0
      cases h with
      | zero =>
        rw [lookupBelow] at hlookup
        rw [getNode_leaf bs key hp.leafOk.shape, hlookup]
        exact .ended hw
      | succ h =>
        rw [lookupBelow] at hlookup
        rcases hc : (P pid).children[childIndex bs (P pid) key]? with _ | c
        · rw [hc] at hlookup
          cases hlookup
        · rw [hc] at hlookup
          obtain ⟨hc0, hcwf⟩ := hp.2 c (List.mem_of_getElem? hc)
          rw [getNode_internal bs key hp.1.isInternal hc]
          exact .descend hcwf (fun e ↦ absurd e hc0) (fun _ ↦ Nat.succ_lt_succ_iff.1 hlt)
            hlookup hw
  | ended => cases hq

omit [ByteLen K] [ByteLen V] in
/-- A binding put into a leaf leaves a lookup with an answer. -/
theorem LookupKnows.put {P P' : Nat → Node K V} {q : Program K V (Option V)} {leaf : Nat}
    (hput : LeafPut k v P P' leaf) (h : LookupKnows bs k v key old height fuel P q) :
    LookupKnows bs k v key old height fuel P' q := by
  cases h with
  | descend hp hroot hbelow hlookup hw =>
    have hp' := hput.preserves (R := AnyBinding) (fun _ _ ↦ trivial) _ _ hp
    by_cases hkey : key = k
    · subst hkey
      rcases hput.lookupBelow_self hlookup with h | h
      · exact .descend hp' hroot hbelow h hw
      · exact .descend hp' hroot hbelow h (Or.inr ⟨rfl, rfl⟩)
    · exact .descend hp' hroot hbelow ((hput.lookupBelow_of_ne hkey).trans hlookup) hw
  | ended hw => exact .ended hw

/-- A root split leaves a lookup with its answer. -/
theorem LookupKnows.descent {q : Program K V (Option V)} {h₀ : Nat} (ht : t.pager.Sized)
    (hroot₀ : WellFormed AnyBinding t.pager.pages h₀ rootPageId) (hclean : t.RootSplitsCleanly)
    (hheight : h₀ + 1 ≤ height) (h : LookupKnows bs k v key old height fuel t.pager.pages q) :
    LookupKnows bs k v key old height fuel t.descentPages q := by
  cases h with
  | @descend p f h w hp hroot hbelow hlookup hw =>
    by_cases hp0 : p = rootPageId
    · subst hp0
      obtain rfl := hroot₀.height_unique hp
      have hle := descentHeight_le t h₀
      exact .descend (wellFormed_descent ht hroot₀)
        (fun _ ↦ ⟨(hroot rfl).1, hle.trans hheight⟩) (fun h ↦ absurd rfl h)
        ((lookupBelow_descent _ _ ht hroot₀ hclean).trans hlookup) hw
    · have hsame : ∀ q, (∃ h, WellFormed AnyBinding t.pager.pages h q) →
          q = p ∨ q ≠ rootPageId → t.descentPages q = t.pager.pages q := by
        rintro q ⟨i, hq⟩ hqp
        have hq0 : q ≠ rootPageId := hqp.elim (fun e ↦ e ▸ hp0) id
        have hlt := lt_pageCount_of_wellFormed ht hq
        rw [descentPages]
        split
        · rcases (t.pager.pages rootPageId).midKey? with _ | m
          · rfl
          · exact rootSplitPages_of_ne hq0 (by omega) (by omega)
        · rfl
      exact .descend (wellFormed_congr hp hsame) (fun e ↦ absurd e hp0) hbelow
        ((lookupBelow_congr hp hsame).trans hlookup) hw
  | ended hw => exact .ended hw

/-- The pages that a lookup takes the tree to consist of: the old ones, while the insertion writes
pages that nothing refers to, and then those it finds. -/
def Stage (k : K) (v : V) (t : BPlusTree K V) (P Q : Nat → Node K V) : Prop :=
  (P = t.pager.pages ∧ t.OldPages Q) ∨
    P = Q ∧ (Q = t.descentPages ∨ ∃ leaf, LeafPut k v t.descentPages Q leaf)

/-- While the root is full, the old pages are not the later ones. -/
theorem Stage.eq_pages {Q : Nat → Node K V} {h₀ : Nat} (ht : t.pager.Sized)
    (hroot₀ : WellFormed AnyBinding t.pager.pages h₀ rootPageId)
    (hfull : (t.pager.pages rootPageId).isFull) (hold : t.OldPages Q)
    (hstage : Stage k v t P Q) : P = t.pager.pages := by
  rcases hstage with ⟨hP, -⟩ | ⟨-, hQ⟩
  · exact hP
  · exfalso
    obtain ⟨⟨m, hm⟩, -⟩ := hroot₀.exists_midKey hfull
    have hnew : t.descentPages rootPageId =
        ⟨.internal, [m], [t.pager.pageCount, t.pager.pageCount + 1], [], none⟩ := by
      rw [descentPages, if_pos hfull, hm]
      exact rootSplitPages_root
    have hQroot : Q rootPageId = t.descentPages rootPageId := by
      rcases hQ with rfl | ⟨leaf, hput⟩
      · rfl
      · refine hput.frame _ fun e ↦ ?_
        have hleaf := hput.old.isLeaf
        rw [← e, hnew] at hleaf
        cases hleaf
    have hroot : t.pager.pages rootPageId =
        ⟨.internal, [m], [t.pager.pageCount, t.pager.pageCount + 1], [], none⟩ :=
      (hold _ ht.pos).symm.trans (hQroot.trans hnew)
    cases h₀ with
    | zero =>
      have hleaf := hroot₀.leafOk.shape.isLeaf
      rw [hroot] at hleaf
      cases hleaf
    | succ h₀ =>
      obtain ⟨-, hc⟩ := hroot₀.2 t.pager.pageCount (by
        rw [hroot]
        exact List.mem_cons_self)
      exact lt_irrefl _ (lt_pageCount_of_wellFormed ht hc)

/-- **A lookup beside an insertion** that splits nothing below the root. -/
theorem lookupSafe (ht : Sound AnyBinding t) (hfits : ∀ q, (t.pager.pages q).Fits)
    (hb : (t.insert bs k v).2.PagesBelow) (hclean : t.RootSplitsCleanly)
    (hquiet : t.QuietBelowRoot bs k) : LookupSafe bs t k v := by
  intro fuel hfuel key old hold p q s hrace
  obtain ⟨h₀, hroot₀⟩ := ht.root
  have hgwp := gwp_insertProgram_quiet (v := v) ht.sized hroot₀ hfits hquiet hb
  have hheight : h₀ + 1 < fuel := by
    have hcount : t.pager.fileLength ≤ (t.insert bs k v).2.pager.fileLength :=
      (fileLength_points (insertProgram bs t.fuel k v) t t List.mem_cons_self).2
    have hlt : h₀ < t.pager.pageCount := hroot₀.height_lt ht.sized.blank
    have hle : t.pager.pageCount ≤ (t.insert bs k v).2.pager.pageCount :=
      Nat.div_le_div_right hcount
    have hfuel' : (t.insert bs k v).2.pager.pageCount + 1 ≤ fuel := hfuel
    omega
  rw [getPages_eq_lookupBelow ht.sized hroot₀] at hold
  have hstart : LookupKnows bs k v key old (h₀ + 1) fuel t.pager.pages
      (getLoop bs key fuel rootPageId) :=
    .descend hroot₀ (fun _ ↦ ⟨rfl, Nat.le_succ h₀⟩) (fun h ↦ absurd rfl h) (Except.ok.inj hold)
      (Or.inl rfl)
  -- a page write of the insertion
  have hwrite : ∀ (q : Program K V (Option V)) (u u' : BPlusTree K V),
      onPages (QuietWrite k v t) u u' →
      (∃ P, Stage k v t P u.pager.pages ∧ LookupKnows bs k v key old (h₀ + 1) fuel P q) →
      ∃ P, Stage k v t P u'.pager.pages ∧ LookupKnows bs k v key old (h₀ + 1) fuel P q := by
    rintro q u u' hG ⟨P, hstage, hknows⟩
    rcases hG with ⟨hfull, hu, hu'⟩ | ⟨hu, leaf, hput⟩ | hsame
    · obtain rfl := hstage.eq_pages ht.sized hroot₀ hfull hu
      rcases hu' with hu' | hu'
      · exact ⟨_, Or.inl ⟨rfl, hu'⟩, hknows⟩
      · exact ⟨_, Or.inr ⟨rfl, Or.inl hu'⟩,
          hu' ▸ hknows.descent ht.sized hroot₀ hclean le_rfl⟩
    · have hlater : LookupKnows bs k v key old (h₀ + 1) fuel t.descentPages q := by
        rcases hstage with ⟨rfl, -⟩ | ⟨rfl, -⟩
        · exact hknows.descent ht.sized hroot₀ hclean le_rfl
        · exact hu ▸ hknows
      exact ⟨_, Or.inr ⟨rfl, Or.inr ⟨leaf, hput⟩⟩, hlater.put hput⟩
    · exact ⟨P, hsame ▸ hstage, hknows⟩
  -- a page read of the lookup
  have hread : ∀ (p₁ : Program K V Unit) (u : BPlusTree K V),
      (pagerDevice K V).Writes (onPages (QuietWrite k v t)) p₁ u →
      (pagerDevice K V).run p₁ u = (pagerDevice K V).run (insertProgram bs t.fuel k v) t →
      ∀ pid next, (∃ P, Stage k v t P u.pager.pages ∧
        LookupKnows bs k v key old (h₀ + 1) fuel P (.read pid next)) →
      ∃ P, Stage k v t P u.pager.pages ∧
        LookupKnows bs k v key old (h₀ + 1) fuel P (next (u.pager.pages pid)) := by
    rintro p₁ u - - pid next ⟨P, hstage, hknows⟩
    refine ⟨P, hstage, ?_⟩
    have hpage : u.pager.pages pid = P pid := by
      rcases hstage with ⟨rfl, hu⟩ | ⟨rfl, -⟩
      · generalize hq : PageProgram.read pid next = q at hknows
        cases hknows with
        | @descend p f h w hp hroot hbelow hlookup hw =>
          cases f with
          | zero => cases hq
          | succ f =>
            rw [getLoop_succ] at hq
            obtain ⟨rfl, -⟩ := PageProgram.read.inj hq
            exact hu _ (lt_pageCount_of_wellFormed ht.sized hp)
        | ended => cases hq
      · rfl
    rw [hpage]
    exact hknows.read hheight
  obtain ⟨⟨P, -, hknows⟩, -, -⟩ := Race.invariant_of_readOnly (G := onPages (QuietWrite k v t))
    (J := fun q u ↦ ∃ P, Stage k v t P u.pager.pages ∧
      LookupKnows bs k v key old (h₀ + 1) fuel P q) hwrite
    (fun _ _ _ _ _ hlog hJ ↦ (pager_of_log hlog).symm ▸ hJ) (fun _ _ hJ ↦ hJ) hread
    (readOnly_getLoop bs key fuel rootPageId) hgwp.2 ⟨_, Or.inl ⟨rfl, fun _ _ ↦ rfl⟩, hstart⟩ hrace
  cases hknows with
  | @descend p f h w hp hroot hbelow hlookup hw =>
    have hf : 0 < f := by
      by_cases hp0 : p = rootPageId
      · have := hroot hp0
        omega
      · have := hbelow hp0
        omega
    obtain ⟨f, rfl⟩ := Nat.exists_eq_succ_of_ne_zero hf.ne'
    exact ⟨fun _ ↦ nofun, fun _ ↦ nofun⟩
  | @ended w hw =>
    refine ⟨fun _ ↦ nofun, fun r hr ↦ ?_⟩
    obtain rfl := PageProgram.done.inj hr
    exact hw.imp (congrArg some) (And.imp_right (congrArg some))

/-- **A lookup beside the split of a node** below the root: at one point the insertion has cut off
the key that is looked up. -/
theorem not_lookupSafe {tier : MemoryTier K V} (ht : t.Grown bs tier (InsertsInOrder bs))
    (hstep : t.InsertsInOrder bs k v) (hb : (t.insert bs k v).2.PagesBelow)
    (hloud : ¬ t.QuietBelowRoot bs k) : ¬ LookupSafe bs t k v := by
  obtain ⟨s, hs, key, old, hkey, hold, hlost⟩ := exists_point_lost ht hstep hb hloud
  have hfuel : t.fuel ≤ (t.insert bs k v).2.fuel := Nat.succ_le_succ (Nat.div_le_div_right
    (fileLength_points (insertProgram bs t.fuel k v) t t List.mem_cons_self).2)
  intro hsafe
  obtain ⟨p', hwriter⟩ := Race.runs_to_point hs
    (getLoop bs key (t.insert bs k v).2.fuel rootPageId : Program K V (Option V))
  have hrest := Race.runs_right (D := pagerDevice K V) p'
    (getLoop bs key (t.insert bs k v).2.fuel rootPageId) s
  rw [hlost _ hfuel] at hrest
  rcases (hsafe _ le_rfl key old hold _ _ _ (hwriter.trans hrest)).2 none rfl with h | ⟨h, -⟩
  · cases h
  · exact hkey h

end Lookup

/-! ### Both -/

section Both

variable [ByteLen K] [ByteLen V] {bs : BinarySearch K} {t : BPlusTree K V} {k : K} {v : V}

/-- **Reading beside one insertion.** In a tree that insertions grew, a scan is safe unless the root
is a leaf that is split, and a lookup is safe if the insertion splits nothing below the root and the
root, should it be split, has distinct separators. Beside an insertion that is done no other scan is
safe, and in a tree in search-tree order no other lookup. -/
theorem reads_beside_insert_iff {tier : MemoryTier K V}
    (hb : (t.insert bs k v).2.pager.handedOut.length < 2 ^ 32) :
    (t.Grown bs tier (fun _ _ _ ↦ True) →
      (¬ t.RootIsFullLeaf → ScanSafe bs t k v) ∧
      ((t.insert bs k v).1 = .ok () → (ScanSafe bs t k v ↔ ¬ t.RootIsFullLeaf)) ∧
      (t.RootSplitsCleanly → t.QuietBelowRoot bs k → LookupSafe bs t k v)) ∧
    (t.Grown bs tier (InsertsInOrder bs) → t.InsertsInOrder bs k v →
      (LookupSafe bs t k v ↔ t.QuietBelowRoot bs k)) := by
  have hbelow : t.PagesBelow := guard_pagesBelow.run _ hb
  refine ⟨fun hgrown ↦ ?_, fun hgrown hstep ↦ ⟨fun hsafe ↦ ?_, fun hquiet ↦ ?_⟩⟩
  · obtain ⟨hsound, hfits⟩ := hgrown.sound (R := AnyBinding) (fun _ _ _ _ ↦ trivial) hbelow
    exact ⟨scanSafe hsound hb, fun hok ↦
      ⟨fun hsafe hfull ↦ not_scanSafe hsound hfits hok hb hfull hsafe, scanSafe hsound hb⟩,
      lookupSafe hsound hfits hb⟩
  · by_contra hloud
    exact not_lookupSafe hgrown hstep hb hloud hsafe
  · obtain ⟨hsound, hfits⟩ := hgrown.any.sound (R := AnyBinding) (fun _ _ _ _ ↦ trivial) hbelow
    obtain ⟨h, htree, -⟩ := hgrown.anchored hbelow
    exact lookupSafe hsound hfits hb htree.rootSplitsCleanly hquiet

end Both

/-- In the tree with a full leaf below the root all scans are safe, and lookups are beside insertions
into the other leaf. -/
theorem reads_beside_insert_iff_fullLeaf : ∃ t : BPlusTree Bytes Bytes,
    t.Grown .std (MemoryTier.new 1024) (InsertsInOrder .std) ∧ ScanSafe .std t [2] [7] ∧
      LookupSafe .std t [9] [7] ∧ ¬ LookupSafe .std t [2] [7] := by
  have hfacts : ((openEmpty (MemoryTier.new 1024)).insertAll .std fullLeafBelowRoot).toOption.map
      (fun t ↦ decide ((t.insert .std [9] [7]).2.pager.handedOut.length < 2 ^ 32 ∧
        (t.insert .std [2] [7]).2.pager.handedOut.length < 2 ^ 32 ∧ t.RootSplitsCleanly ∧
        ¬ t.RootIsFullLeaf ∧ t.QuietBelowRoot .std [9] ∧ ¬ t.QuietBelowRoot .std [2] ∧
        t.SplitsBelowRoot .std (NewSeparator [2]) [2] ∧
        (t.insert .std [2] [7]).1.toOption.isSome)) = some true := by decide +kernel
  obtain ⟨t, hrun, hgrown⟩ := exists_fullLeafBelowRoot
  rw [hrun] at hfacts
  obtain ⟨hb, hb', hclean, hroot, hquiet, hloud, hroute, hdone⟩ :=
    of_decide_eq_true (Option.some.inj hfacts)
  have hok := eq_ok_of_isSome hdone
  have hgrown' := hgrown.any
  exact ⟨t, hgrown, ((reads_beside_insert_iff hb').1 hgrown').1 hroot,
    ((reads_beside_insert_iff hb).1 hgrown').2.2 hclean hquiet,
    fun hsafe ↦ hloud (((reads_beside_insert_iff hb').2 hgrown ⟨hroute, hok⟩).1 hsafe)⟩

/-- **A lookup misses a stored key** beside an insertion: it reads the root and the lower half of a
leaf, which the insertion has just split, before the root refers to the upper one. -/
theorem not_lookupSafe_split : ¬ ∀ (t : BPlusTree Bytes Bytes) (k v : Bytes),
    t.Grown .std (MemoryTier.new 1024) (InsertsInOrder .std) → (t.insert .std k v).1 = .ok () →
    LookupSafe .std t k v := by
  have hfacts : ((openEmpty (MemoryTier.new 1024)).insertAll .std fullLeafBelowRoot).toOption.map
      (fun t ↦ ((t.insert .std [2] [7]).1.toOption.isSome,
        (t.getPages .std [3]).toOption.map (Option.map List.length),
        ((pagerDevice Bytes Bytes).points (insertProgram .std t.fuel [2] [7]) t)[3]?.map fun s ↦
          ((pagerDevice Bytes Bytes).run (getLoop .std [3] (t.insert .std [2] [7]).2.fuel
            rootPageId) s).1.toOption.map (Option.map List.length))) =
      some (true, some (some 1600), some (some none)) := by
    decide +kernel
  intro hclaim
  obtain ⟨t, hrun, hgrown⟩ := exists_fullLeafBelowRoot
  rw [hrun] at hfacts
  obtain ⟨hdone, hfacts⟩ := Prod.mk.inj (Option.some.inj hfacts)
  obtain ⟨hold, hlost⟩ := Prod.mk.inj hfacts
  obtain ⟨s, hs, hnone⟩ := Option.map_eq_some_iff.1 hlost
  obtain ⟨o, hget, hlen⟩ := Option.map_eq_some_iff.1 hold
  obtain ⟨old, rfl, -⟩ := Option.map_eq_some_iff.1 hlen
  have hold : t.getPages .std [3] = .ok (some old) := by
    rcases h : t.getPages .std [3] with e | o
    · rw [h] at hget
      cases hget
    · rw [h] at hget
      exact congrArg Except.ok (Option.some.inj hget)
  have hok := eq_ok_of_isSome hdone
  obtain ⟨p', hwriter⟩ := Race.runs_to_point (List.mem_of_getElem? hs)
    (getLoop .std [3] (t.insert .std [2] [7]).2.fuel rootPageId : Program Bytes Bytes (Option Bytes))
  have hrest := Race.runs_right (D := pagerDevice Bytes Bytes) p'
    (getLoop .std [3] (t.insert .std [2] [7]).2.fuel rootPageId) s
  obtain ⟨o, ho, hnone⟩ := Option.map_eq_some_iff.1 hnone
  rcases hres : ((pagerDevice Bytes Bytes).run (getLoop .std [3]
    (t.insert .std [2] [7]).2.fuel rootPageId) s).1 with e | r
  · rw [hres] at ho
    cases ho
  · rw [hres] at ho hrest
    obtain rfl := Option.some.inj ho
    rw [Option.map_eq_none_iff] at hnone
    subst hnone
    rcases (hclaim t [2] [7] hgrown hok _ le_rfl [3] old hold _ _ _ (hwriter.trans hrest)).2 none rfl
      with h | ⟨h, -⟩
    · cases h
    · exact absurd h (by decide)

end KsSql
