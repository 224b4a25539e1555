import KsSql.Storage.Truncation

/-!
# Insertions cut short

An insertion that the process does not live to finish, or that is refused when a node does not fit its
page, has written some of its pages and not the others. If it splits no node below the root, it has
changed nothing that a lookup would notice, or it has put its binding into the leaf and is as good as
done (`lookupBelow_stage`). If it does split one, there is a point at which the upper half of that
node is out of sight, and a refusal further down leaves the tree there for good.

So both a crash (`crashSafe_iff_quiet`) and a refusal (`refusal_keeps_iff_quiet`) are harmless exactly
for insertions that split nothing below the root. That they are needs nothing of the tree but that
insertions grew it; that no others are is shown for trees in search-tree order.
-/

namespace KsSql

open PageProgram BPlusTree

variable {K V : Type} [LinearOrder K] [ByteLen K] [ByteLen V] {bs : BinarySearch K}

omit [LinearOrder K] [ByteLen K] [ByteLen V] in
/-- The page file only grows during a routine. -/
theorem fileLength_points {α : Type} (p : Program K V α) (t : BPlusTree K V) :
    ∀ s ∈ (pagerDevice K V).points p t, t.pager.fileLength ≤ s.pager.fileLength ∧
      s.pager.fileLength ≤ ((pagerDevice K V).run p t).2.pager.fileLength :=
  Device.points_between (fun s t ↦ s.pager.fileLength ≤ t.pager.fileLength)
    (fun _ ↦ le_rfl) (fun _ _ _ ↦ le_trans) (fun _ _ _ ↦ Pager.fileLength_le_writePage _ _ _)
    (fun _ _ _ _ h ↦ (pager_of_log h).symm ▸ le_rfl) (fun _ ↦ le_rfl) p t

/-- **Every point of an insertion that splits nothing below the root** has one of three page files:
the old tree, the tree under its new root, or that with the binding in one leaf. -/
theorem points_quiet {R : K → V → Prop} {t : BPlusTree K V} {k : K} {v : V} (ht : Sound R t)
    (hfits : ∀ q, (t.pager.pages q).Fits) (hquiet : t.QuietBelowRoot bs k)
    (hb : (t.insert bs k v).2.PagesBelow) :
    ∀ s ∈ (pagerDevice K V).points (insertProgram bs t.fuel k v) t,
      t.OldPages s.pager.pages ∨ s.pager.pages = t.descentPages ∨
        ∃ q, LeafPut k v t.descentPages s.pager.pages q := by
  obtain ⟨h, hroot⟩ := ht.root
  refine Device.points_of_writes (G := onPages (QuietWrite k v t)) (fun s s' hG hs ↦ ?_)
    (fun _ _ _ _ hlog hs ↦ (pager_of_log hlog).symm ▸ hs) (fun _ hs ↦ hs) _
    (Or.inl fun _ _ ↦ rfl) (gwp_insertProgram_quiet ht.sized hroot hfits hquiet hb).2
  rcases hG with ⟨-, -, hold | hnew⟩ | ⟨-, q, hput⟩ | hsame
  · exact Or.inl hold
  · exact Or.inr (Or.inl hnew)
  · exact Or.inr (Or.inr ⟨q, hput⟩)
  · exact hsame ▸ hs

/-- A key-value store of pages finds what the old one found, or the new value of the inserted key. -/
theorem lookupBelow_stage {R : K → V → Prop} {t : BPlusTree K V} {h : Nat} {k key : K} {v old : V}
    (ht : t.pager.Sized) (hroot : WellFormed R t.pager.pages h rootPageId)
    (hclean : t.RootSplitsCleanly) {P : Nat → Node K V}
    (hP : t.OldPages P ∨ P = t.descentPages ∨ ∃ q, LeafPut k v t.descentPages P q)
    (hold : lookupBelow bs key t.pager.pages h rootPageId = some old) :
    ∃ h' ≤ h + 1, WellFormed (fun _ _ ↦ True) P h' rootPageId ∧
      (lookupBelow bs key P h' rootPageId = some old ∨
        key = k ∧ lookupBelow bs key P h' rootPageId = some v) := by
  have hroot' : WellFormed (fun _ _ ↦ True) t.pager.pages h rootPageId :=
    hroot.mono fun _ _ _ ↦ trivial
  have hdescent := wellFormed_descent ht hroot'
  have hlookup := lookupBelow_descent bs key ht hroot' hclean
  have hheight := descentHeight_le t h
  rcases hP with hP | rfl | ⟨q, hput⟩
  · have hsame : ∀ q, (∃ h, WellFormed (fun _ _ ↦ True) t.pager.pages h q) →
        q = rootPageId ∨ q ≠ rootPageId → P q = t.pager.pages q :=
      fun q ⟨_, hq⟩ _ ↦ hP q (lt_pageCount_of_wellFormed ht hq)
    exact ⟨h, Nat.le_succ h, wellFormed_congr hroot' hsame,
      Or.inl ((lookupBelow_congr hroot' hsame).trans hold)⟩
  · exact ⟨_, hheight, hdescent, Or.inl (hlookup.trans hold)⟩
  · refine ⟨_, hheight, hput.preserves (fun _ _ ↦ trivial) _ _ hdescent, ?_⟩
    rw [← hlookup] at hold
    by_cases hkey : key = k
    · subst hkey
      exact (hput.lookupBelow_self hold).imp_right fun hv ↦ ⟨rfl, hv⟩
    · exact Or.inl ((hput.lookupBelow_of_ne hkey).trans hold)

/-- Search-tree order keeps the root's separators distinct. -/
theorem SearchTree.rootSplitsCleanly {t : BPlusTree K V} {h : Nat} (ht : SearchTree (· < ·) t h) :
    t.RootSplitsCleanly := by
  intro _ hint
  have hshape := ht.shape
  cases h with
  | zero => exact absurd (hint.symm.trans (Node.LeafShape.isLeaf hshape)) nofun
  | succ h => exact hshape.2.1

/-! ### A crash between two page writes -/

section Crash

variable (bs) (limit : Nat) (timestamp : Nat → Int) (t : BPlusTree K V) (k : K) (v : V)

/-- A process that stops at any point of the insertion and is started again on the page file finds
the old value of every key, or the new one of the inserted key. -/
def CrashSafe : Prop :=
  ∀ s ∈ (pagerDevice K V).points (insertProgram bs t.fuel k v) t, ∀ key old,
    t.get bs key = .ok (some old) →
    let t' := reopen timestamp [] s.pager (MemoryTier.new limit)
    t'.get bs key = .ok (some old) ∨ key = k ∧ t'.get bs key = .ok (some v)

variable {bs limit timestamp t k v}

omit [ByteLen K] [ByteLen V] in
/-- A page file that is not empty is opened as it is. -/
theorem reopen_nil {p : Pager K V} {tier : MemoryTier K V} (hpos : 0 < p.pageCount)
    (hlt : p.pageCount < 2 ^ 32) : reopen timestamp [] p tier = { pager := p, memoryTier := tier } := by
  have hnum : p.numPages ≠ 0 := by
    rw [Pager.numPages, ← Pager.pageCount, Nat.mod_eq_of_lt hlt]
    exact hpos.ne'
  rw [reopen]
  exact if_neg hnum

/-- **Insertions and crashes.** In a tree that insertions grew, a crash during an insertion that
splits no node below the root loses nothing, if the root, should it be split, has distinct
separators. In a tree in search-tree order no other insertion is as safe. -/
theorem crashSafe_iff_quiet (hb : (t.insert bs k v).2.pager.handedOut.length + 1 < 2 ^ 32) :
    (t.Grown bs (MemoryTier.new limit) (fun _ _ _ ↦ True) → t.RootSplitsCleanly →
      t.QuietBelowRoot bs k → CrashSafe bs limit timestamp t k v) ∧
    (t.Grown bs (MemoryTier.new limit) (InsertsInOrder bs) → t.InsertsInOrder bs k v →
      (CrashSafe bs limit timestamp t k v ↔ t.QuietBelowRoot bs k)) := by
  have hbelow : (t.insert bs k v).2.PagesBelow := Nat.lt_of_succ_lt hb
  have hbelow' : t.PagesBelow := guard_pagesBelow.run _ hbelow
  -- the tree that is opened after the crash
  have hreopen : t.Grown bs (MemoryTier.new limit) (fun _ _ _ ↦ True) →
      ∀ s ∈ (pagerDevice K V).points (insertProgram bs t.fuel k v) t,
        t.fuel ≤ s.fuel ∧ ∀ key,
          (reopen timestamp [] s.pager (MemoryTier.new limit)).get bs key = s.getPages bs key := by
    intro hgrown s hs
    obtain ⟨hle, hle'⟩ := fileLength_points _ t s hs
    have hsound := (hgrown.sound (R := fun _ _ ↦ True) (fun _ _ _ _ ↦ trivial) hbelow').1
    have hsized := (insert_sound bs hsound trivial hbelow).1.sized
    have hpos : 0 < s.pager.pageCount :=
      lt_of_lt_of_le hsound.sized.pos (Nat.div_le_div_right hle)
    have hlt : s.pager.pageCount < 2 ^ 32 :=
      lt_of_le_of_lt ((Nat.div_le_div_right hle').trans hsized.handed) hb
    refine ⟨Nat.succ_le_succ (Nat.div_le_div_right hle), fun key ↦ ?_⟩
    rw [reopen_nil hpos hlt, BPlusTree.get]
    have hpager : ({ pager := s.pager, memoryTier := MemoryTier.new limit } :
        BPlusTree K V).pager = s.pager := rfl
    exact getPages_congr bs hpager key
  have hget : ∀ {step : BPlusTree K V → K → V → Prop},
      t.Grown bs (MemoryTier.new limit) step → ∀ key, t.get bs key = t.getPages bs key := by
    intro step hgrown key
    rw [BPlusTree.get, hgrown.memoryTier_eq]
    rfl
  have hsafe : t.Grown bs (MemoryTier.new limit) (fun _ _ _ ↦ True) → t.RootSplitsCleanly →
      t.QuietBelowRoot bs k → CrashSafe bs limit timestamp t k v := by
    intro hgrown hclean hquiet s hs key old hold
    obtain ⟨hsound, hfits⟩ := hgrown.sound (R := fun _ _ ↦ True) (fun _ _ _ _ ↦ trivial) hbelow'
    obtain ⟨hfuel, hreopen⟩ := hreopen hgrown s hs
    obtain ⟨h, hroot⟩ := hsound.root
    rw [hget hgrown, getPages_eq_lookupBelow hsound.sized hroot] at hold
    obtain ⟨h', hh', hroot', hlookup⟩ := lookupBelow_stage hsound.sized hroot hclean
      (points_quiet hsound hfits hquiet hbelow s hs) (Except.ok.inj hold)
    have hheight : h + 1 < t.fuel := Nat.succ_lt_succ (hroot.height_lt hsound.sized.blank)
    have hread := run_getLoop_eq_lookupBelow bs key hroot'
      (lt_of_le_of_lt hh' (lt_of_lt_of_le hheight hfuel))
    dsimp only
    rw [hreopen key, getPages, hread]
    exact hlookup.imp (congrArg Except.ok) (And.imp_right (congrArg Except.ok))
  refine ⟨hsafe, fun hgrown hstep ↦ ⟨fun hcrash ↦ ?_, fun hquiet ↦ ?_⟩⟩
  · have hgrown' := hgrown.any
    by_contra hloud
    obtain ⟨s, hs, key, old, hkey, hold, hlost⟩ := exists_point_lost hgrown hstep hbelow hloud
    obtain ⟨hfuel, hreopen⟩ := hreopen hgrown' s hs
    rcases hcrash s hs key old ((hget hgrown key).trans hold) with h | ⟨h, -⟩
    · rw [hreopen key, getPages, hlost _ hfuel] at h
      cases h
    · exact hkey h
  · obtain ⟨h, htree, -⟩ := hgrown.anchored hbelow'
    exact hsafe (hgrown.any) htree.rootSplitsCleanly hquiet

end Crash

theorem eq_ok_of_isSome {E : Type} {r : Except E Unit} (h : r.toOption.isSome = true) :
    r = .ok () := by
  cases r with
  | error e => cases h
  | ok u => rfl

/-- Three insertions that leave a full leaf below the root. -/
def fullLeafBelowRoot : List (Bytes × Bytes) :=
  [([1], List.replicate 1500 0), ([9], List.replicate 1600 0), ([3], List.replicate 1600 0)]

/-- The tree of the three insertions, and whether an insertion into it splits nothing below the
root. -/
theorem exists_fullLeafBelowRoot : ∃ t, (openEmpty (MemoryTier.new 1024)).insertAll .std
    fullLeafBelowRoot = .ok t ∧ t.Grown .std (MemoryTier.new 1024) (InsertsInOrder .std) := by
  have hsplits : (openEmpty (MemoryTier.new 1024)).SplitsInRun .std NewSeparator
      fullLeafBelowRoot := by decide +kernel
  have hdone : ((openEmpty (MemoryTier.new 1024)).insertAll .std fullLeafBelowRoot).toOption.isSome =
      true := by decide +kernel
  rcases hrun : (openEmpty (MemoryTier.new 1024)).insertAll .std fullLeafBelowRoot with e | t
  · rw [hrun] at hdone
    cases hdone
  · exact ⟨t, rfl, .insertAll .empty hsplits hrun⟩

/-- Beside the full leaf an insertion is safe, into it it is not. -/
theorem crashSafe_iff_quiet_fullLeaf : ∃ t : BPlusTree Bytes Bytes,
    t.Grown .std (MemoryTier.new 1024) (InsertsInOrder .std) ∧
      CrashSafe .std 1024 (fun _ ↦ 0) t [9] [7] ∧ ¬ CrashSafe .std 1024 (fun _ ↦ 0) t [2] [7] := by
  have hfacts : ((openEmpty (MemoryTier.new 1024)).insertAll .std fullLeafBelowRoot).toOption.map
      (fun t ↦ decide ((t.insert .std [9] [7]).2.pager.handedOut.length + 1 < 2 ^ 32 ∧
        (t.insert .std [2] [7]).2.pager.handedOut.length + 1 < 2 ^ 32 ∧ t.RootSplitsCleanly ∧
        t.QuietBelowRoot .std [9] ∧ ¬ t.QuietBelowRoot .std [2] ∧
        t.SplitsBelowRoot .std (NewSeparator [2]) [2] ∧
        (t.insert .std [2] [7]).1.toOption.isSome)) = some true := by decide +kernel
  obtain ⟨t, hrun, hgrown⟩ := exists_fullLeafBelowRoot
  rw [hrun] at hfacts
  obtain ⟨hb, hb', hclean, hquiet, hloud, hroute, hdone⟩ :=
    of_decide_eq_true (Option.some.inj hfacts)
  refine ⟨t, hgrown, (crashSafe_iff_quiet hb).1 (hgrown.any) hclean hquiet,
    fun hsafe ↦ hloud
      (((crashSafe_iff_quiet hb').2 hgrown ⟨hroute, eq_ok_of_isSome hdone⟩).1 hsafe)⟩

/-- **A crash loses a key.** The insertion splits a leaf below the root; the process stops when the
lower half has been written over it and the node above it has not. -/
theorem not_crashSafe_split : ¬ ∀ (t : BPlusTree Bytes Bytes) (k v : Bytes),
    t.Grown .std (MemoryTier.new 1024) (InsertsInOrder .std) → (t.insert .std k v).1 = .ok () →
    CrashSafe .std 1024 (fun _ ↦ 0) t k v := by
  have hfacts : ((openEmpty (MemoryTier.new 1024)).insertAll .std fullLeafBelowRoot).toOption.map
      (fun t ↦ ((t.insert .std [2] [7]).1.toOption.isSome,
        (t.get .std [3]).toOption.map (Option.map List.length),
        ((pagerDevice Bytes Bytes).points (insertProgram .std t.fuel [2] [7]) t)[3]?.map fun s ↦
          ((reopen (fun _ ↦ 0) [] s.pager (MemoryTier.new 1024)).get .std [3]).toOption.map
            (Option.map List.length))) = some (true, some (some 1600), some (some none)) := by
    decide +kernel
  intro hclaim
  obtain ⟨t, hrun, hgrown⟩ := exists_fullLeafBelowRoot
  rw [hrun] at hfacts
  obtain ⟨hdone, hfacts⟩ := Prod.mk.inj (Option.some.inj hfacts)
  obtain ⟨hold, hlost⟩ := Prod.mk.inj hfacts
  obtain ⟨s, hs, hnone⟩ := Option.map_eq_some_iff.1 hlost
  obtain ⟨o, hget, hlen⟩ := Option.map_eq_some_iff.1 hold
  obtain ⟨old, rfl, -⟩ := Option.map_eq_some_iff.1 hlen
  have hold : t.get .std [3] = .ok (some old) := by
    rcases h : t.get .std [3] with e | o
    · rw [h] at hget
      cases hget
    · rw [h] at hget
      exact congrArg Except.ok (Option.some.inj hget)
  rcases hclaim t [2] [7] hgrown (eq_ok_of_isSome hdone) s (List.mem_of_getElem? hs) [3] old hold with
    h | ⟨h, -⟩
  · rw [h] at hnone
    cases hnone
  · exact absurd h (by decide)

/-! ### A node that does not fit -/

section Refusal

variable {limit : Nat} {t : BPlusTree K V} {k : K} {v : V}

/-- **Insertions that are refused** because a node does not fit its page. In a tree that insertions
grew, nothing changes for lookups if the descent met no full node and the root, should it have been
split, had distinct separators. In a tree in search-tree order a key is gone otherwise. -/
theorem refusal_keeps_iff_quiet (hrefused : (t.insert bs k v).1 = .error .nodeTooLarge)
    (hb : (t.insert bs k v).2.pager.handedOut.length < 2 ^ 32) :
    (t.Grown bs (MemoryTier.new limit) (fun _ _ _ ↦ True) → t.RootSplitsCleanly →
      t.QuietBelowRoot bs k → ∀ key, (t.insert bs k v).2.get bs key = t.get bs key) ∧
    (t.Grown bs (MemoryTier.new limit) (InsertsInOrder bs) →
      t.SplitsBelowRoot bs (NewSeparator k) k →
      ((∀ key, (t.insert bs k v).2.get bs key = t.get bs key) ↔ t.QuietBelowRoot bs k)) := by
  have hbelow : t.PagesBelow := guard_pagesBelow.run _ hb
  have hkeeps : t.Grown bs (MemoryTier.new limit) (fun _ _ _ ↦ True) → t.RootSplitsCleanly →
      t.QuietBelowRoot bs k → ∀ key, (t.insert bs k v).2.get bs key = t.get bs key := by
    intro hgrown hclean hquiet key
    obtain ⟨hsound, hfits⟩ := hgrown.sound (R := fun _ _ ↦ True) (fun _ _ _ _ ↦ trivial) hbelow
    obtain ⟨h, hroot⟩ := hsound.root
    have hout := (gwp_insertProgram_quiet (v := v) hsound.sized hroot hfits hquiet hb).1
    have hrun : (pagerDevice K V).run (insertProgram bs t.fuel k v) t =
        (.error .nodeTooLarge, (t.insert bs k v).2) := Prod.ext hrefused rfl
    rw [hrun] at hout
    obtain ⟨hsized, -, hpages⟩ := hout
    have hpages := hpages rfl
    have hlookup : (t.insert bs k v).2.getPages bs key = t.getPages bs key := by
      rw [getPages_eq_lookupBelow hsized (hpages ▸ wellFormed_descent hsound.sized hroot),
        hpages, lookupBelow_descent _ _ hsound.sized hroot hclean,
        getPages_eq_lookupBelow hsound.sized hroot]
    rw [BPlusTree.get, BPlusTree.get, (insert_frame bs t k v).memoryTier, hlookup]
  refine ⟨hkeeps, fun hgrown hroute ↦ ⟨fun hsame ↦ ?_, fun hquiet ↦ ?_⟩⟩
  · obtain ⟨h, htree, ha⟩ := hgrown.anchored hbelow
    obtain ⟨-, hfits⟩ := hgrown.any.sound
      (R := fun _ _ ↦ True) (fun _ _ _ _ ↦ trivial) hbelow
    rcases exists_descent bs htree.sized (htree.wellFormed htree.leafOk) hfits hb with
      herr | ⟨t₁, ht₁, hpages₁, hcount₁, hrun, -, -⟩
    · rw [hrefused] at herr
      cases herr
    · obtain ⟨htree₁, hbindings₁, ha₁⟩ := searchTree_descent htree ha ht₁ hpages₁
      have hroute₁ := onRoute_descent htree hroute
      have hfits₁ := fits_descent (htree.wellFormed htree.leafOk) hfits
      rw [← hpages₁] at hroute₁ hfits₁
      have hrun' : (pagerDevice K V).run
          (insertNonFull bs t.fuel rootPageId (t₁.pager.pages rootPageId) k v) t₁ =
          (.error .nodeTooLarge, (t.insert bs k v).2) := hrun.trans (Prod.ext hrefused rfl)
      have hleft := Device.outcome_of_wp (wp_insertNonFull_leftBehind ht₁ htree₁.shape
        htree₁.nodup htree₁.ordered hroute₁ ha₁ hfits₁) hrun' hb
      rcases hleft.lost rfl with hquiet | hlost
      · rwa [QuietBelowRoot, ← hpages₁]
      · have hfuel : t₁.fuel ≤ (t.insert bs k v).2.fuel := Nat.succ_le_succ hleft.count_le
        obtain ⟨key, old, -, hold, hlookup⟩ := exists_lookup_lost bs htree₁ hleft.shape
          hleft.shrinks hlost
        have hnone := congrArg Prod.fst (hlookup _ (lt_of_lt_of_le htree₁.height_lt_fuel hfuel))
        have hsame := hsame key
        rw [BPlusTree.get, BPlusTree.get, (insert_frame bs t k v).memoryTier,
          hgrown.memoryTier_eq] at hsame
        change (t.insert bs k v).2.getPages bs key = t.getPages bs key at hsame
        rw [getPages, hnone, getPages_eq_lookup bs htree, ← hbindings₁, hold] at hsame
        cases hsame
  · obtain ⟨h, htree, -⟩ := hgrown.anchored hbelow
    exact hkeeps (hgrown.any) htree.rootSplitsCleanly hquiet

end Refusal

/-- A value that fits no page is refused beside the full leaf without harm, and in it with. -/
theorem refusal_keeps_iff_quiet_fullLeaf : ∃ t : BPlusTree Bytes Bytes,
    t.Grown .std (MemoryTier.new 1024) (InsertsInOrder .std) ∧
      (∀ key, (t.insert .std [9] (List.replicate 5000 0)).2.get .std key = t.get .std key) ∧
      ¬ ∀ key, (t.insert .std [2] (List.replicate 5000 0)).2.get .std key = t.get .std key := by
  have hfacts : ((openEmpty (MemoryTier.new 1024)).insertAll .std fullLeafBelowRoot).toOption.map
      (fun t ↦ decide ((t.insert .std [9] (List.replicate 5000 0)).1 = .error .nodeTooLarge ∧
        (t.insert .std [2] (List.replicate 5000 0)).1 = .error .nodeTooLarge ∧
        (t.insert .std [9] (List.replicate 5000 0)).2.pager.handedOut.length < 2 ^ 32 ∧
        (t.insert .std [2] (List.replicate 5000 0)).2.pager.handedOut.length < 2 ^ 32 ∧
        t.RootSplitsCleanly ∧ t.QuietBelowRoot .std [9] ∧ ¬ t.QuietBelowRoot .std [2] ∧
        t.SplitsBelowRoot .std (NewSeparator [2]) [2])) = some true := by decide +kernel
  obtain ⟨t, hrun, hgrown⟩ := exists_fullLeafBelowRoot
  rw [hrun] at hfacts
  obtain ⟨hrefused, hrefused', hb, hb', hclean, hquiet, hloud, hroute⟩ :=
    of_decide_eq_true (Option.some.inj hfacts)
  exact ⟨t, hgrown, (refusal_keeps_iff_quiet hrefused hb).1 (hgrown.any)
    hclean hquiet, fun hsame ↦ hloud (((refusal_keeps_iff_quiet hrefused' hb').2 hgrown hroute).1
      hsame)⟩

/-- **A refused insertion loses a key.** The leaf that is to get the binding is split on the way, the
binding does not fit into either half, and the node above never learns of the new leaf. -/
theorem not_refusal_keeps_split : ¬ ∀ (t : BPlusTree Bytes Bytes) (k v : Bytes),
    t.Grown .std (MemoryTier.new 1024) (InsertsInOrder .std) →
    (t.insert .std k v).1 = .error .nodeTooLarge →
    ∀ key, (t.insert .std k v).2.get .std key = t.get .std key := by
  have hfacts : ((openEmpty (MemoryTier.new 1024)).insertAll .std fullLeafBelowRoot).toOption.map
      (fun t ↦ (decide ((t.insert .std [2] (List.replicate 5000 0)).1 = .error .nodeTooLarge),
        (t.get .std [3]).toOption.map (Option.map List.length),
        ((t.insert .std [2] (List.replicate 5000 0)).2.get .std [3]).toOption.map
          (Option.map List.length))) = some (true, some (some 1600), some none) := by
    decide +kernel
  intro hclaim
  obtain ⟨t, hrun, hgrown⟩ := exists_fullLeafBelowRoot
  rw [hrun] at hfacts
  obtain ⟨hrefused, hfacts⟩ := Prod.mk.inj (Option.some.inj hfacts)
  obtain ⟨hold, hlost⟩ := Prod.mk.inj hfacts
  rw [hclaim t [2] _ hgrown (of_decide_eq_true hrefused) [3], hold] at hlost
  cases hlost

end KsSql
