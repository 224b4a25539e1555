import KsSql.Parser.Dispatch
import KsSql.Parser.PlainRuntime
import KsSql.Parser.Scans
import KsSql.Storage.Frame
import KsSql.Storage.PageFile
import KsSql.Util.Trail

/-!
# Walks over any page file

`hotswap_handler` puts any bytes in the place of the page file. What reads pages then follows pointers
that nobody has checked: `BPlusTree::get` goes down to the child of its key, `scan_table_with_filter`
down the first children and then along the leaves, and `universal_search` does both in one loop. Here
these loops run on the bytes of the file, where a page may be missing, damaged or no node at all
(`PageFile.run`).

Each of them follows a route, given by where a page leads to (`childOf`, `firstChild`, `nextLeaf`,
`searchNext`). The guard of the scan against a leaf that links to itself is part of the route. Since only
the pages inside the file lead anywhere, the walks all come to an end exactly when no route comes back to
a page that it has visited (`walksFinish_iff`). A page file of one page, which is its own child, is
accepted and keeps them going forever (`not_walksFinish`).
-/

namespace KsSql

open PageProgram BPlusTree Trail Relation

/-- What a walk over the bytes of a page file can fail with. -/
inductive WalkError
  /-- `read_page` fails. -/
  | page (e : PageError)
  /-- `Node::from_bytes` fails. -/
  | notANode
  | storage (e : StorageError)
  | engine (e : EngineError)
  deriving DecidableEq

namespace WalkError

/-- The steps ran out. -/
abbrev diverged : WalkError := .storage .diverged

end WalkError

/-- A walk with a number of page reads to make comes to an end, given enough of them. -/
def Finishes {γ : Type} (walk : Nat → Except WalkError γ) : Prop :=
  ∃ reads, walk reads ≠ .error .diverged

namespace PageFile

variable (f : PageFile) {α β γ ε : Type}

/-- `Node::from_bytes(&pager.read_page(page_id).await?)?` -/
def readNode (pageId : Nat) : Except WalkError (Node Bytes Bytes) :=
  match f.readPage pageId with
  | .error e => .error (.page e)
  | .ok page => match NodeCodec.fromBytes page with
    | none => .error .notANode
    | some node => .ok node

/-- A routine that reads pages, on the bytes of the file. -/
def run : (p : Program Bytes Bytes α) → p.ReadOnly → Except WalkError α
  | .done a, _ => .ok a
  | .fail e, _ => .error (.storage e)
  | .read pageId next, h => match f.readNode pageId with
    | .error e => .error e
    | .ok node => run (next node) (h node)
  | .write _ _ _, h => h.elim
  | .log _ _ _, h => h.elim
  | .numPages _, h => h.elim

/-- `BPlusTree::get` -/
def get (bs : BinarySearch Bytes) (tier : MemoryTier Bytes Bytes) (key : Bytes) (reads : Nat) :
    Except WalkError (Option Bytes) :=
  match tier.get key with
  | some value => .ok (some value)
  | none => f.run (getLoop bs key reads rootPageId) (readOnly_getLoop bs key reads rootPageId)

/-- The leftmost descent and the leaf walk of `scan_table_with_filter`. -/
def scanLeaves (visit : β → Nat → Node Bytes Bytes → Except ε β) (acc : β) (reads : Nat) :
    Except WalkError (Except ε β) := do
  let leaf ← f.run (leftmostLeaf reads rootPageId) (readOnly_leftmostLeaf reads rootPageId)
  f.run (walkLeaves visit reads leaf acc) (readOnly_walkLeaves visit reads leaf acc)

/-- `scan_table_with_filter` without a filter. A stored byte string is taken as it stands. -/
def scanTable (front : Frontend) (rt : Runtime) (e : Engine) (tableName : Bytes)
    (version reads : Nat) : Except WalkError (List Row) :=
  match LossyScan.tier front.fromUtf8Lossy rt tableName version e with
  | .error err => .error (.engine err)
  | .ok acc =>
    match f.scanLeaves (fun acc _ node ↦ LossyScan.leaf front.fromUtf8Lossy rt tableName version
      node.keys (node.values.map .raw) acc) acc reads with
    | .error err => .error err
    | .ok (.error err) => .error (.engine err)
    | .ok (.ok acc) => .ok acc.rows

/-- The loop of `universal_search`. A page that cannot be read ends it, and one that is not a node makes
it fail. -/
def searchLoop (visit : β → Node Bytes Bytes → Except ε β) :
    Nat → Nat → β → Except WalkError (Except ε β)
  | 0, _, _ => .error .diverged
  | reads + 1, pageId, acc =>
    match f.readPage pageId with
    | .error _ => .ok (.ok acc)
    | .ok page => match NodeCodec.fromBytes page with
      | none => .error .notANode
      | some node => match node.nodeType with
        | .leaf => match visit acc node with
          | .error e => .ok (.error e)
          | .ok acc => match node.nextLeaf with
            | none => .ok (.ok acc)
            | some next => searchLoop visit reads next acc
        | .internal => match node.children with
          | [] => .ok (.ok acc)
          | child :: _ => searchLoop visit reads child acc

/-- `Engine::universal_search` -/
def universalSearch (front : Frontend) (rt : Runtime) (query : Text) (reads : Nat) :
    Except WalkError Bytes :=
  match f.searchLoop (fun results node ↦
    front.searchLeaf rt query node.keys (node.values.map .raw) results) reads rootPageId
      [Frontend.searchHeading query, List.replicate 40 45] with
  | .error err => .error err
  | .ok (.error err) => .error (.engine err)
  | .ok (.ok results) => .ok (joinLines results)

/-- Every lookup, every scan of a table and every search comes to an end, whatever the memory tier
holds. -/
structure WalksFinish (front : Frontend) (rt : Runtime) : Prop where
  get : ∀ tier key, Finishes (f.get rt.search tier key)
  scanTable : ∀ e tableName version, Finishes (f.scanTable front rt e tableName version)
  universalSearch : ∀ query, Finishes (f.universalSearch front rt query)

/-- On a file that holds the pages of a tree, a routine that reads pages does what it does on the
tree. -/
theorem run_of_represents {f : PageFile} {t : BPlusTree Bytes Bytes} (hf : f.Represents t.pager) :
    ∀ (p : Program Bytes Bytes α) (h : p.ReadOnly),
      f.run p h = ((pagerDevice Bytes Bytes).run p t).1.mapError .storage
  | .done _, _ => rfl
  | .fail _, _ => rfl
  | .read pageId next, h => by
    obtain ⟨page, hpage, hnode⟩ := hf.pages pageId
    have hread : f.readNode pageId = .ok (t.pager.pages pageId) := by
      simp only [readNode, hpage, hnode]
    simp only [run, hread]
    exact run_of_represents hf (next (t.pager.pages pageId)) (h _)
  | .write _ _ _, h => h.elim
  | .log _ _ _, h => h.elim
  | .numPages _, h => h.elim

/-! ### Where a page leads to -/

/-- The page after `pageId` in a lookup. -/
def childOf (bs : BinarySearch Bytes) (key : Bytes) (pageId : Nat) : Option Nat :=
  match f.readNode pageId with
  | .ok node => match node.nodeType with
    | .leaf => none
    | .internal => node.children[childIndex bs node key]?
  | .error _ => none

/-- The page after `pageId` in the descent of a scan. -/
def firstChild (pageId : Nat) : Option Nat :=
  match f.readNode pageId with
  | .ok node => match node.nodeType with
    | .leaf => none
    | .internal => node.children.head?
  | .error _ => none

/-- The page after `pageId` in the leaf walk of a scan, which does not follow a link of a page to
itself. -/
def nextLeaf (pageId : Nat) : Option Nat :=
  match f.readNode pageId with
  | .ok node => node.nextLeaf.filter (· ≠ pageId)
  | .error _ => none

/-- Every entry that a search looks at has a value, which decodes as a record. -/
def searchable (front : Frontend) (rt : Runtime) : List Bytes → List Data → Bool
  | [], _ => true
  | key :: keys, values =>
    if (bytes "__").isPrefixOf (front.fromUtf8Lossy key) then searchable front rt keys values.tail
    else
      match values with
      | [] => false
      | data :: values => (rt.decodeRecord data).isOk && searchable front rt keys values

/-- The page after `pageId` in a search. -/
def searchNext (front : Frontend) (rt : Runtime) (pageId : Nat) : Option Nat :=
  match f.readNode pageId with
  | .ok node => match node.nodeType with
    | .leaf => if searchable front rt node.keys (node.values.map .raw) then node.nextLeaf else none
    | .internal => node.children.head?
  | .error _ => none

/-- No walk comes back to a page that it has visited: no lookup, not the descent of a scan nor the walk
along the leaves that follows it, and no search. -/
structure NoReturn (front : Frontend) (rt : Runtime) : Prop where
  lookup : ∀ key, ¬ Returns (f.childOf rt.search key) rootPageId
  descent : ¬ Returns f.firstChild rootPageId
  leaves : ∀ leaf, ReflTransGen (Leads f.firstChild) rootPageId leaf → f.firstChild leaf = none →
    ¬ Returns f.nextLeaf leaf
  search : ¬ Returns (f.searchNext front rt) rootPageId

/-! ### Only pages inside the file lead on -/

variable {f}

/-- Behind the end of the file every page is a blank one. -/
theorem readNode_of_beyond {pageId : Nat} (h : f.file.length ≤ pageId * pageSize) :
    f.readNode pageId = .ok .newInternal := by
  have hblock : f.readBlock pageId = .ok .blank := by
    simp only [readBlock, List.drop_eq_nil_of_le h, List.take_nil]
    rfl
  have hchecksum : ofLe (Page.blank.1.take 4) = 0 := by decide +kernel
  have hpage : f.readPage pageId = .ok .blank := by
    rw [readPage, hblock, Except.ok_bind]
    exact if_neg fun h ↦ h.1 hchecksum
  simp only [readNode, hpage, NodeCodec.fromBytes_blank]

/-- So a way of going on that goes nowhere from a blank page has finitely many places that lead on. -/
theorem finite_isSome {next : Nat → Option Nat}
    (h : ∀ p, f.readNode p = .ok .newInternal → next p = none) : {p | (next p).isSome}.Finite := by
  refine (Set.finite_lt_nat (f.file.length + 1)).subset fun p hp ↦ ?_
  by_contra hlt
  have hbeyond : f.file.length ≤ p * pageSize := by
    have := Nat.le_mul_of_pos_right p (show 0 < pageSize by decide)
    have : f.file.length + 1 ≤ p := Nat.not_lt.1 hlt
    omega
  rw [Set.mem_ofPred_eq, h p (readNode_of_beyond hbeyond)] at hp
  cases hp

/-- What is made of the keys on the pages of a file is of bounded length. -/
theorem exists_keyBound (f : PageFile) (lossy : Bytes → Bytes) :
    ∃ bound, ∀ p node, f.readNode p = .ok node → ∀ key ∈ node.keys, (lossy key).length < bound := by
  have hpages : ∀ n, ∃ bound, ∀ p < n, ∀ node, f.readNode p = .ok node →
      ∀ key ∈ node.keys, (lossy key).length < bound := by
    intro n
    induction n with
    | zero => exact ⟨0, fun p hp ↦ absurd hp (Nat.not_lt_zero p)⟩
    | succ n ih =>
      obtain ⟨bound, hbound⟩ := ih
      have hpage : ∃ b, ∀ node, f.readNode n = .ok node →
          ∀ key ∈ node.keys, (lossy key).length < b := by
        rcases f.readNode n with e | node
        · exact ⟨0, fun _ h ↦ nomatch h⟩
        · refine ⟨(node.keys.map lossy).flatten.length + 1, fun _ h key hkey ↦ ?_⟩
          obtain rfl := Except.ok.inj h
          exact Nat.lt_succ_of_le
            (List.sublist_flatten_of_mem (List.mem_map_of_mem hkey)).length_le
      obtain ⟨b, hb⟩ := hpage
      refine ⟨max bound b, fun p hp node hnode key hkey ↦ ?_⟩
      rcases Nat.lt_succ_iff_lt_or_eq.1 hp with hp | rfl
      · exact lt_max_of_lt_left (hbound p hp node hnode key hkey)
      · exact lt_max_of_lt_right (hb node hnode key hkey)
  obtain ⟨bound, hbound⟩ := hpages (f.file.length + 1)
  refine ⟨bound, fun p node hnode key hkey ↦ ?_⟩
  rcases Nat.lt_or_ge p (f.file.length + 1) with hp | hp
  · exact hbound p hp node hnode key hkey
  · have hbeyond : f.file.length ≤ p * pageSize := by
      have := Nat.le_mul_of_pos_right p (show 0 < pageSize by decide)
      omega
    obtain rfl := Except.ok.inj (hnode.symm.trans (readNode_of_beyond hbeyond))
    cases hkey

/-! ### The loops as loops along routes -/

/-- What the steps of a loop come to. -/
def outcome (result : Option (Except WalkError γ)) : Except WalkError γ :=
  result.getD (.error .diverged)

/-- A loop along a route that ends comes to an end. -/
theorem finishes_of_ends {σ : Type} {step : σ → Except WalkError γ ⊕ σ} {next : Nat → Option Nat}
    {w : σ → Nat}
    (hstep : ∀ s, (∃ result, step s = .inl result ∧ result ≠ .error .diverged) ∨
      ∃ s', step s = .inr s' ∧ next (w s) = some (w s')) {s : σ} (h : Ends next (w s)) :
    Finishes fun reads ↦ outcome (loop step reads s) := by
  have hleads : ∀ s s', step s = .inr s' → Leads next (w s) (w s') := by
    intro s s' hs
    rcases hstep s with ⟨_, hresult, -⟩ | ⟨_, hnext, hleads⟩
    · exact nomatch hresult.symm.trans hs
    · exact Sum.inr.inj (hnext.symm.trans hs) ▸ hleads
  obtain ⟨reads, hreads⟩ := exists_loop_of_ends hleads h s rfl
  obtain ⟨result, hloop⟩ := Option.isSome_iff_exists.1 hreads
  obtain ⟨s', -, hlast⟩ := exists_last_of_loop hleads hloop
  refine ⟨reads, fun hdiverged ↦ ?_⟩
  rcases hstep s' with ⟨_, hresult, hne⟩ | ⟨_, hnext, -⟩
  · obtain rfl := Sum.inl.inj (hresult.symm.trans hlast)
    exact hne ((congrArg outcome hloop).symm.trans hdiverged)
  · exact nomatch hnext.symm.trans hlast

/-- A loop that has come to an end has a result. -/
theorem isSome_of_ne_diverged {result : Option (Except WalkError γ)}
    (h : outcome result ≠ .error .diverged) : result.isSome := by
  cases result with
  | none => exact absurd rfl h
  | some _ => rfl

/-- A loop that stops only where its route does comes to an end exactly if the route ends. -/
theorem finishes_iff_ends {σ : Type} {step : σ → Except WalkError γ ⊕ σ} {next : Nat → Option Nat}
    {w : σ → Nat}
    (hstep : ∀ s,
      (∃ result, step s = .inl result ∧ result ≠ .error .diverged ∧ next (w s) = none) ∨
        ∃ s', step s = .inr s' ∧ next (w s) = some (w s')) {s : σ} :
    Finishes (fun reads ↦ outcome (loop step reads s)) ↔ Ends next (w s) := by
  refine ⟨fun ⟨reads, h⟩ ↦ ends_of_loop ?_ ?_ (isSome_of_ne_diverged h),
    finishes_of_ends fun s ↦ (hstep s).imp_left fun ⟨result, hs, hne, _⟩ ↦ ⟨result, hs, hne⟩⟩
  · intro s s' hs
    rcases hstep s with ⟨_, hresult, -⟩ | ⟨_, hnext, hleads⟩
    · exact nomatch hresult.symm.trans hs
    · exact Sum.inr.inj (hnext.symm.trans hs) ▸ hleads
  · intro s result hs
    rcases hstep s with ⟨_, -, -, hend⟩ | ⟨_, hnext, -⟩
    · exact hend
    · exact nomatch hnext.symm.trans hs

variable (f)

/-- A step of a lookup. -/
def getStep (bs : BinarySearch Bytes) (key : Bytes) (pageId : Nat) :
    Except WalkError (Option Bytes) ⊕ Nat :=
  match f.readNode pageId with
  | .error e => .inl (.error e)
  | .ok node => match node.nodeType with
    | .leaf => match bs.search node.keys key with
      | .ok idx => match node.values[idx]? with
        | some value => .inl (.ok (some value))
        | none => .inl (.error (.storage .panicked))
      | .error _ => .inl (.ok none)
    | .internal => match node.children[childIndex bs node key]? with
      | some child => .inr child
      | none => .inl (.error (.storage .panicked))

theorem run_read {pageId : Nat} {next : Node Bytes Bytes → Program Bytes Bytes α}
    {h : (PageProgram.read pageId next).ReadOnly} :
    f.run (.read pageId next) h = match f.readNode pageId with
      | .error e => .error e
      | .ok node => f.run (next node) (h node) := by rw [run]

theorem run_getLoop (bs : BinarySearch Bytes) (key : Bytes) : ∀ reads pageId : Nat,
    f.run (getLoop bs key reads pageId) (readOnly_getLoop bs key reads pageId) =
      outcome (loop (f.getStep bs key) reads pageId)
  | 0, _ => rfl
  | reads + 1, pageId => by
    simp only [getLoop_succ, run_read, loop, getStep]
    rcases f.readNode pageId with e | node
    · rfl
    rcases hkind : node.nodeType
    · rcases hchild : node.children[childIndex bs node key]? with - | child
      · simp only [getNode, hkind, hchild]
        rfl
      · simp only [getNode, hkind, hchild]
        exact run_getLoop bs key reads child
    · rcases hsearch : bs.search node.keys key with i | i
      · simp only [getNode, hkind, hsearch]
        rfl
      · rcases hvalue : node.values[i]? with - | value
        · simp only [getNode, hkind, hsearch, hvalue]
          rfl
        · simp only [getNode, hkind, hsearch, hvalue]
          rfl

/-- A step of the descent of a scan. -/
def descendStep (pageId : Nat) : Except WalkError Nat ⊕ Nat :=
  match f.readNode pageId with
  | .error e => .inl (.error e)
  | .ok node => match node.nodeType, node.children with
    | .leaf, _ => .inl (.ok pageId)
    | .internal, [] => .inl (.ok pageId)
    | .internal, child :: _ => .inr child

theorem run_leftmostLeaf : ∀ reads pageId : Nat,
    f.run (leftmostLeaf reads pageId) (readOnly_leftmostLeaf reads pageId) =
      outcome (loop f.descendStep reads pageId)
  | 0, _ => rfl
  | reads + 1, pageId => by
    have hread : (leftmostLeaf (reads + 1) pageId : Program Bytes Bytes Nat) =
      .read pageId fun node ↦ match node.nodeType, node.children with
        | .leaf, _ => pure pageId
        | .internal, [] => pure pageId
        | .internal, child :: _ => leftmostLeaf reads child := rfl
    simp only [hread, run_read, loop, descendStep]
    rcases f.readNode pageId with e | node
    · rfl
    rcases hkind : node.nodeType
    · rcases hchildren : node.children with - | ⟨child, children⟩
      · simp only [hkind, hchildren]
        rfl
      · simp only [hkind, hchildren]
        exact run_leftmostLeaf reads child
    · simp only [hkind]
      rfl

/-- A step of the leaf walk of a scan. -/
def walkStep (visit : β → Nat → Node Bytes Bytes → Except ε β) (s : Nat × β) :
    Except WalkError (Except ε β) ⊕ Nat × β :=
  match f.readNode s.1 with
  | .error e => .inl (.error e)
  | .ok node => match visit s.2 s.1 node with
    | .error e => .inl (.ok (.error e))
    | .ok acc => match node.nextLeaf with
      | none => .inl (.ok (.ok acc))
      | some next => if next = s.1 then .inl (.ok (.ok acc)) else .inr (next, acc)

theorem run_walkLeaves (visit : β → Nat → Node Bytes Bytes → Except ε β) :
    ∀ (reads pageId : Nat) (acc : β),
      f.run (walkLeaves visit reads pageId acc) (readOnly_walkLeaves visit reads pageId acc) =
        outcome (loop (f.walkStep visit) reads (pageId, acc))
  | 0, _, _ => rfl
  | reads + 1, pageId, acc => by
    have hread : (walkLeaves visit (reads + 1) pageId acc : Program Bytes Bytes (Except ε β)) =
      .read pageId fun node ↦ match visit acc pageId node with
        | .error e => pure (.error e)
        | .ok acc => match node.nextLeaf with
          | none => pure (.ok acc)
          | some next =>
            if next = pageId then pure (.ok acc) else walkLeaves visit reads next acc := by
      refine congrArg (PageProgram.read pageId) (funext fun node ↦ ?_)
      rw [PageProgram.bind]
      rcases visit acc pageId node with e | acc'
      · rfl
      · rcases node.nextLeaf <;> rfl
    simp only [hread, run_read, loop, walkStep]
    rcases f.readNode pageId with e | node
    · rfl
    rcases hvisit : visit acc pageId node with e | acc'
    · simp only [hvisit]
      rfl
    rcases hnext : node.nextLeaf with - | next
    · simp only [hvisit, hnext]
      rfl
    · by_cases hself : next = pageId
      · simp only [hvisit, hnext, if_pos hself]
        rfl
      · simp only [hvisit, hnext, if_neg hself]
        exact run_walkLeaves visit reads next acc'

/-- A step of a search. -/
def searchStep (visit : β → Node Bytes Bytes → Except ε β) (s : Nat × β) :
    Except WalkError (Except ε β) ⊕ Nat × β :=
  match f.readPage s.1 with
  | .error _ => .inl (.ok (.ok s.2))
  | .ok page => match NodeCodec.fromBytes page with
    | none => .inl (.error .notANode)
    | some node => match node.nodeType with
      | .leaf => match visit s.2 node with
        | .error e => .inl (.ok (.error e))
        | .ok acc => match node.nextLeaf with
          | none => .inl (.ok (.ok acc))
          | some next => .inr (next, acc)
      | .internal => match node.children with
        | [] => .inl (.ok (.ok s.2))
        | child :: _ => .inr (child, s.2)

theorem searchLoop_eq (visit : β → Node Bytes Bytes → Except ε β) :
    ∀ (reads pageId : Nat) (acc : β),
      f.searchLoop visit reads pageId acc = outcome (loop (f.searchStep visit) reads (pageId, acc))
  | 0, _, _ => rfl
  | reads + 1, pageId, acc => by
    simp only [searchLoop, loop, searchStep]
    rcases f.readPage pageId with e | page
    · rfl
    rcases hnode : NodeCodec.fromBytes page with - | node
    · simp only [hnode]
      rfl
    rcases hkind : node.nodeType
    · rcases hchildren : node.children with - | ⟨child, children⟩
      · simp only [hnode, hkind, hchildren]
        rfl
      · simp only [hnode, hkind, hchildren]
        exact searchLoop_eq visit reads child acc
    · rcases hvisit : visit acc node with e | acc'
      · simp only [hnode, hkind, hvisit]
        rfl
      rcases hnext : node.nextLeaf with - | next
      · simp only [hnode, hkind, hvisit, hnext]
        rfl
      · simp only [hnode, hkind, hvisit, hnext]
        exact searchLoop_eq visit reads next acc'

/-! ### Lookups -/

variable {f} {bs : BinarySearch Bytes} {key : Bytes} {tier : MemoryTier Bytes Bytes}

/-- Reading a node is no walk. -/
theorem readNode_ne_diverged {pageId : Nat} : f.readNode pageId ≠ .error .diverged := by
  unfold readNode
  split
  · exact fun h ↦ nomatch h
  · split <;> exact fun h ↦ nomatch h

/-- A lookup goes on along its route, or stops where the route does. -/
theorem getStep_cases (p : Nat) :
    (∃ result, f.getStep bs key p = .inl result ∧ result ≠ .error .diverged ∧
      f.childOf bs key p = none) ∨
    ∃ q, f.getStep bs key p = .inr q ∧ f.childOf bs key p = some q := by
  unfold getStep childOf
  rcases hread : f.readNode p with e | node
  · exact .inl ⟨_, rfl, fun h ↦ readNode_ne_diverged (hread.trans (congrArg _ (Except.error.inj h))),
      rfl⟩
  rcases hkind : node.nodeType
  · rcases hchild : node.children[childIndex bs node key]? with - | child
    · simp only [hkind, hchild]
      exact .inl ⟨_, rfl, fun h ↦ (nomatch h), trivial⟩
    · simp only [hkind, hchild]
      exact .inr ⟨child, rfl, rfl⟩
  · rcases hsearch : bs.search node.keys key with i | i
    · simp only [hkind, hsearch]
      exact .inl ⟨_, rfl, fun h ↦ (nomatch h), trivial⟩
    · rcases hvalue : node.values[i]? with - | value
      · simp only [hkind, hsearch, hvalue]
        exact .inl ⟨_, rfl, fun h ↦ (nomatch h), trivial⟩
      · simp only [hkind, hsearch, hvalue]
        exact .inl ⟨_, rfl, fun h ↦ (nomatch h), trivial⟩

/-- A lookup comes to an end if the memory tier has the key or its route through the pages ends. -/
theorem finishes_get_iff : Finishes (f.get bs tier key) ↔
    (tier.get key).isSome ∨ Ends (f.childOf bs key) rootPageId := by
  rcases htier : tier.get key with - | value
  · have hget : f.get bs tier key = fun reads ↦ outcome (loop (f.getStep bs key) reads rootPageId) := by
      funext reads
      simp only [get, htier, run_getLoop]
    rw [hget, finishes_iff_ends (w := id) getStep_cases]
    exact (or_iff_right Bool.false_ne_true).symm
  · refine iff_of_true ⟨0, ?_⟩ (.inl rfl)
    simp only [get, htier]
    rintro ⟨⟩

/-! ### Scans -/

/-- The descent of a scan goes on along its route, or stops where the route does, which is at the page
that it ends with if that is a node. -/
theorem descendStep_cases (p : Nat) :
    (∃ result, f.descendStep p = .inl result ∧ result ≠ .error .diverged ∧
      f.firstChild p = none ∧ result = (f.readNode p).map fun _ ↦ p) ∨
    ∃ q, f.descendStep p = .inr q ∧ f.firstChild p = some q := by
  unfold descendStep firstChild
  rcases hread : f.readNode p with e | node
  · exact .inl ⟨_, rfl, fun h ↦ readNode_ne_diverged (hread.trans (congrArg _ (Except.error.inj h))),
      rfl, rfl⟩
  rcases hkind : node.nodeType
  · rcases hchildren : node.children with - | ⟨child, children⟩
    · simp only [hkind, hchildren]
      exact .inl ⟨_, rfl, fun h ↦ (nomatch h), rfl, rfl⟩
    · simp only [hkind, hchildren]
      exact .inr ⟨child, rfl, rfl⟩
  · simp only [hkind]
    exact .inl ⟨_, rfl, fun h ↦ (nomatch h), trivial, rfl⟩

/-- The leaf walk of a scan goes on along its route, and stops where the route does or where a visit
fails. -/
theorem walkStep_cases (visit : β → Nat → Node Bytes Bytes → Except ε β) (s : Nat × β) :
    (∃ result, f.walkStep visit s = .inl result ∧ result ≠ .error .diverged ∧
      (f.nextLeaf s.1 = none ∨
        ∃ node e, f.readNode s.1 = .ok node ∧ visit s.2 s.1 node = .error e)) ∨
    ∃ s', f.walkStep visit s = .inr s' ∧ f.nextLeaf s.1 = some s'.1 := by
  unfold walkStep nextLeaf
  rcases hread : f.readNode s.1 with e | node
  · exact .inl ⟨_, rfl, fun h ↦ readNode_ne_diverged (hread.trans (congrArg _ (Except.error.inj h))),
      .inl rfl⟩
  rcases hvisit : visit s.2 s.1 node with e | acc
  · simp only [hvisit]
    exact .inl ⟨_, rfl, fun h ↦ (nomatch h), .inr ⟨node, e, rfl, hvisit⟩⟩
  rcases hnext : node.nextLeaf with - | q
  · simp only [hvisit, hnext]
    exact .inl ⟨_, rfl, fun h ↦ (nomatch h), .inl rfl⟩
  · by_cases hself : q = s.1
    · simp only [hvisit, hnext, if_pos hself]
      exact .inl ⟨_, rfl, fun h ↦ (nomatch h),
        .inl (Option.filter_eq_none_iff.2 fun _ hq ↦ by simp [← Option.some.inj hq, hself])⟩
    · simp only [hvisit, hnext, if_neg hself]
      exact .inr ⟨(q, acc), rfl, Option.filter_eq_some_iff.2 ⟨rfl, by simp [hself]⟩⟩

/-- The descent of a scan comes to an end exactly if its route does. -/
theorem finishes_descent_iff :
    Finishes (fun reads ↦ outcome (loop f.descendStep reads rootPageId)) ↔
      Ends f.firstChild rootPageId :=
  finishes_iff_ends (w := id) fun p ↦
    (descendStep_cases p).imp_left fun ⟨r, hr, hne, hend, _⟩ ↦ ⟨r, hr, hne, hend⟩

/-- The descent ends with the last page on its route, unless that is not a node. -/
theorem exists_of_descent {reads : Nat} {result : Except WalkError Nat}
    (h : loop f.descendStep reads rootPageId = some result) :
    ∃ p, ReflTransGen (Leads f.firstChild) rootPageId p ∧ f.firstChild p = none ∧
      result = (f.readNode p).map fun _ ↦ p := by
  obtain ⟨p, hp, hlast⟩ := exists_last_of_loop (w := id) (fun s s' hs ↦ by
    rcases descendStep_cases s with ⟨_, hresult, -⟩ | ⟨_, hnext, hleads⟩
    · exact nomatch hresult.symm.trans hs
    · exact Sum.inr.inj (hnext.symm.trans hs) ▸ hleads) h
  rcases descendStep_cases p with ⟨_, hresult, -, hend, heq⟩ | ⟨_, hnext, -⟩
  · exact ⟨p, hp, hend, (Sum.inl.inj (hlast.symm.trans hresult)).trans heq⟩
  · exact nomatch hnext.symm.trans hlast

theorem scanLeaves_eq (visit : β → Nat → Node Bytes Bytes → Except ε β) (acc : β) (reads : Nat) :
    f.scanLeaves visit acc reads = (outcome (loop f.descendStep reads rootPageId)).bind fun leaf ↦
      outcome (loop (f.walkStep visit) reads (leaf, acc)) := by
  simp only [scanLeaves, run_leftmostLeaf, run_walkLeaves]
  rfl

/-- **The page reads of a scan** come to an end if the routes of its descent and of its walk do. -/
theorem finishes_scanLeaves (visit : β → Nat → Node Bytes Bytes → Except ε β) (acc : β)
    (hdescent : Ends f.firstChild rootPageId)
    (hleaves : ∀ leaf, ReflTransGen (Leads f.firstChild) rootPageId leaf → f.firstChild leaf = none →
      Ends f.nextLeaf leaf) : Finishes (f.scanLeaves visit acc) := by
  obtain ⟨m, hm⟩ := finishes_descent_iff.2 hdescent
  obtain ⟨result, hresult⟩ := Option.isSome_iff_exists.1 (isSome_of_ne_diverged hm)
  have hscan : ∀ n, m ≤ n → f.scanLeaves visit acc n =
      result.bind fun leaf ↦ outcome (loop (f.walkStep visit) n (leaf, acc)) := fun n hn ↦ by
    rw [scanLeaves_eq, loop_mono hn hresult]
    rfl
  obtain ⟨p, hp, hend, heq⟩ := exists_of_descent hresult
  rcases hread : f.readNode p with e | node
  · rw [hread] at heq
    subst heq
    exact ⟨m, fun h ↦ hm ((congrArg outcome hresult).trans
      (congrArg Except.error (Except.error.inj ((hscan m le_rfl).symm.trans h))))⟩
  · rw [hread] at heq
    subst heq
    obtain ⟨n, hn⟩ := finishes_of_ends (w := Prod.fst) (s := (p, acc))
      (fun s ↦ (walkStep_cases visit s).imp_left fun ⟨r, hr, hne, _⟩ ↦ ⟨r, hr, hne⟩)
      (hleaves p hp hend)
    obtain ⟨found, hfound⟩ := Option.isSome_iff_exists.1 (isSome_of_ne_diverged hn)
    refine ⟨max m n, fun h ↦ hn ((congrArg outcome hfound).trans ?_)⟩
    rw [hscan _ (le_max_left m n)] at h
    exact (congrArg outcome (loop_mono (le_max_right m n) hfound)).symm.trans h

/-- A scan whose visits go well has come to an end because its routes do. -/
theorem ends_of_finishes_scanLeaves (visit : β → Nat → Node Bytes Bytes → Except ε β) (acc : β)
    (hvisit : ∀ acc p node e, f.readNode p = .ok node → visit acc p node ≠ .error e)
    (h : Finishes (f.scanLeaves visit acc)) :
    Ends f.firstChild rootPageId ∧ ∀ leaf, ReflTransGen (Leads f.firstChild) rootPageId leaf →
      f.firstChild leaf = none → Ends f.nextLeaf leaf := by
  obtain ⟨n, hn⟩ := h
  rw [scanLeaves_eq] at hn
  have hdescent : outcome (loop f.descendStep n rootPageId) ≠ .error .diverged := fun h ↦ by
    rw [h] at hn
    exact hn rfl
  refine ⟨finishes_descent_iff.1 ⟨n, hdescent⟩, fun leaf hleaf hleafend ↦ ?_⟩
  obtain ⟨result, hresult⟩ := Option.isSome_iff_exists.1 (isSome_of_ne_diverged hdescent)
  obtain ⟨p, hp, hend, heq⟩ := exists_of_descent hresult
  obtain rfl := end_unique hleaf hleafend hp hend
  rcases hread : f.readNode leaf with e | node
  · exact .intro fun b hb ↦ by
      simp only [Leads, nextLeaf, hread] at hb
      cases hb
  · rw [hread] at heq
    rw [hresult, heq] at hn
    refine (finishes_iff_ends (w := Prod.fst) (s := (leaf, acc))
      fun s ↦ (walkStep_cases visit s).imp_left fun ⟨r, hr, hne, hstop⟩ ↦ ⟨r, hr, hne, ?_⟩).1 ⟨n, hn⟩
    rcases hstop with hstop | ⟨node, e, hnode, he⟩
    · exact hstop
    · exact absurd he (hvisit _ _ _ _ hnode)

/-- A scan of a table whose name is no part of a key finds nothing to decode. -/
theorem leaf_of_long {lossy : Bytes → Bytes} {rt : Runtime} {tableName : Bytes} {version : Nat} :
    ∀ {keys : List Bytes} {values : List Data} {acc : Scan},
      (∀ key ∈ keys, (lossy key).length < tableName.length) →
        LossyScan.leaf lossy rt tableName version keys values acc = .ok acc
  | [], _, _, _ => rfl
  | key :: keys, values, acc, h => by
    have hbegins : (tablePrefix tableName).isPrefixOf (lossy key) = false := by
      refine Bool.eq_false_iff.2 fun hp ↦ ?_
      have hle := (List.isPrefixOf_iff_prefix.1 hp).length_le
      have hlt := h key List.mem_cons_self
      rw [tablePrefix, List.length_append] at hle
      omega
    unfold LossyScan.leaf
    rw [if_pos (.inr hbegins)]
    exact leaf_of_long fun k hk ↦ h k (List.mem_cons_of_mem key hk)

/-- The scans of all tables come to an end exactly if the routes of a scan do. -/
theorem finishes_scanTable_iff (front : Frontend) (rt : Runtime) :
    (∀ e tableName version, Finishes (f.scanTable front rt e tableName version)) ↔
      Ends f.firstChild rootPageId ∧ ∀ leaf, ReflTransGen (Leads f.firstChild) rootPageId leaf →
        f.firstChild leaf = none → Ends f.nextLeaf leaf := by
  constructor
  · intro h
    obtain ⟨bound, hbound⟩ := f.exists_keyBound front.fromUtf8Lossy
    have htier : LossyScan.tier front.fromUtf8Lossy rt (List.replicate bound 0) 0 .empty = .ok {} := by
      have hempty : rt.iterate (∅ : HashMap Bytes Data) = [] :=
        List.perm_nil.1 (rt.iterate_perm ∅)
      show (rt.iterate (∅ : HashMap Bytes Data)).foldlM _ _ = _
      rw [hempty]
      rfl
    obtain ⟨n, hn⟩ := h .empty (List.replicate bound 0) 0
    refine ends_of_finishes_scanLeaves (fun acc _ node ↦
      LossyScan.leaf front.fromUtf8Lossy rt (List.replicate bound 0) 0 node.keys
        (node.values.map .raw) acc) {} (fun acc p node e hnode ↦ ?_) ⟨n, fun hscan ↦ hn ?_⟩
    · rw [leaf_of_long fun key hkey ↦ by
        rw [List.length_replicate]
        exact hbound p node hnode key hkey]
      exact fun h ↦ nomatch h
    · simp only [scanTable, htier, hscan]
  · rintro ⟨hdescent, hleaves⟩ e tableName version
    rcases htier : LossyScan.tier front.fromUtf8Lossy rt tableName version e with err | acc
    · refine ⟨0, ?_⟩
      simp only [scanTable, htier]
      exact fun h ↦ nomatch h
    · obtain ⟨n, hn⟩ := finishes_scanLeaves (fun acc _ node ↦
        LossyScan.leaf front.fromUtf8Lossy rt tableName version node.keys (node.values.map .raw) acc)
        acc hdescent hleaves
      refine ⟨n, fun hscan ↦ hn ?_⟩
      simp only [scanTable, htier] at hscan
      split at hscan
      · rename_i err herr
        rw [herr, Except.error.inj hscan]
      · cases hscan
      · cases hscan

/-! ### Searches -/

/-- A search goes through a leaf's entries if they all decode, and only then. -/
theorem isOk_searchLeaf_iff {front : Frontend} {rt : Runtime} {query : Text} :
    ∀ {keys : List Bytes} {values : List Data} {results : List Bytes},
      (front.searchLeaf rt query keys values results).isOk = searchable front rt keys values
  | [], _, _ => rfl
  | key :: keys, values, results => by
    unfold Frontend.searchLeaf searchable
    by_cases hsystem : (bytes "__").isPrefixOf (front.fromUtf8Lossy key) = true
    · rw [if_pos hsystem, if_pos hsystem]
      exact isOk_searchLeaf_iff
    · rw [if_neg hsystem, if_neg hsystem]
      rcases values with - | ⟨data, values⟩
      · rfl
      · show Except.isOk (rt.decodeRecord data >>= fun record ↦ _) = _
        simp only
        rcases rt.decodeRecord data with e | record
        · rfl
        · exact isOk_searchLeaf_iff

/-- The visit of a node by a search. -/
abbrev searchVisit (front : Frontend) (rt : Runtime) (query : Text) (results : List Bytes)
    (node : Node Bytes Bytes) : Except EngineError (List Bytes) :=
  front.searchLeaf rt query node.keys (node.values.map .raw) results

/-- A search goes on along its route, or stops where the route does. -/
theorem searchStep_cases (front : Frontend) (rt : Runtime) (query : Text) (s : Nat × List Bytes) :
    (∃ result, f.searchStep (searchVisit front rt query) s = .inl result ∧
      result ≠ .error .diverged ∧ f.searchNext front rt s.1 = none) ∨
    ∃ s', f.searchStep (searchVisit front rt query) s = .inr s' ∧
      f.searchNext front rt s.1 = some s'.1 := by
  unfold searchStep searchNext readNode
  rcases hpage : f.readPage s.1 with e | page
  · exact .inl ⟨_, rfl, fun h ↦ (nomatch h), rfl⟩
  rcases hnode : NodeCodec.fromBytes page with - | node
  · simp only [hnode]
    exact .inl ⟨_, rfl, fun h ↦ (nomatch h), trivial⟩
  rcases hkind : node.nodeType
  · rcases hchildren : node.children with - | ⟨child, children⟩
    · simp only [hnode, hkind, hchildren]
      exact .inl ⟨_, rfl, fun h ↦ (nomatch h), rfl⟩
    · simp only [hnode, hkind, hchildren]
      exact .inr ⟨(child, s.2), rfl, rfl⟩
  · have hok : (searchVisit front rt query s.2 node).isOk =
      searchable front rt node.keys (node.values.map .raw) := isOk_searchLeaf_iff
    rcases hvisit : searchVisit front rt query s.2 node with e | acc
    · rw [hvisit] at hok
      simp only [hnode, hkind, hvisit, ← hok]
      exact .inl ⟨_, rfl, fun h ↦ (nomatch h), rfl⟩
    rw [hvisit] at hok
    rcases hnext : node.nextLeaf with - | q
    · simp only [hnode, hkind, hvisit, hnext]
      exact .inl ⟨_, rfl, fun h ↦ (nomatch h), ite_self _⟩
    · simp only [hnode, hkind, hvisit, hnext, ← hok]
      exact .inr ⟨(q, acc), rfl, rfl⟩

/-- The searches come to an end exactly if their route does. -/
theorem finishes_universalSearch_iff (front : Frontend) (rt : Runtime) (query : Text) :
    Finishes (f.universalSearch front rt query) ↔ Ends (f.searchNext front rt) rootPageId := by
  have hloop : Finishes (f.universalSearch front rt query) ↔
      Finishes fun reads ↦ outcome (loop (f.searchStep (searchVisit front rt query)) reads
        (rootPageId, [Frontend.searchHeading query, List.replicate 40 45])) := by
    refine exists_congr fun reads ↦ not_congr ?_
    rw [universalSearch, searchLoop_eq]
    show _ ↔ outcome (loop (f.searchStep (searchVisit front rt query)) reads
      (rootPageId, [Frontend.searchHeading query, List.replicate 40 45])) = _
    rcases outcome (loop (f.searchStep (searchVisit front rt query)) reads
      (rootPageId, [Frontend.searchHeading query, List.replicate 40 45])) with e | e | results
    · exact ⟨fun h ↦ congrArg _ (Except.error.inj h), fun h ↦ congrArg _ (Except.error.inj h)⟩
    · exact iff_of_false (fun h ↦ nomatch Except.error.inj h) fun h ↦ nomatch h
    · exact iff_of_false (fun h ↦ nomatch h) fun h ↦ nomatch h
  rw [hloop, finishes_iff_ends (w := Prod.fst) (searchStep_cases front rt query)]

/-! ### All walks -/

variable (f)

/-- **The walks over a page file all come to an end exactly when none of their routes comes back to a
page**, whatever the bytes of the file are. -/
theorem walksFinish_iff (front : Frontend) (rt : Runtime) :
    f.WalksFinish front rt ↔ f.NoReturn front rt := by
  have hchild : ∀ key, Ends (f.childOf rt.search key) rootPageId ↔
      ¬ Returns (f.childOf rt.search key) rootPageId := fun key ↦
    ends_iff_not_returns (finite_isSome (f := f) fun p hp ↦ by simp only [childOf, hp]; rfl)
  have hfirst : Ends f.firstChild rootPageId ↔ ¬ Returns f.firstChild rootPageId :=
    ends_iff_not_returns (finite_isSome (f := f) fun p hp ↦ by simp only [firstChild, hp]; rfl)
  have hleaf : ∀ leaf, Ends f.nextLeaf leaf ↔ ¬ Returns f.nextLeaf leaf := fun leaf ↦
    ends_iff_not_returns (finite_isSome (f := f) fun p hp ↦ by simp only [nextLeaf, hp]; rfl)
  have hsearch : Ends (f.searchNext front rt) rootPageId ↔
      ¬ Returns (f.searchNext front rt) rootPageId :=
    ends_iff_not_returns (finite_isSome (f := f) fun p hp ↦ by simp only [searchNext, hp]; rfl)
  constructor
  · intro h
    have hscan := (finishes_scanTable_iff front rt).1 h.scanTable
    refine ⟨fun key ↦ (hchild key).1 ?_, hfirst.1 hscan.1,
      fun leaf hleaf' hend ↦ (hleaf leaf).1 (hscan.2 leaf hleaf' hend),
      hsearch.1 ((finishes_universalSearch_iff front rt []).1 (h.universalSearch []))⟩
    rcases finishes_get_iff.1 (h.get (.new 0) key) with htier | hends
    · cases htier
    · exact hends
  · intro h
    exact ⟨fun tier key ↦ finishes_get_iff.2 (.inr ((hchild key).2 (h.lookup key))),
      (finishes_scanTable_iff front rt).2 ⟨hfirst.2 h.descent,
        fun leaf hleaf' hend ↦ (hleaf leaf).2 (h.leaves leaf hleaf' hend)⟩,
      fun query ↦ (finishes_universalSearch_iff front rt query).2 (hsearch.2 h.search)⟩

/-- An internal node that is its own child. -/
def ownChild : Node Bytes Bytes := { Node.newInternal with children := [0] }

/-- A file whose only page is its own child is accepted, and a lookup in it does not come to an end. -/
theorem not_walksFinish :
    ¬ ∀ (front : Frontend) (rt : Runtime) (file : Bytes), (opened file).WalksFinish front rt := by
  intro h
  let front : Frontend := ⟨fun _ ↦ .error [], fun c ↦ [c], id⟩
  let rt : Runtime := .plain
  have hids : ownChild.U32Ids := ⟨fun c hc ↦ by
    obtain rfl := List.mem_singleton.1 hc
    norm_num, fun _ hp ↦ nomatch hp⟩
  obtain ⟨page, stored, -, hread, hnode⟩ := (node_round_trip ownChild hids (opened []) 0).1 (by decide)
  have hroot : (opened ((opened []).writePage 0 page).file).readNode 0 = .ok ownChild := by
    show readNode ((opened []).writePage 0 page) 0 = _
    simp only [readNode, hread, hnode]
  -- whichever way the search in the empty list of keys goes, the only child is the page itself
  have hself : (opened ((opened []).writePage 0 page).file).childOf rt.search [] 0 = some 0 := by
    have hindex : childIndex rt.search ownChild [] = 0 :=
      Nat.lt_one_iff.1 (childIndex_lt rt.search (show 0 < ownChild.children.length by decide) [])
    simp only [childOf, hroot]
    show ownChild.children[childIndex rt.search ownChild []]? = some 0
    rw [hindex]
    rfl
  rcases finishes_get_iff.1 ((h front rt _).get (.new 0) []) with htier | hends
  · cases htier
  · exact hends.not_returns ⟨0, .refl, .single hself⟩

end PageFile

end KsSql
