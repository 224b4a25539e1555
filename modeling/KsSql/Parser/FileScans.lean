import KsSql.Parser.Script
import KsSql.Parser.Walks

/-!
# Scans of any storage

What a scan without a filter returns on a page file whose bytes are arbitrary, beside a memory tier that
holds whatever it holds. The leaves on the chain may hold any keys, in any order and several times, and
there need not be a value for each key.

If the scan succeeds, it has gone through the entries of the memory tier and then through those on the
leaf chain (`PageFile.Chain`), and shows the first of a key's records that is neither deleted nor newer
than its version: each row comes from such a record, no key has two rows, the memory tier comes first and
no key is missing (`scan_any_storage`).
-/

namespace KsSql.PageFile

open PageProgram BPlusTree Trail Relation

variable {f : PageFile}

/-- The nodes that a leaf walk from a page visits, if their chain comes to an end. -/
inductive Chain (f : PageFile) : Nat → List (Node Bytes Bytes) → Prop
  | last {p : Nat} {node : Node Bytes Bytes} :
    f.readNode p = .ok node → f.nextLeaf p = none → Chain f p [node]
  | next {p q : Nat} {node : Node Bytes Bytes} {nodes : List (Node Bytes Bytes)} :
    f.readNode p = .ok node → f.nextLeaf p = some q → Chain f q nodes → Chain f p (node :: nodes)

/-- A step of a leaf walk on a page that is a node: visit it, and go on along the route. -/
theorem walkStep_eq {β ε : Type} {visit : β → Nat → Node Bytes Bytes → Except ε β} {p : Nat} {acc : β}
    {node : Node Bytes Bytes} (hread : f.readNode p = .ok node) : f.walkStep visit (p, acc) =
      match visit acc p node with
      | .error e => .inl (.ok (.error e))
      | .ok acc => match f.nextLeaf p with
        | none => .inl (.ok (.ok acc))
        | some q => .inr (q, acc) := by
  unfold walkStep nextLeaf
  simp only [hread]
  rcases visit acc p node with e | acc'
  · rfl
  · rcases node.nextLeaf with - | q
    · rfl
    · by_cases hself : q = p
      · simp [hself, Option.filter_some]
      · simp [hself, Option.filter_some]

/-- A leaf walk that succeeds is a fold over the nodes on its chain. -/
theorem foldlM_of_walk {β ε : Type} {visit : β → Node Bytes Bytes → Except ε β} {p : Nat}
    {nodes : List (Node Bytes Bytes)} (hchain : f.Chain p nodes) : ∀ {reads : Nat} {acc found : β},
      loop (f.walkStep fun acc _ node ↦ visit acc node) reads (p, acc) = some (.ok (.ok found)) →
        nodes.foldlM visit acc = .ok found := by
  induction hchain with
  | @last p node hread hend =>
    intro reads acc found h
    rcases reads with - | reads
    · cases h
    rw [loop, walkStep_eq hread, hend] at h
    rcases hvisit : visit acc node with e | acc'
    · rw [hvisit] at h
      cases h
    · rw [hvisit] at h
      cases h
      rw [List.foldlM_cons, hvisit]
      rfl
  | @next p q node nodes hread hnext _ ih =>
    intro reads acc found h
    rcases reads with - | reads
    · cases h
    rw [loop, walkStep_eq hread, hnext] at h
    rcases hvisit : visit acc node with e | acc'
    · rw [hvisit] at h
      cases h
    · rw [hvisit] at h
      rw [List.foldlM_cons, hvisit]
      exact ih h

/-! ### The scan -/

section

variable {front : Frontend} {rt : Runtime} {e : Engine} {tableName : Bytes} {version reads : Nat}
  {rows : List Row} {leaf : Nat} {nodes : List (Node Bytes Bytes)}

/-- The entries that a scan meets: those of the memory tier, and those on the leaf chain. -/
def scanned (rt : Runtime) (e : Engine) (nodes : List (Node Bytes Bytes)) : List (Bytes × Data) :=
  rt.iterate e.btree.memoryTier.cache ++
    nodes.flatMap fun node ↦ node.keys.zip (node.values.map .raw)

/-- The leaves on a chain are scanned entry by entry. -/
theorem leaves_shows {lossy : Bytes → Bytes} : ∀ {nodes : List (Node Bytes Bytes)}
    {acc : List (Bytes × Row)} {scan : Scan},
    nodes.foldlM (fun acc node ↦ LossyScan.leaf lossy rt tableName version node.keys
      (node.values.map .raw) acc) (.shows lossy rt tableName acc) = .ok scan →
    ∃ shown, scanEntries lossy rt tableName version
        (nodes.flatMap fun node ↦ node.keys.zip (node.values.map .raw)) acc = .ok shown ∧
      scan = .shows lossy rt tableName shown
  | [], acc, _, h => ⟨acc, rfl, (Except.ok.inj h).symm⟩
  | node :: nodes, acc, scan, h => by
    rw [List.foldlM_cons] at h
    obtain ⟨scan', hleaf, hrest⟩ := Except.exists_of_bind_eq_ok h
    obtain ⟨shown', hshown', rfl⟩ := LossyScan.leaf_shows_of_ok hleaf
    obtain ⟨shown, hshown, rfl⟩ := leaves_shows hrest
    refine ⟨shown, ?_, rfl⟩
    rw [List.flatMap_cons, scanEntries_append, hshown']
    exact hshown

/-- A scan that succeeds has gone through the entries that it meets. -/
theorem exists_shown_of_scanTable (hdescent : ReflTransGen (Leads f.firstChild) rootPageId leaf)
    (hend : f.firstChild leaf = none) (hchain : f.Chain leaf nodes)
    (h : f.scanTable front rt e tableName version reads = .ok rows) :
    ∃ shown, scanEntries front.fromUtf8Lossy rt tableName version (scanned rt e nodes) [] = .ok shown ∧
      rows = shown.map fun c ↦ scannedRow rt tableName (front.fromUtf8Lossy c.1) c.2 := by
  rw [scanTable, LossyScan.tier_shows] at h
  rcases htier : scanEntries front.fromUtf8Lossy rt tableName version
    (rt.iterate e.btree.memoryTier.cache) [] with err | acc
  · rw [htier] at h
    cases h
  rw [htier] at h
  simp only [Except.map, scanLeaves_eq] at h
  rcases hdown : loop f.descendStep reads rootPageId with - | result
  · rw [hdown] at h
    cases h
  obtain ⟨p, hp, hpend, heq⟩ := exists_of_descent hdown
  obtain rfl := end_unique hdescent hend hp hpend
  rcases hread : f.readNode leaf with err | node
  · rw [hdown, heq, hread] at h
    cases h
  rw [hdown, heq, hread] at h
  simp only [Except.map, outcome, Option.getD_some, Except.bind] at h
  split at h
  · cases h
  · cases h
  rename_i scan hwalk
  have hfold : nodes.foldlM (fun acc node ↦ LossyScan.leaf front.fromUtf8Lossy rt tableName version
      node.keys (node.values.map .raw) acc) (.shows front.fromUtf8Lossy rt tableName acc) =
      .ok scan := by
    rcases Option.getD_eq_iff.1 hwalk with hloop | ⟨-, hdiverged⟩
    · exact foldlM_of_walk hchain hloop
    · cases hdiverged
  obtain ⟨shown, hshown, rfl⟩ := leaves_shows hfold
  refine ⟨shown, ?_, (Except.ok.inj h).symm⟩
  rw [scanned, scanEntries_append, htier]
  exact hshown

/-- An entry is one that a scan shows: its key decodes to a key of the table, and its record is neither
deleted nor newer than the version. -/
def Showable (lossy : Bytes → Bytes) (rt : Runtime) (tableName : Bytes) (version : Nat) (key : Bytes)
    (data : Data) : Prop :=
  (tablePrefix tableName).isPrefixOf (lossy key) = true ∧
    ∃ record, rt.decodeRecord data = .ok record ∧ record.version ≤ version ∧ record.isDeleted = false

/-- The columns of the row that an entry holds. -/
def Holds (rt : Runtime) (data : Data) (columns : Row) : Prop :=
  ∃ record, rt.decodeRecord data = .ok record ∧ rt.decodeRow record.value = .ok columns

/-- What is shown of an entry is the row that it holds, if it is showable. -/
theorem shownAs_eq_some_iff {lossy : Bytes → Bytes} {key : Bytes} {data : Data} {columns : Row} :
    rt.shownAs lossy tableName version key data = some columns ↔
      Showable lossy rt tableName version key data ∧ Holds rt data columns := by
  rw [Runtime.shownAs]
  split
  · rename_i hbegins
    rw [rt.shown_eq_some_iff]
    constructor
    · rintro ⟨record, hrecord, hversion, hdeleted, hrow⟩
      exact ⟨⟨hbegins, record, hrecord, hversion, hdeleted⟩, record, hrecord, hrow⟩
    · rintro ⟨⟨-, record, hrecord, hversion, hdeleted⟩, record', hrecord', hrow⟩
      obtain rfl := Except.ok.inj (hrecord.symm.trans hrecord')
      exact ⟨record, hrecord, hversion, hdeleted, hrow⟩
  · rename_i hbegins
    refine iff_of_false ?_ fun h ↦ hbegins h.1.1
    rintro ⟨⟩

/-- **A scan without a filter is sound and free of duplicates on any storage.** If it succeeds, each row
it returns comes from a showable entry, under a key that no other row comes from; a key with a showable
entry in the memory tier contributes that entry, and every key with a showable entry contributes a row. -/
theorem scan_any_storage (hdescent : ReflTransGen (Leads f.firstChild) rootPageId leaf)
    (hend : f.firstChild leaf = none) (hchain : f.Chain leaf nodes)
    (h : f.scanTable front rt e tableName version reads = .ok rows) :
    ∃ shown : List (Bytes × Row),
      rows = shown.map (fun c ↦ scannedRow rt tableName (front.fromUtf8Lossy c.1) c.2) ∧
      (shown.map Prod.fst).Nodup ∧
      (∀ c ∈ shown, ∃ data, (c.1, data) ∈ scanned rt e nodes ∧
        Showable front.fromUtf8Lossy rt tableName version c.1 data ∧ Holds rt data c.2) ∧
      (∀ key data, e.btree.memoryTier.get key = some data →
        Showable front.fromUtf8Lossy rt tableName version key data →
          ∃ columns, Holds rt data columns ∧ (key, columns) ∈ shown) ∧
      ∀ key data, (key, data) ∈ scanned rt e nodes →
        Showable front.fromUtf8Lossy rt tableName version key data →
          ∃ columns, (key, columns) ∈ shown := by
  obtain ⟨shown, hshown, rfl⟩ := exists_shown_of_scanTable hdescent hend hchain h
  have hhits := eq_firstHits_of_scanEntries hshown
  have hevery : ∀ key data, (key, data) ∈ scanned rt e nodes →
      Showable front.fromUtf8Lossy rt tableName version key data →
        ∃ columns, (key, columns) ∈ shown := by
    rintro key data hmem ⟨hbegins, hlive⟩
    obtain ⟨⟨k, columns⟩, hc, rfl⟩ := List.mem_map.1 (mem_of_scanEntries hshown hmem hbegins hlive)
    exact ⟨columns, hc⟩
  refine ⟨shown, rfl, ?_, fun c hc ↦ ?_, fun key data hdata hshowable ↦ ?_, hevery⟩
  · rw [hhits]
    exact nodup_firstHits _ _ List.nodup_nil
  · rw [hhits] at hc
    obtain ⟨data, hdata, hholds⟩ := exists_mem_of_firstHit (mem_firstHits.1 hc)
    exact ⟨data, hdata, shownAs_eq_some_iff.1 hholds⟩
  · -- the part of the scan that reads the memory tier has shown the entry already
    have htier : (key, data) ∈ rt.iterate e.btree.memoryTier.cache :=
      Engine.mem_iterate_iff.2 hdata
    rw [scanned, scanEntries_append] at hshown
    obtain ⟨acc, hacc, -⟩ := Except.exists_of_bind_eq_ok hshown
    obtain ⟨⟨k, columns⟩, hc, rfl⟩ :=
      List.mem_map.1 (mem_of_scanEntries hacc htier hshowable.1 hshowable.2)
    rw [eq_firstHits_of_scanEntries hacc] at hc
    have hhit := mem_firstHits.1 hc
    rw [firstHit_of_mem (Engine.nodup_keys_iterate _) htier] at hhit
    refine ⟨columns, (shownAs_eq_some_iff.1 hhit).2, ?_⟩
    rw [hhits, mem_firstHits, scanned, firstHit_append,
      firstHit_of_mem (Engine.nodup_keys_iterate _) htier, hhit, Option.some_or]

end

/-! ### On a file -/

/-- A record that holds a row without columns. -/
def sampleRecord : Record := ⟨.row ∅, 0, false, 0⟩

/-- A runtime that decodes the bytes of that record. -/
def sampleRuntime : Runtime :=
  { Runtime.plain with
    rawRecord := fun stored ↦ if stored = sampleRecord.plain then some sampleRecord else none }

/-- A leaf that holds the record twice under one key. -/
def sampleLeaf : Node Bytes Bytes :=
  ⟨.leaf, [bytes "t:1", bytes "t:1"], [], [sampleRecord.plain, sampleRecord.plain], none⟩

/-- A memory tier that holds it under another one. -/
def sampleEngine : Engine :=
  { btree :=
    { memoryTier := (MemoryTier.new 1024).insert 0 (bytes "t:2") (.record sampleRecord) } }

/-- The key that comes twice contributes one row. -/
theorem scan_any_storage_sample : ∃ page : Page,
    let f := (opened []).writePage 0 page
    ∃ shown : List (Bytes × Row),
      f.scanTable .plain sampleRuntime sampleEngine (bytes "t") 0 2 =
        .ok (shown.map fun c ↦ scannedRow sampleRuntime (bytes "t") c.1 c.2) ∧
      shown.length = 2 ∧ (shown.map Prod.fst).Nodup := by
  have hids : sampleLeaf.U32Ids := ⟨fun _ hc ↦ (nomatch hc), fun _ hp ↦ (nomatch hp)⟩
  obtain ⟨page, stored, -, hpage, hnode⟩ :=
    (node_round_trip sampleLeaf hids (opened []) 0).1 (by decide +kernel)
  refine ⟨page, ?_⟩
  have hread : ((opened []).writePage 0 page).readNode 0 = .ok sampleLeaf := by
    simp only [readNode, hpage, hnode]
  have hend : ((opened []).writePage 0 page).firstChild 0 = none := by
    simp only [firstChild, hread]
    rfl
  have hnext : ((opened []).writePage 0 page).nextLeaf 0 = none := by
    simp only [nextLeaf, hread]
    rfl
  have hchain : ((opened []).writePage 0 page).Chain 0 [sampleLeaf] := .last hread hnext
  have hscan : ((opened []).writePage 0 page).scanTable .plain sampleRuntime sampleEngine (bytes "t") 0 2 =
      .ok [scannedRow sampleRuntime (bytes "t") (bytes "t:2") ∅,
        scannedRow sampleRuntime (bytes "t") (bytes "t:1") ∅] := by
    have htier : LossyScan.tier Frontend.plain.fromUtf8Lossy sampleRuntime (bytes "t") 0 sampleEngine =
        .ok (.shows id sampleRuntime (bytes "t") [(bytes "t:2", ∅)]) := rfl
    have hdown : loop ((opened []).writePage 0 page).descendStep 2 rootPageId = some (.ok 0) := by
      simp only [loop, descendStep, rootPageId, hread]
      rfl
    have hvisit : LossyScan.leaf Frontend.plain.fromUtf8Lossy sampleRuntime (bytes "t") 0
        sampleLeaf.keys (sampleLeaf.values.map .raw)
        (.shows id sampleRuntime (bytes "t") [(bytes "t:2", ∅)]) =
        .ok (.shows id sampleRuntime (bytes "t") [(bytes "t:2", ∅), (bytes "t:1", ∅)]) := rfl
    simp only [scanTable, htier, scanLeaves_eq, hdown]
    simp only [loop, outcome, Option.getD_some, Except.bind, walkStep_eq hread, hvisit, hnext]
    rfl
  obtain ⟨shown, hrows, hnodup, -⟩ := scan_any_storage .refl hend hchain hscan
  refine ⟨shown, hscan.trans (congrArg Except.ok hrows), ?_, hnodup⟩
  have hlength := congrArg List.length hrows
  rw [List.length_map] at hlength
  exact hlength.symm

end KsSql.PageFile
