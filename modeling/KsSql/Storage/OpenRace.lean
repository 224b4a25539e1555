import KsSql.Storage.PageReplay

/-!
# Opening while the pager starts

`BPlusTree::open` beside the start of the pager thread, step by step. `Pager::open` returns before its
thread has published the length of the page file, which starts at zero; the thread serves requests only
afterwards. `BPlusTree::open` replays the log, checks the number of pages, and writes an empty leaf as
the root if there is none.

Whatever the order of the steps, the open ends with what `reopen` makes of the files, or with that and
an empty root (`ahead_step`). The root is kept if and only if the thread has published the length by the
time of the check, and the number of pages is not zero as a `u32` (`open_keeps_root_iff`). With an
entry in the log the thread has always done so, as the replay waits for its answers
(`checksInTime_of_log`).
-/

namespace KsSql

/-- `Pager::write_page` after the write: the length is set anew for a page behind the end. -/
def Pager.lengthen {K V : Type} (p : Pager K V) (pageId : Nat) : Pager K V :=
  let offset := pageId * pageSize
  { p with fileLength := if offset ≥ p.fileLength then offset + pageSize else p.fileLength }

namespace BPlusTree

variable {K V : Type}

/-- Where `BPlusTree::open` is. `rest` is what is left to replay, numbered; there is nothing when the
page being written is the initial root. -/
inductive OpenPhase (K V : Type)
  /-- In the replay. -/
  | replay (rest : List (WalEntry K V × Nat))
  /-- A request to write a page is sent. -/
  | writing (pageId : Nat) (node : Node K V) (rest : Option (List (WalEntry K V × Nat)))
  /-- The page is written; the next step reads the length of the file. -/
  | measuring (pageId : Nat) (rest : Option (List (WalEntry K V × Nat)))
  /-- The length is read; the next step sets it anew if the page is behind the end. -/
  | lengthening (pageId len : Nat) (rest : Option (List (WalEntry K V × Nat)))
  /-- A request to sync the file is sent, after the replay or after the initial root. -/
  | syncing (initialised : Bool)
  /-- The next step checks the number of pages. -/
  | checking
  /-- Done. -/
  | opened

/-- `BPlusTree::open` and the pager thread. -/
structure Opening (K V : Type) where
  /-- The pages of the file, the shared file length, and the memory tier. -/
  tree : BPlusTree K V
  /-- The length of the file when the thread opens it. -/
  onDisk : Nat
  /-- Whether the thread has published the length. -/
  published : Bool := false
  /-- Where `BPlusTree::open` is. -/
  phase : OpenPhase K V
  /-- History: whether the initial root was written. -/
  wiped : Bool := false

/-- A step of the pager thread, or of `BPlusTree::open`. -/
inductive OpenStep
  | pagerThread
  | caller
  deriving DecidableEq

namespace Opening

/-- The next step of the pager thread: publish the length, then serve requests. -/
def serve (s : Opening K V) : Opening K V :=
  if s.published then
    match s.phase with
    | .writing pageId node rest =>
      let pager := { s.tree.pager with pages := Function.update s.tree.pager.pages pageId node }
      { s with tree := { s.tree with pager := pager }
               phase := .measuring pageId rest, wiped := s.wiped || rest.isNone }
    | .syncing initialised => { s with phase := if initialised then .opened else .checking }
    | _ => s
  else
    { s with published := true
             tree := { s.tree with pager := { s.tree.pager with fileLength := s.onDisk } } }

section Replay

variable [LinearOrder K] (timestamp : Nat → Int)

/-- The next step of `BPlusTree::open`. -/
def proceed (s : Opening K V) : Opening K V :=
  match s.phase with
  | .replay [] => { s with phase := .syncing false }
  | .replay (x :: rest) =>
    match x.1 with
    | .pageUpdate pageId data => { s with phase := .writing pageId data (some rest) }
    | .recordUpdate key data =>
      let memoryTier := s.tree.memoryTier.insert (timestamp x.2) key data
      { s with tree := { s.tree with memoryTier := memoryTier }, phase := .replay rest }
    | _ => { s with phase := .replay rest }
  | .measuring pageId rest => { s with phase := .lengthening pageId s.tree.pager.fileLength rest }
  | .lengthening pageId len rest =>
    let offset := pageId * pageSize
    let fileLength := if offset ≥ len then offset + pageSize else s.tree.pager.fileLength
    { s with tree := { s.tree with pager := { s.tree.pager with fileLength := fileLength } }
             phase := match rest with
               | some rest => .replay rest
               | none => .syncing true }
  | .checking =>
    if s.tree.pager.numPages = 0 then { s with phase := .writing rootPageId .newLeaf none }
    else { s with phase := .opened }
  | .writing .. | .syncing _ | .opened => s

/-- Take a step. -/
def step (s : Opening K V) : OpenStep → Opening K V
  | .pagerThread => s.serve
  | .caller => s.proceed timestamp

/-- Take steps one after another. -/
def run (s : Opening K V) (steps : List OpenStep) : Opening K V := steps.foldl (step timestamp) s

/-- `BPlusTree::open` on a page file and the entries of a log. -/
def start (entries : List (WalEntry K V)) (pager : Pager K V) (memoryTier : MemoryTier K V) :
    Opening K V where
  tree := { pager := { pager with fileLength := 0 }, memoryTier := memoryTier }
  onDisk := pager.fileLength
  phase := if entries.isEmpty then .checking else .replay entries.zipIdx

/-- The number of pages is checked only after the thread has published the length. -/
def ChecksInTime (s : Opening K V) : List OpenStep → Prop
  | [] => True
  | x :: steps =>
    (match s.phase, x with
      | .checking, .caller => s.published = true
      | _, _ => True) ∧ ChecksInTime (s.step timestamp x) steps

/-! ### What is ahead -/

/-- Apply an entry of the log. -/
def applied (t : BPlusTree K V) (x : WalEntry K V × Nat) : BPlusTree K V :=
  match x.1 with
  | .pageUpdate pageId data => { t with pager := t.pager.writePage pageId data }
  | .recordUpdate key data =>
    { t with memoryTier := t.memoryTier.insert (timestamp x.2) key data }
  | _ => t

/-- The tree with the length that the thread has published or will publish. -/
def current (s : Opening K V) : BPlusTree K V :=
  if s.published then s.tree
  else { s.tree with pager := { s.tree.pager with fileLength := s.onDisk } }

/-- The tree at the end of the replay, or once the initial root is written. -/
def ahead (s : Opening K V) : BPlusTree K V :=
  match s.phase with
  | .replay rest => rest.foldl (applied timestamp) s.current
  | .writing pageId node rest => (rest.getD []).foldl (applied timestamp)
      { s.current with pager := s.current.pager.writePage pageId node }
  | .measuring pageId rest | .lengthening pageId _ rest => (rest.getD []).foldl (applied timestamp)
      { s.current with pager := s.current.pager.lengthen pageId }
  | .syncing _ | .checking | .opened => s.current

end Replay

/-- Before the length is published it is zero, and no request has been answered. -/
structure Sound (s : Opening K V) : Prop where
  unpublished : s.published = false → s.tree.pager.fileLength = 0
  answered : match s.phase with
    | .measuring .. | .opened => s.published = true
    | .lengthening _ len _ => s.published = true ∧ len = s.tree.pager.fileLength
    | _ => True

/-- A step of the pager thread. -/
theorem Sound.serve {s : Opening K V} (h : s.Sound) : s.serve.Sound := by
  rw [Opening.serve]
  split
  · rename_i hpub
    cases hphase : s.phase with
    | writing pageId node rest => exact ⟨fun hno ↦ absurd (hpub.symm.trans hno) (by decide), hpub⟩
    | syncing initialised =>
      refine ⟨h.unpublished, ?_⟩
      cases initialised
      · exact trivial
      · exact hpub
    | replay | measuring | lengthening | checking | opened => exact h
  · rename_i hpub
    refine ⟨nofun, ?_⟩
    have hanswered := h.answered
    cases hphase : s.phase with
    | lengthening pageId len rest =>
      rw [hphase] at hanswered
      exact absurd hanswered.1 hpub
    | measuring | opened => rfl
    | replay | writing | syncing | checking => trivial

theorem current_of_published {s : Opening K V} (h : s.published = true) : s.current = s.tree := by
  rw [current, if_pos h]

section Replay

variable [LinearOrder K] {timestamp : Nat → Int}

/-- **The pager thread** changes nothing of what is ahead. -/
theorem ahead_serve (s : Opening K V) : s.serve.ahead timestamp = s.ahead timestamp := by
  rw [serve]
  split
  · rename_i hpub
    cases hphase : s.phase with
    | writing pageId node rest =>
      simp only [ahead, hphase, current, if_pos hpub]
      rfl
    | syncing initialised =>
      simp only [ahead, hphase]
      cases initialised <;> rfl
    | replay | measuring | lengthening | checking | opened => rfl
  · rename_i hpub
    have hcurrent : ({ s with published := true, tree := { s.tree with
        pager := { s.tree.pager with fileLength := s.onDisk } } } : Opening K V).current = s.current := by
      rw [current, current, if_pos rfl, if_neg hpub]
    simp only [ahead, hcurrent]

/-- **The caller** changes nothing of what is ahead, except at the check of the number of pages. -/
theorem ahead_proceed {s : Opening K V} (h : s.Sound)
    (hcheck : s.phase = .checking → s.tree.pager.numPages ≠ 0) :
    (s.proceed timestamp).ahead timestamp = s.ahead timestamp := by
  have hanswered := h.answered
  rw [proceed]
  cases hphase : s.phase with
  | replay rest =>
    rcases rest with - | ⟨⟨entry, n⟩, rest⟩
    · simp only [ahead, hphase, current, List.foldl_nil]
    · cases entry with
      | pageUpdate pageId data =>
        simp only [ahead, hphase, List.foldl_cons, current, Option.getD_some, applied]
      | recordUpdate key data =>
        simp only [ahead, hphase, List.foldl_cons, current, applied]
        split <;> rfl
      | transactionStart | transactionCommit | transactionRollback =>
        simp only [ahead, hphase, List.foldl_cons, current, applied]
  | measuring pageId rest => simp only [ahead, hphase, current]
  | lengthening pageId len rest =>
    rw [hphase] at hanswered
    obtain ⟨hpub, rfl⟩ := hanswered
    rcases rest with - | rest <;>
      simp only [ahead, hphase, current, if_pos hpub, Pager.lengthen, Option.getD_none,
        Option.getD_some, List.foldl_nil]
  | checking =>
    dsimp only
    rw [if_neg (hcheck hphase)]
    simp only [ahead, hphase, current]
  | writing | syncing | opened => rfl

/-- Every step of the caller keeps it sound. -/
theorem Sound.proceed {s : Opening K V} (h : s.Sound) : (s.proceed timestamp).Sound := by
  have hanswered := h.answered
  rw [Opening.proceed]
  cases hphase : s.phase with
  | replay rest =>
    rcases rest with - | ⟨⟨entry, n⟩, rest⟩
    · exact ⟨h.unpublished, trivial⟩
    · cases entry <;> exact ⟨h.unpublished, trivial⟩
  | measuring pageId rest =>
    rw [hphase] at hanswered
    exact ⟨h.unpublished, hanswered, rfl⟩
  | lengthening pageId len rest =>
    rw [hphase] at hanswered
    refine ⟨fun hno ↦ absurd (hanswered.1.symm.trans hno) (by decide), ?_⟩
    rcases rest with - | rest <;> exact trivial
  | checking =>
    dsimp only
    split
    · exact ⟨h.unpublished, trivial⟩
    · rename_i hpages
      refine ⟨h.unpublished, ?_⟩
      by_contra hno
      rw [Pager.numPages, h.unpublished (eq_false_of_ne_true hno)] at hpages
      exact hpages rfl
  | writing | syncing | opened => exact ⟨h.unpublished, by rw [hphase] at hanswered ⊢; exact hanswered⟩

/-! ### The check -/

/-- The check of the number of pages has not been made. -/
def isEarly : OpenPhase K V → Bool
  | .replay _ | .writing _ _ (some _) | .measuring _ (some _) | .lengthening _ _ (some _)
  | .syncing false | .checking => true
  | _ => false

/-- The check has found no page. -/
def isLate (wiped : Bool) : OpenPhase K V → Prop
  | .writing _ _ none => True
  | .measuring _ none | .lengthening _ _ none | .syncing true | .opened => wiped = true
  | _ => False

variable (timestamp) in
/-- Before the check, with the tree `t` ahead. If the log has an entry, the thread has answered a
request by the time of the check. -/
structure Before (logged : Prop) (t : BPlusTree K V) (s : Opening K V) : Prop where
  sound : s.Sound
  early : isEarly s.phase = true
  ahead : s.ahead timestamp = t
  wiped : s.wiped = false
  inTime : logged → s.phase = .checking → s.published = true

variable (timestamp) in
/-- Past the check, with an empty root ahead. -/
structure Wiping (t : BPlusTree K V) (s : Opening K V) : Prop where
  sound : s.Sound
  ahead : s.ahead timestamp = { t with pager := t.pager.writePage rootPageId .newLeaf }
  phase : isLate s.wiped s.phase

/-- Past the check, with no empty root. -/
structure Kept (t : BPlusTree K V) (s : Opening K V) : Prop where
  published : s.published = true
  phase : s.phase = .opened
  wiped : s.wiped = false
  tree : s.tree = t

theorem Wiping.step {t : BPlusTree K V} {s : Opening K V} (h : s.Wiping timestamp t)
    (x : OpenStep) : (s.step timestamp x).Wiping timestamp t := by
  have hphase := h.phase
  cases x with
  | pagerThread =>
    refine ⟨h.sound.serve, (ahead_serve s).trans h.ahead, ?_⟩
    rw [Opening.step, serve]
    by_cases hpub : s.published = true
    · rw [if_pos hpub]
      cases hp : s.phase with
      | writing pageId node rest =>
        rw [hp] at hphase
        rcases rest with - | rest
        · exact Bool.or_true _
        · exact hphase.elim
      | syncing initialised =>
        rw [hp] at hphase
        cases initialised
        · exact hphase.elim
        · exact hphase
      | measuring | lengthening | opened | replay | checking => exact hphase
    · rw [if_neg hpub]
      exact hphase
  | caller =>
    have hcheck : s.phase ≠ .checking := by
      intro hp
      rw [hp] at hphase
      exact hphase
    refine ⟨h.sound.proceed, (ahead_proceed h.sound fun hp ↦ absurd hp hcheck).trans h.ahead, ?_⟩
    rw [Opening.step, proceed]
    cases hp : s.phase with
    | measuring pageId rest =>
      rw [hp] at hphase
      rcases rest with - | rest
      · exact hphase
      · exact hphase.elim
    | lengthening pageId len rest =>
      rw [hp] at hphase
      rcases rest with - | rest
      · exact hphase
      · exact hphase.elim
    | checking => exact absurd hp hcheck
    | replay => rw [hp] at hphase; exact hphase.elim
    | writing | syncing | opened => exact hphase

theorem Kept.step {t : BPlusTree K V} {s : Opening K V} (h : s.Kept t) (x : OpenStep) :
    s.step timestamp x = s := by
  cases x with
  | pagerThread =>
    rw [Opening.step, serve, if_pos h.published, h.phase]
  | caller => rw [Opening.step, proceed, h.phase]

/-- A step before the check is followed by more before the check, unless it is the check. -/
theorem Before.step {logged : Prop} {t : BPlusTree K V} {s : Opening K V}
    (h : s.Before timestamp logged t) (x : OpenStep)
    (hx : ¬ (s.phase = .checking ∧ x = .caller)) :
    (s.step timestamp x).Before timestamp logged t := by
  have hearly := h.early
  cases x with
  | pagerThread =>
    by_cases hpub : s.published = true
    · have hserve : isEarly s.serve.phase = true ∧ s.serve.wiped = false := by
        rw [serve, if_pos hpub]
        cases hp : s.phase with
        | writing pageId node rest =>
          rw [hp] at hearly
          rcases rest with - | rest
          · cases hearly
          · exact ⟨rfl, by rw [h.wiped]; rfl⟩
        | syncing initialised =>
          rw [hp] at hearly
          cases initialised
          · exact ⟨rfl, h.wiped⟩
          · cases hearly
        | measuring | lengthening | opened | replay | checking => exact ⟨hearly, h.wiped⟩
      refine ⟨h.sound.serve, hserve.1, (ahead_serve s).trans h.ahead, hserve.2, fun _ _ ↦ ?_⟩
      rw [Opening.step, serve, if_pos hpub]
      split <;> exact hpub
    · refine ⟨h.sound.serve, ?_, (ahead_serve s).trans h.ahead, ?_, fun _ _ ↦ ?_⟩ <;>
        rw [Opening.step, serve, if_neg hpub]
      · exact hearly
      · exact h.wiped
  | caller =>
    have hcheck : s.phase ≠ .checking := fun hp ↦ hx ⟨hp, rfl⟩
    have hproceed : isEarly (s.proceed timestamp).phase = true ∧ (s.proceed timestamp).wiped = false ∧
        (s.proceed timestamp).phase ≠ .checking := by
      rw [proceed]
      cases hp : s.phase with
      | replay rest =>
        rcases rest with - | ⟨⟨entry, n⟩, rest⟩
        · exact ⟨rfl, h.wiped, nofun⟩
        · cases entry <;> exact ⟨rfl, h.wiped, nofun⟩
      | measuring pageId rest =>
        rw [hp] at hearly
        rcases rest with - | rest
        · cases hearly
        · exact ⟨rfl, h.wiped, nofun⟩
      | lengthening pageId len rest =>
        rw [hp] at hearly
        rcases rest with - | rest
        · cases hearly
        · exact ⟨rfl, h.wiped, nofun⟩
      | checking => exact absurd hp hcheck
      | writing | syncing | opened => exact ⟨hearly, h.wiped, hcheck⟩
    exact ⟨h.sound.proceed, hproceed.1,
      (ahead_proceed h.sound fun hp ↦ absurd hp hcheck).trans h.ahead, hproceed.2.1,
      fun _ hp ↦ absurd hp hproceed.2.2⟩

/-- **The check** finds pages if the length is published and there are some. -/
theorem Before.check {logged : Prop} {t : BPlusTree K V} {s : Opening K V}
    (h : s.Before timestamp logged t) (hphase : s.phase = .checking) :
    (s.published = true ∧ t.pager.numPages ≠ 0 → (s.step timestamp .caller).Kept t) ∧
      (¬ (s.published = true ∧ t.pager.numPages ≠ 0) →
        (s.step timestamp .caller).Wiping timestamp t) := by
  have hahead : s.current = t := by
    have hahead := h.ahead
    rw [Opening.ahead, hphase] at hahead
    exact hahead
  have htree : s.published = true → s.tree = t := fun hpub ↦ by
    rw [← hahead, current_of_published hpub]
  refine ⟨fun ⟨hpub, hpages⟩ ↦ ?_, fun hmiss ↦ ?_⟩
  · rw [← htree hpub] at hpages
    rw [Opening.step, proceed, hphase]
    dsimp only
    rw [if_neg hpages]
    exact ⟨hpub, rfl, h.wiped, htree hpub⟩
  · have hpages : s.tree.pager.numPages = 0 := by
      by_cases hpub : s.published = true
      · rw [htree hpub]
        by_contra hpages
        exact hmiss ⟨hpub, hpages⟩
      · rw [Pager.numPages, h.sound.unpublished (eq_false_of_ne_true hpub)]
        rfl
    rw [Opening.step]
    refine ⟨h.sound.proceed, ?_, ?_⟩ <;> rw [proceed, hphase] <;> dsimp only <;> rw [if_pos hpages]
    · rw [← hahead]
      rfl
    · trivial

/-- Past the check there is no other one. -/
theorem Wiping.run {t : BPlusTree K V} : ∀ (steps : List OpenStep) {s : Opening K V},
    s.Wiping timestamp t →
    (s.run timestamp steps).Wiping timestamp t ∧ s.ChecksInTime timestamp steps
  | [], _, h => ⟨h, trivial⟩
  | x :: steps, s, h => by
    obtain ⟨hrun, hchecks⟩ := Wiping.run steps (h.step x)
    refine ⟨hrun, ?_, hchecks⟩
    split
    · rename_i hphase
      have hlate := h.phase
      rw [hphase] at hlate
      exact hlate.elim
    · trivial

theorem Kept.run {t : BPlusTree K V} : ∀ (steps : List OpenStep) {s : Opening K V}, s.Kept t →
    s.run timestamp steps = s ∧ s.ChecksInTime timestamp steps
  | [], _, _ => ⟨rfl, trivial⟩
  | x :: steps, s, h => by
    have hstep : s.step timestamp x = s := h.step x
    obtain ⟨hrun, hchecks⟩ : s.run timestamp steps = s ∧ s.ChecksInTime timestamp steps :=
      Kept.run steps h
    refine ⟨?_, ?_, by rw [hstep]; exact hchecks⟩
    · rw [Opening.run, List.foldl_cons, hstep]
      exact hrun
    · split
      · rename_i hphase
        rw [h.phase] at hphase
        cases hphase
      · trivial

/-- A run up to the end of the open either makes the check in time and finds pages, and keeps the root,
or it does not, and the root is an empty leaf. -/
theorem Before.run {logged : Prop} {t : BPlusTree K V} : ∀ (steps : List OpenStep) {s : Opening K V},
    s.Before timestamp logged t → (s.run timestamp steps).phase = .opened →
    (s.ChecksInTime timestamp steps ∧ t.pager.numPages ≠ 0) ∧ (s.run timestamp steps).Kept t ∨
    ¬ (s.ChecksInTime timestamp steps ∧ t.pager.numPages ≠ 0) ∧
      (s.run timestamp steps).Wiping timestamp t
  | [], s, h, hopened => by
    have hearly := h.early
    rw [show s.phase = .opened from hopened] at hearly
    cases hearly
  | x :: steps, s, h, hopened => by
    by_cases hx : s.phase = .checking ∧ x = .caller
    · obtain ⟨hphase, rfl⟩ := hx
      have htime : s.ChecksInTime timestamp (.caller :: steps) ↔
          s.published = true ∧ (s.step timestamp .caller).ChecksInTime timestamp steps := by
        rw [ChecksInTime]
        exact hphase
      by_cases hfinds : s.published = true ∧ t.pager.numPages ≠ 0
      · have hkept := (h.check hphase).1 hfinds
        obtain ⟨hrun, hchecks⟩ : (s.step timestamp .caller).run timestamp steps =
            s.step timestamp .caller ∧ (s.step timestamp .caller).ChecksInTime timestamp steps :=
          hkept.run steps
        refine Or.inl ⟨⟨htime.2 ⟨hfinds.1, hchecks⟩, hfinds.2⟩, ?_⟩
        rw [Opening.run, List.foldl_cons, ← Opening.run, hrun]
        exact hkept
      · have hwiping := (h.check hphase).2 hfinds
        exact Or.inr ⟨fun hboth ↦ hfinds ⟨(htime.1 hboth.1).1, hboth.2⟩, (hwiping.run steps).1⟩
    · have htime : s.ChecksInTime timestamp (x :: steps) ↔
          (s.step timestamp x).ChecksInTime timestamp steps := by
        rw [ChecksInTime]
        · exact and_iff_right trivial
        · exact fun hphase hcaller ↦ hx ⟨hphase, hcaller⟩
      rw [htime]
      exact Before.run steps (h.step x hx) hopened

/-- With an entry in the log the check is always in time. -/
theorem Before.checksInTime {logged : Prop} {t : BPlusTree K V} (hlog : logged) :
    ∀ (steps : List OpenStep) {s : Opening K V}, s.Before timestamp logged t →
      s.ChecksInTime timestamp steps
  | [], _, _ => trivial
  | x :: steps, s, h => by
    by_cases hx : s.phase = .checking ∧ x = .caller
    · obtain ⟨hphase, rfl⟩ := hx
      have hrest : (s.step timestamp .caller).ChecksInTime timestamp steps := by
        by_cases hfinds : s.published = true ∧ t.pager.numPages ≠ 0
        · exact (((h.check hphase).1 hfinds).run steps).2
        · exact (((h.check hphase).2 hfinds).run steps).2
      rw [ChecksInTime]
      · exact ⟨h.inTime hlog hphase, hrest⟩
      · exact hphase
    · refine ⟨?_, Before.checksInTime hlog steps (h.step x hx)⟩
      split
      · rename_i hphase
        exact absurd ⟨hphase, rfl⟩ hx
      · trivial

/-! ### Opening -/

variable (timestamp) in
/-- The tree behind the replay of the log. -/
def replayed (entries : List (WalEntry K V)) (pager : Pager K V) (memoryTier : MemoryTier K V) :
    BPlusTree K V :=
  entries.zipIdx.foldl (applied timestamp) { pager := pager, memoryTier := memoryTier }

theorem before_start (entries : List (WalEntry K V)) (pager : Pager K V) (tier : MemoryTier K V) :
    (start entries pager tier).Before timestamp (entries ≠ []) (replayed timestamp entries pager tier) := by
  rcases entries with - | ⟨entry, entries⟩
  · exact ⟨⟨fun _ ↦ rfl, trivial⟩, rfl, rfl, rfl, fun h ↦ absurd rfl h⟩
  · exact ⟨⟨fun _ ↦ rfl, trivial⟩, rfl, rfl, rfl, nofun⟩

/-- With an entry in the log the thread has published the length by the time of the check, as
`BPlusTree::open` has waited for an answer. -/
theorem checksInTime_of_log {entries : List (WalEntry K V)} (hlog : entries ≠ []) (pager : Pager K V)
    (tier : MemoryTier K V) (steps : List OpenStep) :
    (start entries pager tier).ChecksInTime timestamp steps :=
  Before.checksInTime hlog steps (before_start entries pager tier)

/-- If the check is in time, the open makes of the files what `reopen` makes of them. -/
theorem opened_eq_reopen {entries : List (WalEntry K V)} {pager : Pager K V} {tier : MemoryTier K V}
    {steps : List OpenStep} (hopened : ((start entries pager tier).run timestamp steps).phase = .opened)
    (htime : (start entries pager tier).ChecksInTime timestamp steps) :
    ((start entries pager tier).run timestamp steps).tree = reopen timestamp entries pager tier := by
  have hreopen : reopen timestamp entries pager tier =
      if (replayed timestamp entries pager tier).pager.numPages = 0 then
        { replayed timestamp entries pager tier with
          pager := (replayed timestamp entries pager tier).pager.writePage rootPageId .newLeaf }
      else replayed timestamp entries pager tier := rfl
  rw [hreopen]
  rcases (before_start entries pager tier).run steps hopened with ⟨⟨-, hpages⟩, hkept⟩ | ⟨hmiss, hwiping⟩
  · rw [if_neg hpages]
    exact hkept.tree
  · have hpages : (replayed timestamp entries pager tier).pager.numPages = 0 := by
      by_contra hpages
      exact hmiss ⟨htime, hpages⟩
    have hanswered := hwiping.sound.answered
    have hahead := hwiping.ahead
    rw [hopened] at hanswered
    rw [ahead, hopened] at hahead
    rw [if_pos hpages, ← hahead]
    exact (current_of_published hanswered).symm

/-- **When opening keeps the root.** However the steps of the pager thread and of `BPlusTree::open`
interleave: the root page ends up with its newest image in the log, or else as it was, and no empty
root was written, if and only if the pages were counted after the thread had published the length of the
file, and the file behind the replay does not have zero pages as a `u32`. -/
theorem open_keeps_root_iff (entries : List (WalEntry K V)) (pager : Pager K V) (tier : MemoryTier K V)
    (steps : List OpenStep) (s : Opening K V) (hs : (start entries pager tier).run timestamp steps = s)
    (hopened : s.phase = .opened) :
    s.tree.pager.pages rootPageId =
        (newestImage entries rootPageId).getD (pager.pages rootPageId) ∧ s.wiped = false ↔
      (start entries pager tier).ChecksInTime timestamp steps ∧
        (replayed timestamp entries pager tier).pager.numPages ≠ 0 := by
  subst hs
  rcases (before_start entries pager tier).run steps hopened with ⟨hboth, hkept⟩ | ⟨hmiss, hwiping⟩
  · refine ⟨fun _ ↦ hboth, fun _ ↦ ⟨?_, hkept.wiped⟩⟩
    rw [hkept.tree]
    exact (replay_pages timestamp entries 0 _ _ rfl).1 rootPageId
  · refine ⟨fun ⟨_, hwiped⟩ ↦ ?_, fun hboth ↦ absurd hboth hmiss⟩
    have hlate := hwiping.phase
    rw [hopened] at hlate
    exact absurd (hlate.symm.trans hwiped) (by decide)

end Replay

/-! ### A file of one page -/

/-- A page file with one page, a leaf with one key. -/
def onePage : Pager Bytes Bytes where
  pages := Function.update (fun _ ↦ .newInternal) rootPageId
    { (Node.newLeaf : Node Bytes Bytes) with keys := [[1]], values := [[1]] }
  fileLength := pageSize

/-- The thread publishes the length late, and answers the request to sync behind the replay of a
record; the check is in time. -/
theorem open_keeps_onePage :
    let s := (start [.recordUpdate [2] [2]] onePage (.new 1024)).run (fun n ↦ n)
      [.caller, .caller, .pagerThread, .pagerThread, .caller]
    s.phase = .opened ∧ s.tree.pager.pages rootPageId = onePage.pages rootPageId ∧ s.wiped = false := by
  intro s
  have hopened : s.phase = .opened := rfl
  have hpages : (replayed (fun n ↦ n) [.recordUpdate [2] [2]] onePage (.new 1024)).pager.numPages ≠ 0 := by
    decide
  exact ⟨hopened, (open_keeps_root_iff _ onePage (.new 1024) _ s rfl hopened).2
    ⟨checksInTime_of_log (List.cons_ne_nil _ _) _ _ _, hpages⟩⟩

/-- **A wiped database.** With an empty log the number of pages is checked before the thread publishes
the length, and the root is replaced by an empty leaf. -/
theorem not_open_keeps_root : ¬ ∀ (timestamp : Nat → Int) (entries : List (WalEntry Bytes Bytes))
    (pager : Pager Bytes Bytes) (tier : MemoryTier Bytes Bytes) (steps : List OpenStep)
    (s : Opening Bytes Bytes), (start entries pager tier).run timestamp steps = s →
      pageSize ≤ pager.fileLength → s.phase = .opened →
      s.tree.pager.pages rootPageId =
        (newestImage entries rootPageId).getD (pager.pages rootPageId) ∧ s.wiped = false := by
  intro h
  have hroot := (h (fun n ↦ n) [] onePage (.new 1024) [.caller, .pagerThread, .pagerThread, .caller,
    .caller, .pagerThread] _ rfl (Nat.le_refl _) rfl).1
  exact absurd (congrArg Node.keys hroot) (by decide)

end Opening

end BPlusTree

end KsSql
