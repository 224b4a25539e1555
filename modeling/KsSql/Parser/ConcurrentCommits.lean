import KsSql.Parser.CommitErrors
import KsSql.Parser.Uncommitted

/-!
# Two commits at once

`COMMIT` checks its keys one by one, then increments the version counter, then installs its writes one
by one, and holds no lock meanwhile. `Committing` is a commit under way, whose steps are those of the
handler (`commit_eq_rest`, `rest_step`), and `CommitPair` two of them that take their steps in any
order.

Two transactions that began at the same version and write a common key can both commit: both check
the key before either installs it (`not_one_commit`). That takes a step at which the slower of the two
loses the last key that would stop it. Without such a step at most one of them returns
(`one_commit`): the commit that increments the counter first has a key to install that the other has
still to check, and that key stays in its way.
-/

namespace KsSql

open Engine

namespace Engine

variable {rt : Runtime} {e : Engine} {tx : Transaction} {key : Bytes}

/-- The test of `RejectsKey`. -/
def rejectsKey (rt : Runtime) (e : Engine) (tx : Transaction) (key : Bytes) : Bool :=
  match e.fetch rt key with
  | .ok (some data) => match rt.decodeRecord data with
    | .ok record => tx.snapshotVersion < record.version
    | .error _ => true
  | _ => false

theorem rejectsKey_iff : rejectsKey rt e tx key = true ↔ e.RejectsKey rt tx key := by
  unfold rejectsKey RejectsKey
  rcases e.fetch rt key with err | data | data
  · exact ⟨nofun, fun ⟨_, h, _⟩ ↦ nomatch h⟩
  · exact ⟨nofun, fun ⟨_, h, _⟩ ↦ nomatch h⟩
  · dsimp only
    rcases hrecord : rt.decodeRecord data with err | record
    · exact ⟨fun _ ↦ ⟨data, rfl, fun r hr ↦ by rw [hrecord] at hr; cases hr⟩, fun _ ↦ rfl⟩
    · rw [decide_eq_true_iff]
      refine ⟨fun h ↦ ⟨data, rfl, fun r hr ↦ ?_⟩, ?_⟩
      · rw [hrecord] at hr
        exact Except.ok.inj hr ▸ h
      · rintro ⟨_, hdata, h⟩
        obtain rfl := Option.some.inj (Except.ok.inj hdata)
        exact h record hrecord

instance : Decidable (e.RejectsKey rt tx key) := decidable_of_iff _ rejectsKey_iff

/-- A check changes nothing, and fails on a rejected key. -/
theorem wp_validateKey : Effect.wp (validateKey rt tx key)
    (fun _ t ↦ t = e ∧ ¬ e.RejectsKey rt tx key) (fun _ t ↦ t = e) e := by
  refine Effect.wp_bind ?_
  unfold Effect.wp fetchKey
  rcases hfetch : e.fetch rt key with err | data | data
  · rfl
  · refine ⟨rfl, ?_⟩
    rintro ⟨data, hdata, -⟩
    rw [hfetch] at hdata
    cases hdata
  · refine Effect.wp_bind (Effect.wp_ofExcept (fun record hrecord ↦ ?_) fun _ _ ↦ rfl)
    split
    · exact Effect.wp_throw rfl
    · rename_i hnewer
      refine Effect.wp_pure ⟨rfl, ?_⟩
      rintro ⟨d, hd, hreject⟩
      rw [hfetch] at hd
      obtain rfl := Option.some.inj (Except.ok.inj hd)
      exact hnewer (hreject record hrecord)

/-- An installation binds its key in the memory tier to a record of its version. -/
theorem wp_installKey {conn version : Nat} {update : Bytes × Data} :
    Effect.wp (installKey rt conn version update)
      (fun _ t ↦ t.btree.pager = e.btree.pager ∧ ∃ now r, r.version = version ∧
        t.btree.memoryTier = e.btree.memoryTier.insert now update.1 (.record r))
      (fun _ _ ↦ True) e := by
  refine Effect.wp_bind (Effect.wp_ofExcept (fun record _ ↦ ?_) fun _ _ ↦ trivial)
  exact Effect.wp_bind (Effect.wp_modify (wp_enqueue (fun _ ↦ ⟨rfl, _, _, rfl, rfl⟩) fun _ ↦ trivial))

end Engine

/-- A `COMMIT` under way. What a check finds is settled when it looks into the memory tier: the pages
that it may have to wait for do not change while only commits go on. -/
structure Committing where
  conn : Nat
  tx : Transaction
  /-- The keys that are still to be checked. -/
  toValidate : List Bytes
  /-- The value of the counter behind the increment, once it was made. -/
  version : Option Nat := none
  /-- The writes that are still to be installed. -/
  toInstall : List (Bytes × Data)
  /-- The error that it has returned. -/
  error : Option EngineError := none

namespace Committing

variable (rt : Runtime)

/-- A `COMMIT` that has taken its transaction from the open ones. -/
def opening (conn : Nat) (tx : Transaction) : Committing where
  conn := conn
  tx := tx
  toValidate := (rt.iterate tx.updates).map Prod.fst
  toInstall := rt.iterate tx.updates

/-- Take a step: check a key, or else increment the counter, or else install a write. A commit that is
over takes no more. -/
def step (c : Committing) (e : Engine) : Committing × Engine :=
  match c.error, c.toValidate, c.version, c.toInstall with
  | none, key :: keys, _, _ => match validateKey rt c.tx key e with
    | (.ok _, e) => ({ c with toValidate := keys }, e)
    | (.error err, e) => ({ c with error := some err }, e)
  | none, [], none, _ => ({ c with version := some e.bump.currentVersion }, e.bump)
  | none, [], some version, update :: updates => match installKey rt c.conn version update e with
    | (.ok _, e) => ({ c with toInstall := updates }, e)
    | (.error err, e) => ({ c with error := some err }, e)
  | _, _, _, _ => (c, e)

/-- It has returned `Ok`. -/
def ReturnsOk (c : Committing) : Prop :=
  c.error = none ∧ c.toValidate = [] ∧ c.version.isSome ∧ c.toInstall = []

instance (c : Committing) : Decidable c.ReturnsOk := inferInstanceAs (Decidable (_ ∧ _ ∧ _ ∧ _))

/-- What is left of the handler. -/
def rest (c : Committing) : Routine Unit := match c.error with
  | some err => Effect.throw err
  | none => do
    Effect.forEach c.toValidate (validateKey rt c.tx)
    match c.version with
    | some version => Effect.forEach c.toInstall (installKey rt c.conn version)
    | none => do
      Effect.modify bump
      let e ← Effect.get
      Effect.forEach c.toInstall (installKey rt c.conn e.currentVersion)

end Committing

/-- Two commits under way, over one engine. -/
structure CommitPair where
  engine : Engine
  commits : Bool → Committing

namespace CommitPair

variable (rt : Runtime)

/-- Two commits that have taken their transactions from the open ones. -/
def opening (e : Engine) (conn conn' : Nat) (tx tx' : Transaction) : CommitPair where
  engine := (e.closed conn).closed conn'
  commits second := if second then .opening rt conn' tx' else .opening rt conn tx

/-- One of the two takes a step. -/
def step (p : CommitPair) (b : Bool) : CommitPair where
  engine := ((p.commits b).step rt p.engine).2
  commits := Function.update p.commits b ((p.commits b).step rt p.engine).1

/-- Take steps one after another. -/
def run (p : CommitPair) (steps : List Bool) : CommitPair := steps.foldl (step rt) p

/-- The property holds of every step of a run, in the state before the step. -/
def Along (P : CommitPair → Bool → Prop) (p : CommitPair) : List Bool → Prop
  | [] => True
  | b :: steps => P p b ∧ Along P (p.step rt b) steps

instance decidableAlong (P : CommitPair → Bool → Prop) [∀ p, DecidablePred (P p)] :
    ∀ (steps : List Bool) (p : CommitPair), Decidable (p.Along rt P steps)
  | [], _ => .isTrue trivial
  | b :: steps, p =>
    have := decidableAlong P steps
    decidable_of_iff (P p b ∧ Along rt P (p.step rt b) steps) Iff.rfl

/-- The key is in the way of the other commit: this one is still to install it, or what is stored under
it is newer than the other's snapshot. -/
def Stops (p : CommitPair) (b : Bool) (key : Bytes) : Prop :=
  key ∈ (p.commits b).toInstall.map Prod.fst ∨ p.engine.RejectsKey rt (p.commits !b).tx key

instance (p : CommitPair) (b : Bool) (key : Bytes) : Decidable (p.Stops rt b key) :=
  inferInstanceAs (Decidable (_ ∨ _))

/-- The next step of a commit that has these keys left to check, this version and these writes left to
install keeps something in the way of the slower of the two. Behind the increment of the other, the
last key in the way is checked only where it is rejected; an increment finds a key in the way of the
other; and an installation does not evict the last one. -/
def Keeps (p : CommitPair) (b : Bool) : List Bytes → Option Nat → List (Bytes × Data) → Prop
  | key :: keys, _, _ => (p.commits !b).version.isSome →
    p.engine.RejectsKey rt (p.commits b).tx key ∨ ∃ k ∈ keys, p.Stops rt (!b) k
  | [], none, _ => (p.commits !b).tx.snapshotVersion < p.engine.bump.currentVersion ∧
    ∃ k ∈ (p.commits !b).toValidate, p.Stops rt b k
  | [], some _, updates => updates ≠ [] → ∃ k ∈ (p.commits !b).toValidate,
    k ∈ updates.map Prod.fst ∨
      p.engine.RejectsKey rt (p.commits !b).tx k ∧ p.engine.btree.memoryTier.Spares k

instance (p : CommitPair) (b : Bool) : ∀ keys version updates,
    Decidable (p.Keeps rt b keys version updates)
  | _ :: _, _, _ => inferInstanceAs (Decidable (_ → _ ∨ _))
  | [], none, _ => inferInstanceAs (Decidable (_ ∧ _))
  | [], some _, _ => inferInstanceAs (Decidable (_ → _))

/-- Unless one of the two has failed, the step keeps something in the way of the slower one. -/
def KeepsStop (p : CommitPair) (b : Bool) : Prop :=
  (p.commits b).error = none → (p.commits !b).error = none →
    p.Keeps rt b (p.commits b).toValidate (p.commits b).version (p.commits b).toInstall

instance : ∀ p, DecidablePred (KeepsStop rt p) := fun _ _ ↦ inferInstanceAs (Decidable (_ → _ → _))

end CommitPair

/-! ### What a step does -/

namespace Committing

variable {rt : Runtime} {c : Committing} {e : Engine}

/-- What a step can do. -/
inductive Stepped (rt : Runtime) (c : Committing) (e : Engine) : Committing → Engine → Prop
  | idles : c.error ≠ none ∨ c.ReturnsOk → Stepped rt c e c e
  | fails (err : EngineError) (e' : Engine) : c.error = none →
    Stepped rt c e { c with error := some err } e'
  | checks {key : Bytes} {keys : List Bytes} : c.error = none → c.toValidate = key :: keys →
    ¬ e.RejectsKey rt c.tx key → Stepped rt c e { c with toValidate := keys } e
  | increments : c.error = none → c.toValidate = [] → c.version = none →
    Stepped rt c e { c with version := some e.bump.currentVersion } e.bump
  | installs {version : Nat} {update : Bytes × Data} {updates : List (Bytes × Data)} {e' : Engine}
      {now : Int} {r : Record} : c.error = none → c.toValidate = [] → c.version = some version →
    c.toInstall = update :: updates → e'.btree.pager = e.btree.pager → r.version = version →
    e'.btree.memoryTier = e.btree.memoryTier.insert now update.1 (.record r) →
    Stepped rt c e { c with toInstall := updates } e'

theorem stepped (c : Committing) (e : Engine) :
    Stepped rt c e (c.step rt e).1 (c.step rt e).2 := by
  obtain ⟨conn, tx, keys, version, updates, error⟩ := c
  rw [step]
  dsimp only
  rcases error with - | err
  · rcases keys with - | ⟨key, keys⟩
    · rcases version with - | version
      · exact .increments rfl rfl rfl
      · rcases updates with - | ⟨update, updates⟩
        · exact .idles (Or.inr ⟨rfl, rfl, rfl, rfl⟩)
        · dsimp only
          rcases hinstall : installKey rt conn version update e with ⟨err | u, e'⟩
          · exact .fails err e' rfl
          · obtain ⟨hpager, now, r, hr, htier⟩ := Effect.of_wp_ok wp_installKey hinstall
            exact .installs rfl rfl rfl rfl hpager hr htier
    · dsimp only
      rcases hvalidate : validateKey rt tx key e with ⟨err | u, e'⟩
      · exact .fails err e' rfl
      · obtain ⟨rfl, hpass⟩ := Effect.of_wp_ok wp_validateKey hvalidate
        exact .checks rfl rfl hpass
  · exact .idles (Or.inl (Option.some_ne_none err))

/-- The rest of the handler runs on from a step as it would have run. -/
theorem rest_step (c : Committing) (e : Engine) :
    (c.step rt e).1.rest rt (c.step rt e).2 = c.rest rt e := by
  obtain ⟨conn, tx, keys, version, updates, error⟩ := c
  rw [step]
  dsimp only
  rcases error with - | err
  · rcases keys with - | ⟨key, keys⟩
    · rcases version with - | version
      · rfl
      · rcases updates with - | ⟨update, updates⟩
        · rfl
        · show _ = Effect.bind (installKey rt conn version update)
            (fun _ ↦ Effect.forEach updates (installKey rt conn version)) e
          dsimp only
          rw [Effect.bind]
          rcases installKey rt conn version update e with ⟨err | u, e'⟩ <;> rfl
    · show _ = Effect.bind (Effect.bind (validateKey rt tx key)
        (fun _ ↦ Effect.forEach keys (validateKey rt tx))) _ e
      dsimp only
      rw [Effect.bind, Effect.bind]
      rcases validateKey rt tx key e with ⟨err | u, e'⟩ <;> rfl
  · rfl

/-- Nothing is left of a commit that has returned. -/
theorem rest_of_returnsOk (h : c.ReturnsOk) : c.rest rt e = (.ok (), e) := by
  obtain ⟨conn, tx, keys, version, updates, error⟩ := c
  obtain ⟨herror, hkeys, hversion, hupdates⟩ := h
  obtain ⟨version, rfl⟩ := Option.isSome_iff_exists.1 hversion
  dsimp only at herror hkeys hupdates
  subst herror hkeys hupdates
  rfl

theorem rest_of_error {err : EngineError} (h : c.error = some err) : c.rest rt e = (.error err, e) := by
  rw [rest, h]
  rfl

/-- **`COMMIT`** takes its transaction from the open ones and runs to the end. -/
theorem commit_eq_rest {conn : Nat} {tx : Transaction}
    (hopen : e.activeTransactions.lookup conn = some tx) :
    commit rt conn e = Effect.bind ((opening rt conn tx).rest rt)
      (fun _ ↦ Effect.pure { output := bytes "Transaction committed", flush := true })
      (e.closed conn) := by
  rw [commit, Effect.get_bind, hopen]
  show Effect.bind (Effect.forEach (opening rt conn tx).toValidate (validateKey rt tx)) _
    (e.closed conn) = Effect.bind (Effect.bind (Effect.forEach (opening rt conn tx).toValidate
      (validateKey rt tx)) fun _ ↦ Effect.bind (Effect.modify bump) fun _ ↦ Effect.bind Effect.get _)
    _ (e.closed conn)
  rw [Effect.bind_assoc]
  rfl

end Committing

namespace CommitPair

variable {rt : Runtime} {p : CommitPair}

/-- What is known of the two commits while the steps keep something in the way of the slower one. -/
structure Ordered (rt : Runtime) (p : CommitPair) : Prop where
  checked : ∀ b, (p.commits b).version ≠ none → (p.commits b).toValidate = []
  stopped : (∀ b, (p.commits b).error = none) → ∀ b version, (p.commits b).version = some version →
    (p.commits !b).tx.snapshotVersion < version ∧ ∃ key ∈ (p.commits !b).toValidate, p.Stops rt b key

/-- At most one of them has returned. -/
theorem Ordered.not_both (h : p.Ordered rt) :
    ¬ ((p.commits false).ReturnsOk ∧ (p.commits true).ReturnsOk) := by
  rintro ⟨⟨herror, hkeys, hversion, -⟩, herror', hkeys', -, -⟩
  obtain ⟨version, hversion⟩ := Option.isSome_iff_exists.1 hversion
  obtain ⟨-, key, hmem, -⟩ := h.stopped (Bool.forall_bool.2 ⟨herror, herror'⟩) false version hversion
  rw [Bool.not_false, hkeys'] at hmem
  cases hmem

theorem forall_commit {P : Bool → Prop} (b : Bool) (h : P b) (h' : P !b) : ∀ b', P b' := by
  intro b'
  cases b <;> cases b' <;> first | exact h | exact h'

/-- An installation puts its key in the way, and leaves what it does not evict. -/
theorem rejectsKey_of_install {e e' : Engine} {tx : Transaction} {now : Int} {k key : Bytes}
    {r : Record} (hpager : e'.btree.pager = e.btree.pager)
    (htier : e'.btree.memoryTier = e.btree.memoryTier.insert now key (.record r))
    (hnewer : tx.snapshotVersion < r.version)
    (hk : k = key ∨ e.RejectsKey rt tx k ∧ e.btree.memoryTier.Spares k) :
    e'.RejectsKey rt tx k := by
  by_cases hkey : k = key
  · refine ⟨.record r, ?_, fun record hrecord ↦ Except.ok.inj hrecord ▸ hnewer⟩
    rw [fetch, BPlusTree.get, htier, hkey, MemoryTier.get_insert_self]
  · obtain ⟨⟨data, hdata, hreject⟩, hspares⟩ := hk.resolve_left hkey
    refine ⟨data, ?_, hreject⟩
    rw [← hdata, fetch, fetch, BPlusTree.get, BPlusTree.get, htier,
      MemoryTier.get_insert_of_spares hspares hkey, BPlusTree.getPages_congr rt.search hpager]

/-- Both commits, of which one took a step. -/
theorem ordered_of_step {q : CommitPair} {b : Bool} (h : p.Ordered rt) (hkeeps : p.KeepsStop rt b)
    (hother : q.commits (!b) = p.commits !b)
    (hstepped : Committing.Stepped rt (p.commits b) p.engine (q.commits b) q.engine) :
    q.Ordered rt := by
  have hchecked : (q.commits !b).version ≠ none → (q.commits !b).toValidate = [] := by
    rw [hother]
    exact h.checked !b
  generalize hself : q.commits b = c' at hstepped
  generalize hengine : q.engine = e' at hstepped
  cases hstepped with
  | idles hover =>
    obtain rfl : q = p := by
      obtain ⟨e, commits⟩ := q
      obtain rfl : commits = p.commits := funext (forall_commit b hself hother)
      obtain rfl : e = p.engine := hengine
      rfl
    exact h
  | fails err e' herror =>
    refine ⟨forall_commit b ?_ hchecked, fun hnone ↦ ?_⟩
    · rw [hself]
      exact h.checked b
    · have hfailed : (q.commits b).error = none := hnone b
      rw [hself] at hfailed
      cases hfailed
  | @checks key keys herror hkeys hpass =>
    have hnot : (p.commits b).version = none := by
      by_contra hversion
      have hnil := h.checked b hversion
      rw [hkeys] at hnil
      cases hnil
    refine ⟨forall_commit b ?_ hchecked, fun hnone ↦ forall_commit b ?_ ?_⟩
    · rw [hself]
      exact fun hversion ↦ absurd hnot hversion
    · rw [hself]
      intro version hversion
      rw [show (p.commits b).version = some version from hversion] at hnot
      cases hnot
    · -- the other commit is behind its increment, and this one has checked a key
      intro version hversion
      rw [hother] at hversion
      have herrors : ∀ b', (p.commits b').error = none := forall_commit b herror (hother ▸ hnone !b)
      obtain ⟨hnewer, -⟩ := h.stopped herrors (!b) version hversion
      have hleft := hkeeps herror (herrors !b)
      rw [hkeys] at hleft
      obtain ⟨k, hk, hstops⟩ := (hleft (by rw [hversion]; rfl)).resolve_left hpass
      rw [Bool.not_not] at hnewer ⊢
      rw [hself]
      refine ⟨hnewer, k, hk, ?_⟩
      rw [Stops, Bool.not_not] at hstops ⊢
      rw [hother, hself, hengine]
      exact hstops
  | increments herror hkeys hversion =>
    refine ⟨forall_commit b ?_ hchecked, fun hnone ↦ ?_⟩
    · rw [hself]
      exact fun _ ↦ hkeys
    have hleft := hkeeps herror (hother ▸ hnone !b)
    rw [hkeys, hversion] at hleft
    obtain ⟨hnewer, k, hk, hstops⟩ := hleft
    refine forall_commit b ?_ ?_
    · intro version heq
      rw [hself] at heq
      obtain rfl := Option.some.inj heq
      rw [hother]
      refine ⟨hnewer, k, hk, ?_⟩
      rw [Stops, hother, hself, hengine]
      exact hstops
    · intro version heq
      have hnil := hchecked (by rw [heq]; exact Option.some_ne_none _)
      rw [hother] at hnil
      rw [hnil] at hk
      cases hk
  | @installs version update updates e' now r herror hkeys hversion hupdates hpager hr htier =>
    refine ⟨forall_commit b ?_ hchecked, fun hnone ↦ ?_⟩
    · rw [hself]
      exact fun _ ↦ hkeys
    have herrors : ∀ b', (p.commits b').error = none := forall_commit b herror (hother ▸ hnone !b)
    have hleft := hkeeps herror (herrors !b)
    rw [hkeys, hversion, hupdates] at hleft
    obtain ⟨k, hk, hstays⟩ := hleft (List.cons_ne_nil _ _)
    refine forall_commit b ?_ ?_
    · intro version' heq
      rw [hself] at heq
      obtain ⟨hnewer, -⟩ := h.stopped herrors b version' heq
      obtain rfl := Option.some.inj (hversion.symm.trans heq)
      rw [hother]
      refine ⟨hnewer, k, hk, ?_⟩
      rw [Stops, hother, hself, hengine]
      -- the key that was just installed stops the other as a newer record
      rcases hstays with hmem | hrejects
      · rcases List.mem_cons.1 hmem with rfl | hmem
        · exact Or.inr (rejectsKey_of_install hpager htier (hr ▸ hnewer) (Or.inl rfl))
        · exact Or.inl hmem
      · exact Or.inr (rejectsKey_of_install hpager htier (hr ▸ hnewer) (Or.inr hrejects))
    · intro version' heq
      have hnil := hchecked (by rw [heq]; exact Option.some_ne_none _)
      rw [hother] at hnil
      rw [hnil] at hk
      cases hk

/-- **A step** keeps something in the way of the slower commit. -/
theorem Ordered.step (h : p.Ordered rt) {b : Bool} (hkeeps : p.KeepsStop rt b) :
    (p.step rt b).Ordered rt := by
  refine ordered_of_step h hkeeps (Function.update_of_ne (Bool.not_ne_self b) _ _) ?_
  rw [show (p.step rt b).commits b = _ from Function.update_self b _ p.commits]
  exact Committing.stepped (p.commits b) p.engine

/-- **A run** does so too. -/
theorem Ordered.run : ∀ {steps : List Bool} {p : CommitPair}, p.Ordered rt →
    p.Along rt (KeepsStop rt) steps → (p.run rt steps).Ordered rt
  | [], _, h, _ => h
  | b :: steps, p, h, hkeeps => by
    have hstep : (p.step rt b).Ordered rt := h.step hkeeps.1
    show ((p.step rt b).run rt steps).Ordered rt
    exact Ordered.run hstep hkeeps.2

theorem ordered_opening (e : Engine) (conn conn' : Nat) (tx tx' : Transaction) :
    (opening rt e conn conn' tx tx').Ordered rt where
  checked b h := by cases b <;> exact absurd rfl h
  stopped _ b version h := by cases b <;> cases h

/-- What is left of a commit that takes steps alone. -/
theorem rest_run_alone (b : Bool) : ∀ (n : Nat) (p : CommitPair),
    ((p.run rt (List.replicate n b)).commits b).rest rt (p.run rt (List.replicate n b)).engine =
      (p.commits b).rest rt p.engine
  | 0, _ => rfl
  | n + 1, p => by
    have hstep : ((p.step rt b).commits b).rest rt (p.step rt b).engine =
        (p.commits b).rest rt p.engine := by
      rw [show (p.step rt b).commits b = _ from Function.update_self b _ p.commits]
      exact Committing.rest_step (p.commits b) p.engine
    show (((p.step rt b).run rt (List.replicate n b)).commits b).rest rt
      ((p.step rt b).run rt (List.replicate n b)).engine = _
    rw [rest_run_alone b n (p.step rt b), hstep]

/-- **A commit that takes its steps alone** ends as `COMMIT` does. -/
theorem commit_eq_alone {e : Engine} {conn : Nat} {tx : Transaction} {b : Bool} {n : Nat}
    (hopen : e.activeTransactions.lookup conn = some tx) (hcommit : p.commits b = .opening rt conn tx)
    (hengine : p.engine = e.closed conn) :
    let q := p.run rt (List.replicate n b)
    ((q.commits b).ReturnsOk → commit rt conn e =
      (.ok { output := bytes "Transaction committed", flush := true }, q.engine)) ∧
    ∀ err, (q.commits b).error = some err → commit rt conn e = (.error err, q.engine) := by
  have hrest : ((p.run rt (List.replicate n b)).commits b).rest rt
      (p.run rt (List.replicate n b)).engine = (p.commits b).rest rt p.engine := rest_run_alone b n p
  rw [hcommit, hengine] at hrest
  refine ⟨fun hok ↦ ?_, fun err herr ↦ ?_⟩
  · rw [Committing.commit_eq_rest hopen, Effect.bind, ← hrest, Committing.rest_of_returnsOk hok]
    rfl
  · rw [Committing.commit_eq_rest hopen, Effect.bind, ← hrest, Committing.rest_of_error herr]

/-- **At most one of two commits returns**, where neither of them loses what would stop the slower one. -/
theorem one_commit {e : Engine} {conn conn' : Nat} {tx tx' : Transaction} {steps : List Bool}
    (hkeeps : (opening rt e conn conn' tx tx').Along rt (KeepsStop rt) steps) :
    let p := (opening rt e conn conn' tx tx').run rt steps
    ¬ ((p.commits false).ReturnsOk ∧ (p.commits true).ReturnsOk) :=
  ((ordered_opening e conn conn' tx tx').run hkeeps).not_both

/-! ### Two updates of a row -/

/-- Two transactions that have updated the same row. -/
def updateTwice : List Action :=
  updateInTransaction ++ [.call 2 .begin, .call 2 (updateOf "u" "id" "4" none)]

/-- One commit after the other. -/
def oneByOne : List Bool := [false, false, false, true]

/-- Both check before either increments. -/
def sideBySide : List Bool := [false, true, false, false, true, true]

/-- Of two commits one after the other, the first returns. -/
theorem one_commit_oneByOne : let _ := plainBincode []
    ∃ s tx tx', System.start.run .plain updateTwice = some s ∧
      s.engine.activeTransactions.lookup 1 = some tx ∧
      s.engine.activeTransactions.lookup 2 = some tx' ∧ (∃ key ∈ tx.updates.keys, key ∈ tx'.updates.keys) ∧
      let p := (opening .plain s.engine 1 2 tx tx').run .plain oneByOne
      (p.commits false).ReturnsOk ∧ (p.commits true).error = some .conflict ∧
        ¬ ((p.commits false).ReturnsOk ∧ (p.commits true).ReturnsOk) := by
  let _ := plainBincode []
  have hany : (System.start.run .plain updateTwice).any (fun s ↦
      (s.engine.activeTransactions.lookup 1).any fun tx ↦ (s.engine.activeTransactions.lookup 2).any fun tx' ↦
        let p := (opening .plain s.engine 1 2 tx tx').run .plain oneByOne
        decide ((∃ key ∈ tx.updates.keys, key ∈ tx'.updates.keys) ∧ (p.commits false).ReturnsOk ∧
          (p.commits true).error = some .conflict ∧
          (opening .plain s.engine 1 2 tx tx').Along .plain (KeepsStop .plain) oneByOne)) = true := by
    decide +kernel
  obtain ⟨s, hs, htxs⟩ := (Option.any_eq_true _ _).1 hany
  obtain ⟨tx, htx, htxs⟩ := (Option.any_eq_true _ _).1 htxs
  obtain ⟨tx', htx', hruns⟩ := (Option.any_eq_true _ _).1 htxs
  obtain ⟨hshared, hok, hconflict, hkeeps⟩ := of_decide_eq_true hruns
  exact ⟨s, tx, tx', hs, htx, htx', hshared, hok, hconflict, one_commit hkeeps⟩

/-- **An update is lost.** Both of two commits that write the same row return, when both check it before
either installs its own. -/
theorem not_one_commit : ¬ ∀ (_ : Bincode (WalEntry Bytes Data)) (rt : Runtime)
    (actions : List Action) (s : System), System.start.run rt actions = some s →
      s.engine.Bounded → ∀ conn conn' tx tx', conn ≠ conn' →
        s.engine.activeTransactions.lookup conn = some tx →
        s.engine.activeTransactions.lookup conn' = some tx' →
        tx.snapshotVersion = tx'.snapshotVersion → (∃ key ∈ tx.updates.keys, key ∈ tx'.updates.keys) →
          ∀ steps, let p := (opening rt s.engine conn conn' tx tx').run rt steps
            ¬ ((p.commits false).ReturnsOk ∧ (p.commits true).ReturnsOk) := by
  intro h
  let _ := plainBincode []
  have hany : (System.start.run .plain updateTwice).any (fun s ↦
      (s.engine.activeTransactions.lookup 1).any fun tx ↦ (s.engine.activeTransactions.lookup 2).any fun tx' ↦
        let p := (opening .plain s.engine 1 2 tx tx').run .plain sideBySide
        decide (s.engine.btree.pager.handedOut.length < 2 ^ 32 ∧ s.engine.history.bumps < 2 ^ 64 ∧
          tx.snapshotVersion = tx'.snapshotVersion ∧
          (∃ key ∈ tx.updates.keys, key ∈ tx'.updates.keys) ∧
          (p.commits false).ReturnsOk ∧ (p.commits true).ReturnsOk)) = true := by decide +kernel
  obtain ⟨s, hs, htxs⟩ := (Option.any_eq_true _ _).1 hany
  obtain ⟨tx, htx, htxs⟩ := (Option.any_eq_true _ _).1 htxs
  obtain ⟨tx', htx', hruns⟩ := (Option.any_eq_true _ _).1 htxs
  obtain ⟨hpages, hbumps, hsnapshot, hshared, hboth⟩ := of_decide_eq_true hruns
  exact h _ .plain updateTwice s hs ⟨hpages, hbumps⟩ 1 2 tx tx' (by decide) htx htx' hsnapshot hshared
    sideBySide hboth

end CommitPair

end KsSql
