import Mathlib.Data.Multiset.Fintype
import Mathlib.Logic.Hydra
import Mathlib.Logic.Relation

/-!
# Tasks and a server behind a channel

A server owns a state and handles the requests of any number of tasks. A task sends a request into a
bounded channel, waits for the answer, and goes on with it; some accesses to the state it makes itself
(`Session`). The server takes one request at a time from the channel, handles it and answers it
(`Mail.Step`).

Seen from the tasks this is the interleaving of sessions each of whose requests is handled in one step
(`Service.Atomic`): the handling of a request is the step, and a task that waits for an answer, or has
not looked at it yet, stands before or behind that step (`Mail.view`). Every run with the channel is such
an interleaving (`Mail.runs_view`), and every interleaving is a run with the channel, whatever its
capacity (`Mail.exists_runs_of_atomic`). Services that take their steps together have the same
interleavings (`Service.LockStep.atomic`).

No run gets stuck before every task is done (`Mail.Consistent.exists_step`), and with finitely many tasks
there is no infinite run (`Mail.wellFounded_step`).
-/

/-- The requests that a server handles and the accesses that tasks make themselves, with their
answers. -/
structure Interface where
  /-- The requests. -/
  Request : Type
  /-- The answers to a request. -/
  Response : Request → Type
  /-- The accesses. -/
  Access : Type
  /-- The values that an access can give. -/
  Value : Access → Type

/-- What a task is about to do. -/
inductive Session (I : Interface) (α : Type)
  /-- The task is over. -/
  | done (a : α)
  /-- Send a request to the server and go on with the answer. -/
  | ask (r : I.Request) (next : I.Response r → Session I α)
  /-- Access the state and go on with the value. -/
  | access (c : I.Access) (next : I.Value c → Session I α)

/-- What requests and accesses do to the state. -/
structure Service (I : Interface) (σ : Type) where
  /-- The server handles a request. -/
  handle : (r : I.Request) → σ → I.Response r × σ
  /-- A task makes an access. -/
  access : (c : I.Access) → σ → I.Value c × σ

namespace Service

variable {I : Interface} {σ α ι : Type} [DecidableEq ι] (S : Service I σ)

/-- A session's next step, in which its request is handled at once. -/
def step : Session I α → σ → Option (Session I α × σ)
  | .done _, _ => none
  | .ask r next, s => some (next (S.handle r s).1, (S.handle r s).2)
  | .access c next, s => some (next (S.access c s).1, (S.access c s).2)

/-- One of the sessions takes its next step. -/
inductive Atomic : (ι → Session I α) × σ → (ι → Session I α) × σ → Prop
  | step (i : ι) {p : ι → Session I α} {q : Session I α} {s t : σ} : S.step (p i) s = some (q, t) →
      Atomic (p, s) (Function.update p i q, t)

variable {S}

/-- What each step keeps, every interleaving keeps. -/
theorem atomic_invariant {J : (ι → Session I α) × σ → Prop}
    (hstep : ∀ x y, S.Atomic x y → J x → J y) {x y : (ι → Session I α) × σ}
    (h : Relation.ReflTransGen S.Atomic x y) (hx : J x) : J y := by
  induction h with
  | refl => exact hx
  | tail _ hyz ih => exact hstep _ _ hyz ih

/-! ### Two services in step -/

section LockStep

variable {J : Interface} {τ β : Type} {T : Service J τ} {Rel : σ → τ → Prop}
  {Match : Session I α → Session J β → Prop}

/-- From states that are related, matching sessions are over together, or take steps that lead to related
states and matching sessions. -/
def LockStep (S : Service I σ) (T : Service J τ) (Rel : σ → τ → Prop)
    (Match : Session I α → Session J β → Prop) : Prop :=
  ∀ ⦃q r s t⦄, Rel s t → Match q r → (S.step q s = none ∧ T.step r t = none) ∨
    ∃ q' s' r' t', S.step q s = some (q', s') ∧ T.step r t = some (r', t') ∧
      Rel s' t' ∧ Match q' r'

theorem LockStep.symm (h : LockStep S T Rel Match) :
    LockStep T S (fun t s ↦ Rel s t) fun r q ↦ Match q r := by
  intro r q t s hrel hmatch
  rcases h hrel hmatch with ⟨hq, hr⟩ | ⟨q', s', r', t', hq, hr, hrel', hmatch'⟩
  · exact Or.inl ⟨hr, hq⟩
  · exact Or.inr ⟨r', t', q', s', hr, hq, hrel', hmatch'⟩

/-- **Services in step have the same interleavings.** -/
theorem LockStep.atomic (h : LockStep S T Rel Match) {x x' : (ι → Session I α) × σ}
    {y : (ι → Session J β) × τ} (hrel : Rel x.2 y.2) (hmatch : ∀ i, Match (x.1 i) (y.1 i))
    (hruns : Relation.ReflTransGen S.Atomic x x') :
    ∃ y', Relation.ReflTransGen T.Atomic y y' ∧ Rel x'.2 y'.2 ∧ ∀ i, Match (x'.1 i) (y'.1 i) := by
  induction hruns with
  | refl => exact ⟨y, .refl, hrel, hmatch⟩
  | tail _ hstep ih =>
    obtain ⟨y₁, hruns₁, hrel₁, hmatch₁⟩ := ih
    cases hstep with
    | @step i p q s t hi =>
      rcases h hrel₁ (hmatch₁ i) with ⟨hnone, -⟩ | ⟨q', s', r', t', hq, hr, hrel', hmatch'⟩
      · rw [hnone] at hi
        cases hi
      · obtain ⟨rfl, rfl⟩ := Prod.ext_iff.1 (Option.some.inj (hi.symm.trans hq))
        refine ⟨(Function.update y₁.1 i r', t'), hruns₁.tail (.step i hr), hrel', fun j ↦ ?_⟩
        show Match (Function.update p i q j) (Function.update y₁.1 i r' j)
        rcases eq_or_ne j i with rfl | hj
        · rw [Function.update_self, Function.update_self]
          exact hmatch'
        · rw [Function.update_of_ne hj, Function.update_of_ne hj]
          exact hmatch₁ j

end LockStep

end Service

/-- Where a task stands. -/
inductive Party (I : Interface) (α : Type)
  /-- It runs. -/
  | running (q : Session I α)
  /-- Its request is in the channel or with the server. -/
  | waiting (r : I.Request) (next : I.Response r → Session I α)
  /-- Its request has been answered, and the answer not yet received. -/
  | answered (r : I.Request) (a : I.Response r) (next : I.Response r → Session I α)

/-- The session that a task has in front of it. -/
def Party.view {I : Interface} {α : Type} : Party I α → Session I α
  | .running q => q
  | .waiting r next => .ask r next
  | .answered _ a next => next a

/-- Tasks and a server, with a channel between them. -/
structure Mail (I : Interface) (ι σ α : Type) where
  /-- The tasks. -/
  parties : ι → Party I α
  /-- The channel, oldest request first. -/
  channel : List (ι × I.Request) := []
  /-- The request that the server has taken from the channel. -/
  serving : Option (ι × I.Request) := none
  /-- The state. -/
  shared : σ

namespace Mail

variable {I : Interface} {ι σ α : Type} {S : Service I σ} {capacity : Nat}

/-- The tasks' sessions and the state. -/
def view (m : Mail I ι σ α) : (ι → Session I α) × σ := (fun i ↦ (m.parties i).view, m.shared)

theorem view_fst (m : Mail I ι σ α) (i : ι) : m.view.1 i = (m.parties i).view := rfl

/-- Sessions about to start. -/
def start (p : ι → Session I α) (s : σ) : Mail I ι σ α :=
  { parties := fun i ↦ .running (p i), shared := s }

theorem view_start (p : ι → Session I α) (s : σ) : (start p s).view = (p, s) := rfl

variable [DecidableEq ι]

/-- A task or the server takes a step. -/
inductive Step (S : Service I σ) (capacity : Nat) : Mail I ι σ α → Mail I ι σ α → Prop
  /-- A task makes an access. -/
  | access {m : Mail I ι σ α} (i : ι) {c : I.Access} {next : I.Value c → Session I α} :
      m.parties i = .running (.access c next) →
      Step S capacity m
        { m with
          parties := Function.update m.parties i (.running (next (S.access c m.shared).1))
          shared := (S.access c m.shared).2 }
  /-- A task sends a request; while the channel is full it cannot. -/
  | send {m : Mail I ι σ α} (i : ι) {r : I.Request} {next : I.Response r → Session I α} :
      m.parties i = .running (.ask r next) → m.channel.length < capacity →
      Step S capacity m
        { m with
          parties := Function.update m.parties i (.waiting r next)
          channel := m.channel ++ [(i, r)] }
  /-- The server takes the oldest request. -/
  | take {m : Mail I ι σ α} {x : ι × I.Request} {rest : List (ι × I.Request)} :
      m.serving = none → m.channel = x :: rest →
      Step S capacity m { m with channel := rest, serving := some x }
  /-- The server handles the request and answers it. -/
  | handle {m : Mail I ι σ α} {i : ι} {r : I.Request} {next : I.Response r → Session I α} :
      m.serving = some (i, r) → m.parties i = .waiting r next →
      Step S capacity m
        { m with
          parties := Function.update m.parties i (.answered r (S.handle r m.shared).1 next)
          serving := none
          shared := (S.handle r m.shared).2 }
  /-- A task receives its answer. -/
  | receive {m : Mail I ι σ α} (i : ι) {r : I.Request} {a : I.Response r}
      {next : I.Response r → Session I α} :
      m.parties i = .answered r a next →
      Step S capacity m { m with parties := Function.update m.parties i (.running (next a)) }

/-- Any number of steps. -/
def Runs (S : Service I σ) (capacity : Nat) : Mail I ι σ α → Mail I ι σ α → Prop :=
  Relation.ReflTransGen (Step S capacity)

/-! ### The channel is not seen -/

theorem view_update (m : Mail I ι σ α) (i : ι) (x : Party I α) :
    (fun j ↦ (Function.update m.parties i x j).view) =
      Function.update (fun j ↦ (m.parties j).view) i x.view :=
  Function.comp_update Party.view m.parties i x

/-- A task that comes to stand elsewhere before the same session is seen as before. -/
theorem view_update_of_eq {m : Mail I ι σ α} {i : ι} {x : Party I α}
    (h : x.view = (m.parties i).view) :
    (fun j ↦ (Function.update m.parties i x j).view) = fun j ↦ (m.parties j).view := by
  rw [view_update, h]
  exact Function.update_eq_self i _

/-- A step is not seen, or is a step of the sessions. -/
theorem Step.view {m m' : Mail I ι σ α} (h : Step S capacity m m') :
    m'.view = m.view ∨ S.Atomic m.view m'.view := by
  cases h with
  | @access i c next hi =>
    refine Or.inr ?_
    show S.Atomic m.view (fun j ↦ _, _)
    rw [view_update]
    refine .step (p := fun j ↦ (m.parties j).view) i ?_
    show S.step (m.parties i).view m.shared = _
    rw [hi]
    rfl
  | @send i r next hi hroom =>
    refine Or.inl (Prod.ext (view_update_of_eq ?_) rfl)
    rw [hi]
    rfl
  | take hserving hchannel => exact Or.inl rfl
  | @handle i r next hserving hi =>
    refine Or.inr ?_
    show S.Atomic m.view (fun j ↦ _, _)
    rw [view_update]
    refine .step (p := fun j ↦ (m.parties j).view) i ?_
    show S.step (m.parties i).view m.shared = _
    rw [hi]
    rfl
  | @receive i r a next hi =>
    refine Or.inl (Prod.ext (view_update_of_eq ?_) rfl)
    rw [hi]
    rfl

/-- **A run with the channel is an interleaving of the sessions.** -/
theorem runs_view {m m' : Mail I ι σ α} (h : Runs S capacity m m') :
    Relation.ReflTransGen S.Atomic m.view m'.view := by
  induction h with
  | refl => exact .refl
  | tail _ hstep ih =>
    rcases hstep.view with hsame | hatomic
    · rw [hsame]
      exact ih
    · exact ih.tail hatomic

/-! ### Every interleaving happens -/

/-- A request goes through an empty channel: it is sent, taken, handled and answered before anything else
happens. -/
theorem runs_ask {m : Mail I ι σ α} {i : ι} {r : I.Request} {next : I.Response r → Session I α}
    (hi : m.parties i = .running (.ask r next)) (hchannel : m.channel = [])
    (hserving : m.serving = none) (hcapacity : 0 < capacity) :
    Runs S capacity m
      { m with
        parties := Function.update m.parties i (.running (next (S.handle r m.shared).1))
        shared := (S.handle r m.shared).2 } := by
  let sent : Mail I ι σ α :=
    { m with parties := Function.update m.parties i (.waiting r next)
             channel := m.channel ++ [(i, r)] }
  let taken : Mail I ι σ α := { sent with channel := [], serving := some (i, r) }
  let handled : Mail I ι σ α :=
    { taken with
      parties := Function.update taken.parties i (.answered r (S.handle r m.shared).1 next)
      serving := none
      shared := (S.handle r m.shared).2 }
  have hsent : Step S capacity m sent := .send i hi (by rwa [hchannel])
  have htaken : Step S capacity sent taken := by
    refine .take hserving ?_
    show m.channel ++ [(i, r)] = _
    rw [hchannel]
    rfl
  have hhandled : Step S capacity taken handled := .handle rfl (Function.update_self ..)
  have hreceived : Step S capacity handled
      { handled with
        parties := Function.update handled.parties i (.running (next (S.handle r m.shared).1)) } :=
    .receive i (Function.update_self ..)
  have hruns := (((Relation.ReflTransGen.single hsent).tail htaken).tail hhandled).tail hreceived
  simp only [handled, taken, sent, Function.update_idem] at hruns
  rwa [← hchannel, ← hserving] at hruns

/-- Every task runs, and the server has nothing to do. -/
structure Settled (m : Mail I ι σ α) : Prop where
  channel : m.channel = []
  serving : m.serving = none
  running : ∀ i, m.parties i = .running (m.view.1 i)

omit [DecidableEq ι] in
theorem settled_start (p : ι → Session I α) (s : σ) : (start p s).Settled :=
  ⟨rfl, rfl, fun _ ↦ rfl⟩

/-- A settled state in which one task has gone on. -/
theorem Settled.update {m : Mail I ι σ α} (h : m.Settled) (i : ι) (q : Session I α) (s : σ) :
    ({ m with parties := Function.update m.parties i (.running q), shared := s } :
      Mail I ι σ α).Settled := by
  refine ⟨h.channel, h.serving, fun j ↦ ?_⟩
  show Function.update m.parties i (.running q) j =
    .running (Function.update m.parties i (.running q) j).view
  rcases eq_or_ne j i with rfl | hj
  · rw [Function.update_self]
    rfl
  · rw [Function.update_of_ne hj]
    exact h.running j

/-- A step of the sessions is made with the channel. -/
theorem Settled.exists_runs {m : Mail I ι σ α} (h : m.Settled) (hcapacity : 0 < capacity)
    {y : (ι → Session I α) × σ} (hstep : S.Atomic m.view y) :
    ∃ m', Runs S capacity m m' ∧ m'.Settled ∧ m'.view = y := by
  obtain ⟨i, hi⟩ : ∃ i, ∃ q t, S.step (m.view.1 i) m.shared = some (q, t) ∧
      y = (Function.update m.view.1 i q, t) := by
    generalize hx : m.view = x at hstep
    cases hstep with
    | step i hi =>
      obtain ⟨rfl, rfl⟩ := Prod.ext_iff.1 hx
      exact ⟨i, _, _, hi, rfl⟩
  obtain ⟨q, t, hi, rfl⟩ := hi
  refine ⟨{ m with parties := Function.update m.parties i (.running q), shared := t }, ?_,
    h.update i q t, Prod.ext (view_update m i _) rfl⟩
  have hparty := h.running i
  rcases hq : m.view.1 i with a | ⟨r, next⟩ | ⟨c, next⟩
  · rw [hq] at hi
    cases hi
  · rw [hq] at hi hparty
    cases hi
    exact runs_ask hparty h.channel h.serving hcapacity
  · rw [hq] at hi hparty
    cases hi
    exact .single (.access i hparty)

/-- **Every interleaving of the sessions is a run with the channel**, whatever its capacity. -/
theorem exists_runs_of_atomic {m : Mail I ι σ α} (h : m.Settled) (hcapacity : 0 < capacity)
    {y : (ι → Session I α) × σ} (hruns : Relation.ReflTransGen S.Atomic m.view y) :
    ∃ m', Runs S capacity m m' ∧ m'.Settled ∧ m'.view = y := by
  induction hruns with
  | refl => exact ⟨m, .refl, h, rfl⟩
  | tail _ hstep ih =>
    obtain ⟨m₁, hruns₁, hsettled₁, rfl⟩ := ih
    obtain ⟨m₂, hruns₂, hsettled₂, rfl⟩ := hsettled₁.exists_runs hcapacity hstep
    exact ⟨m₂, hruns₁.trans hruns₂, hsettled₂, rfl⟩

/-- What the tasks and the state can become is the same with the channel and in one step for each
request. -/
theorem runs_start_iff (hcapacity : 0 < capacity) {p : ι → Session I α} {s : σ}
    {y : (ι → Session I α) × σ} :
    (∃ m, Runs S capacity (start p s) m ∧ m.view = y) ↔
      Relation.ReflTransGen S.Atomic (p, s) y := by
  constructor
  · rintro ⟨m, hruns, rfl⟩
    exact runs_view hruns
  · intro hruns
    obtain ⟨m, hm, -, hview⟩ := exists_runs_of_atomic (settled_start p s) hcapacity hruns
    exact ⟨m, hm, hview⟩

/-! ### No request is lost -/

/-- The requests that are not yet handled, in the order in which they are going to be. -/
def pending (m : Mail I ι σ α) : List (ι × I.Request) := m.serving.toList ++ m.channel

/-- The tasks that wait are those whose requests are pending, each with one request. -/
structure Consistent (m : Mail I ι σ α) : Prop where
  nodup : (m.pending.map Prod.fst).Nodup
  waits : ∀ i r, (i, r) ∈ m.pending → ∃ next, m.parties i = .waiting r next
  pends : ∀ i r next, m.parties i = .waiting r next → (i, r) ∈ m.pending

omit [DecidableEq ι] in
theorem consistent_start (p : ι → Session I α) (s : σ) : (start p s).Consistent :=
  ⟨List.nodup_nil, fun _ _ h ↦ absurd h List.not_mem_nil, fun _ _ _ h ↦ by cases h⟩

/-- A task that neither waited nor is going to leaves the requests as they are. -/
theorem Consistent.update {m m' : Mail I ι σ α} (h : m.Consistent) {i : ι} {x : Party I α}
    (hparties : m'.parties = Function.update m.parties i x) (hpending : m'.pending = m.pending)
    (hi : ∀ r next, m.parties i ≠ .waiting r next) (hx : ∀ r next, x ≠ .waiting r next) :
    m'.Consistent := by
  refine ⟨hpending ▸ h.nodup, fun j r hj ↦ ?_, fun j r next hj ↦ ?_⟩
  · rw [hpending] at hj
    obtain ⟨next, hnext⟩ := h.waits j r hj
    have hne : j ≠ i := by
      rintro rfl
      exact hi r next hnext
    exact ⟨next, by rw [hparties, Function.update_of_ne hne, hnext]⟩
  · rw [hparties] at hj
    rw [hpending]
    rcases eq_or_ne j i with rfl | hne
    · rw [Function.update_self] at hj
      exact absurd hj (hx r next)
    · rw [Function.update_of_ne hne] at hj
      exact h.pends j r next hj

/-- Every step keeps the tasks and their requests together. -/
theorem Consistent.step {m m' : Mail I ι σ α} (h : m.Consistent) (hstep : Step S capacity m m') :
    m'.Consistent := by
  cases hstep with
  | @access i c next hi =>
    refine h.update rfl rfl (fun r k hwait ↦ ?_) (fun r k hwait ↦ by cases hwait)
    rw [hi] at hwait
    cases hwait
  | @send i r next hi hroom =>
    have hfresh : ∀ r', (i, r') ∉ m.pending := by
      intro r' hmem
      obtain ⟨k, hk⟩ := h.waits i r' hmem
      rw [hi] at hk
      cases hk
    have hpending : pending { m with
        parties := Function.update m.parties i (.waiting r next)
        channel := m.channel ++ [(i, r)] } = m.pending ++ [(i, r)] :=
      (List.append_assoc ..).symm
    refine ⟨?_, fun j r' hj ↦ ?_, fun j r' k hj ↦ ?_⟩
    · rw [hpending, List.map_append, List.nodup_append]
      refine ⟨h.nodup, List.nodup_singleton _, ?_⟩
      intro a ha b hb hab
      obtain rfl : b = i := List.mem_singleton.1 hb
      obtain ⟨⟨j, r'⟩, hmem, rfl⟩ := List.mem_map.1 ha
      obtain rfl : j = b := hab
      exact hfresh r' hmem
    · rw [hpending] at hj
      rcases List.mem_append.1 hj with hold | hj
      · have hne : j ≠ i := by
          rintro rfl
          exact hfresh r' hold
        obtain ⟨k, hk⟩ := h.waits j r' hold
        exact ⟨k, (Function.update_of_ne hne ..).trans hk⟩
      · cases List.mem_singleton.1 hj
        exact ⟨next, Function.update_self ..⟩
    · rw [hpending]
      replace hj : Function.update m.parties i (.waiting r next) j = .waiting r' k := hj
      rcases eq_or_ne j i with rfl | hne
      · rw [Function.update_self] at hj
        cases hj
        exact List.mem_append_right _ (List.mem_singleton_self _)
      · rw [Function.update_of_ne hne] at hj
        exact List.mem_append_left _ (h.pends j r' k hj)
  | @take x rest hserving hchannel =>
    have hpending : pending { m with channel := rest, serving := some x } = m.pending := by
      rw [pending, pending, hserving, hchannel]
      rfl
    refine ⟨?_, fun j r hj ↦ ?_, fun j r k hj ↦ ?_⟩
    · rw [hpending]
      exact h.nodup
    · rw [hpending] at hj
      exact h.waits j r hj
    · rw [hpending]
      exact h.pends j r k hj
  | @handle i r next hserving hi =>
    have hpending : m.pending = (i, r) :: m.channel := by
      rw [pending, hserving]
      rfl
    have hnodup := h.nodup
    rw [hpending, List.map_cons, List.nodup_cons] at hnodup
    refine ⟨hnodup.2, fun j r' hj ↦ ?_, fun j r' k hj ↦ ?_⟩
    · replace hj : (j, r') ∈ m.channel := hj
      have hne : j ≠ i := by
        rintro rfl
        exact hnodup.1 (List.mem_map.2 ⟨_, hj, rfl⟩)
      obtain ⟨k, hk⟩ := h.waits j r' (hpending ▸ List.mem_cons_of_mem _ hj)
      exact ⟨k, (Function.update_of_ne hne ..).trans hk⟩
    · show (j, r') ∈ m.channel
      replace hj : Function.update m.parties i
        (.answered r (S.handle r m.shared).1 next) j = .waiting r' k := hj
      rcases eq_or_ne j i with rfl | hne
      · rw [Function.update_self] at hj
        cases hj
      · rw [Function.update_of_ne hne] at hj
        have hmem := h.pends j r' k hj
        rw [hpending] at hmem
        rcases List.mem_cons.1 hmem with heq | hmem
        · exact absurd (Prod.ext_iff.1 heq).1 hne
        · exact hmem
  | @receive i r a next hi =>
    refine h.update rfl rfl (fun r' k hwait ↦ ?_) (fun r' k hwait ↦ by cases hwait)
    rw [hi] at hwait
    cases hwait

/-- **Nothing gets stuck.** Until every task is over, a task or the server can take a step. -/
theorem Consistent.exists_step {m : Mail I ι σ α} (h : m.Consistent) (hcapacity : 0 < capacity)
    (hbusy : ∃ i, ∀ a, m.parties i ≠ .running (.done a)) : ∃ m', Step S capacity m m' := by
  obtain ⟨i, hi⟩ := hbusy
  rcases hserving : m.serving with _ | ⟨j, r⟩
  · rcases hchannel : m.channel with _ | ⟨x, rest⟩
    · rcases hparty : m.parties i with q | ⟨r, next⟩ | ⟨r, a, next⟩
      · rcases q with a | ⟨r, next⟩ | ⟨c, next⟩
        · exact absurd hparty (hi a)
        · exact ⟨_, .send i hparty (by rw [hchannel]; exact hcapacity)⟩
        · exact ⟨_, .access i hparty⟩
      · have hmem := h.pends i r next hparty
        rw [pending, hserving, hchannel] at hmem
        exact absurd hmem List.not_mem_nil
      · exact ⟨_, .receive i hparty⟩
    · exact ⟨_, .take hserving hchannel⟩
  · have hmem : (j, r) ∈ m.pending := by
      rw [pending, hserving]
      exact List.mem_cons_self
    obtain ⟨next, hnext⟩ := h.waits j r hmem
    exact ⟨_, .handle hserving hnext⟩

/-! ### No run goes on for ever -/

end Mail

/-- A task has gone on from `x`. -/
inductive Party.Follows {I : Interface} {α : Type} : Party I α → Party I α → Prop
  | access {c : I.Access} {next : I.Value c → Session I α} (v : I.Value c) :
      Follows (.running (next v)) (.running (.access c next))
  | send {r : I.Request} {next : I.Response r → Session I α} :
      Follows (.waiting r next) (.running (.ask r next))
  | handle {r : I.Request} {next : I.Response r → Session I α} (a : I.Response r) :
      Follows (.answered r a next) (.waiting r next)
  | receive {r : I.Request} {next : I.Response r → Session I α} (a : I.Response r) :
      Follows (.running (next a)) (.answered r a next)

theorem Party.acc_answered {I : Interface} {α : Type} {r : I.Request}
    {next : I.Response r → Session I α} {a : I.Response r}
    (h : Acc Party.Follows (.running (next a))) : Acc Party.Follows (.answered r a next) := by
  refine ⟨_, fun y hy ↦ ?_⟩
  cases hy with
  | receive _ => exact h

/-- A task can only go on finitely often. -/
theorem Party.acc_running {I : Interface} {α : Type} (q : Session I α) :
    Acc Party.Follows (.running q) := by
  induction q with
  | done a =>
    refine ⟨_, fun y hy ↦ ?_⟩
    cases hy
  | ask r next ih =>
    refine ⟨_, fun y hy ↦ ?_⟩
    cases hy with
    | send =>
      refine ⟨_, fun y hy ↦ ?_⟩
      cases hy with
      | handle a => exact acc_answered (ih a)
  | access c next ih =>
    refine ⟨_, fun y hy ↦ ?_⟩
    cases hy with
    | access v => exact ih v

theorem Party.wellFounded_follows {I : Interface} {α : Type} :
    WellFounded (Party.Follows (I := I) (α := α)) := by
  refine ⟨fun x ↦ ?_⟩
  rcases x with q | ⟨r, next⟩ | ⟨r, a, next⟩
  · exact acc_running q
  · refine ⟨_, fun y hy ↦ ?_⟩
    cases hy with
    | handle a => exact acc_answered (acc_running _)
  · exact acc_answered (acc_running _)

namespace Mail

variable {I : Interface} {ι σ α : Type} [DecidableEq ι] {S : Service I σ} {capacity : Nat}

/-- Where the tasks stand, taken together. -/
def heads [Fintype ι] (m : Mail I ι σ α) : Multiset (Party I α) := Finset.univ.val.map m.parties

/-- A task goes on, and the others stay where they are. -/
theorem cutExpand_heads [Fintype ι] {m m' : Mail I ι σ α} {i : ι} {x y : Party I α}
    (hx : m.parties i = x) (hparties : m'.parties = Function.update m.parties i y)
    (h : Party.Follows y x) : Relation.CutExpand Party.Follows m'.heads m.heads := by
  refine ⟨{y}, x, fun z hz ↦ Multiset.mem_singleton.1 hz ▸ h, ?_⟩
  have huniv : (Finset.univ : Finset ι).val = i ::ₘ (Finset.univ.erase i).val := by
    rw [Finset.erase_val, Multiset.cons_erase (Finset.mem_univ i)]
  have hrest : (Finset.univ.erase i).val.map m'.parties =
      (Finset.univ.erase i).val.map m.parties := by
    refine Multiset.map_congr rfl fun j hj ↦ ?_
    rw [hparties, Function.update_of_ne (Finset.ne_of_mem_erase hj)]
  rw [heads, heads, huniv, Multiset.map_cons, Multiset.map_cons, hrest, hx, hparties,
    Function.update_self, Multiset.add_comm _ {x}, Multiset.add_comm _ {y},
    Multiset.singleton_add, Multiset.singleton_add, Multiset.cons_swap]

/-- **No run goes on for ever**, when there are finitely many tasks: in each step a task goes on, or the
channel gets shorter while the tasks stay where they are. -/
theorem wellFounded_step [Finite ι] :
    WellFounded fun m' m : Mail I ι σ α ↦ Step S capacity m m' := by
  have := Fintype.ofFinite ι
  have hlex := WellFounded.prod_lex (Party.wellFounded_follows (I := I) (α := α)).cutExpand
    (wellFounded_lt (α := Nat))
  refine Subrelation.wf (r := InvImage _ fun m : Mail I ι σ α ↦ (m.heads, m.channel.length))
    (fun {m' m} hstep ↦ ?_) (InvImage.wf _ hlex)
  show Prod.Lex _ _ (m'.heads, m'.channel.length) (m.heads, m.channel.length)
  cases hstep with
  | access i hi => exact .left _ _ (cutExpand_heads hi rfl (.access _))
  | send i hi hroom => exact .left _ _ (cutExpand_heads hi rfl .send)
  | take hserving hchannel =>
    refine .right _ ?_
    rw [hchannel]
    exact Nat.lt_succ_self _
  | handle hserving hi => exact .left _ _ (cutExpand_heads hi rfl (.handle _))
  | receive i hi => exact .left _ _ (cutExpand_heads hi rfl (.receive _))

/-- A run can be continued until every task is over. -/
theorem Consistent.exists_runs_done [Finite ι] (hcapacity : 0 < capacity) {m : Mail I ι σ α}
    (h : m.Consistent) :
    ∃ m', Runs S capacity m m' ∧ ∀ i, ∃ a, m'.parties i = .running (.done a) := by
  have hwf : WellFounded fun m' m : Mail I ι σ α ↦ Step S capacity m m' := wellFounded_step
  revert h
  induction m using hwf.induction with
  | _ m ih =>
  intro h
  by_cases hbusy : ∃ i, ∀ a, m.parties i ≠ .running (.done a)
  · obtain ⟨m₁, hstep⟩ : ∃ m₁, Step S capacity m m₁ := h.exists_step hcapacity hbusy
    obtain ⟨m₂, hruns, hdone⟩ := ih m₁ hstep (h.step hstep)
    exact ⟨m₂, .head hstep hruns, hdone⟩
  · push Not at hbusy
    exact ⟨m, .refl, hbusy⟩

/-- A run keeps the tasks and their requests together. -/
theorem Consistent.runs {m m' : Mail I ι σ α} (h : m.Consistent) (hruns : Runs S capacity m m') :
    m'.Consistent := by
  induction hruns with
  | refl => exact h
  | tail _ hstep ih => exact ih.step hstep

end Mail
