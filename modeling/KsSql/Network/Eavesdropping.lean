import KsSql.Network.Transactions

/-!
# What a client without credentials learns

Both front ends publish the texts of authenticated requests on a broadcast channel, and a WebSocket sends
what it receives from there to its client, whoever that is. Two runs of the server that differ only in
the texts of authenticated requests are compared (`RunPair`, `Event.Matches`). A client that never
presents the credentials is sent the same in both, as long as no text that differs is published while it
has a WebSocket open (`nothing_learnt`). With a WebSocket it is sent the texts (`not_nothing_learnt`).
-/

namespace KsSql

/-- Events of two runs that differ only in the text of an authenticated request. The threads beside the
requests may take different steps. -/
inductive Event.Matches (c : Setup) (s : Server) : Event → Event → Prop
  | same (e : Event) : Event.Matches c s e e
  | line {i : Nat} {tcp : Connection} (input input' : Text) : s.connections[i]? = some tcp →
      tcp.authenticated = true → Event.Matches c s (.line i input) (.line i input')
  | query {client : Nat} {authorization : Option Text} (body body' : Text) :
      c.credentials.checkAuth authorization = true →
      Event.Matches c s (.http client authorization (.query body))
        (.http client authorization (.query body'))
  | background (actions actions' : List Action) :
      Event.Matches c s (.background actions) (.background actions')

namespace Server

/-! ### What is the same in both runs -/

/-- The client cannot tell the two servers apart, now or later. -/
structure Alike (client : Nat) (s₁ s₂ : Server) : Prop where
  connections : s₂.connections = s₁.connections
  nextConnId : s₂.nextConnId = s₁.nextConnId
  sockets : s₂.sockets = s₁.sockets
  length : s₂.published.length = s₁.published.length
  sent : s₂.sentTo client = s₁.sentTo client
  heard : ∀ socket ∈ s₁.sockets, socket.isOpen → socket.client = client →
    s₂.published.drop socket.next = s₁.published.drop socket.next
  stranger : ∀ tcp ∈ s₁.connections, tcp.client = client → tcp.authenticated = false

variable {client : Nat} {s₁ s₂ : Server}

theorem Alike.refl (s : Server) (h : ∀ tcp ∈ s.connections, tcp.client = client →
    tcp.authenticated = false) : Alike client s s := ⟨rfl, rfl, rfl, rfl, rfl, fun _ _ _ _ ↦ rfl, h⟩

theorem sentTo_reply (s : Server) (client client' : Nat) (m : Message) :
    (s.reply client' m).sentTo client = s.sentTo client ++ if client' = client then [m] else [] := by
  rw [sentTo, reply, List.filter_append, List.map_append, sentTo]
  congr 1
  by_cases h : client' = client
  · have hkeep : [(client', m)].filter (·.1 = client) = [(client', m)] :=
      List.filter_cons_of_pos (decide_eq_true h)
    rw [if_pos h, hkeep]
    rfl
  · have hdrop : [(client', m)].filter (·.1 = client) = [] :=
      List.filter_cons_of_neg (by rwa [decide_eq_true_eq])
    rw [if_neg h, hdrop]
    rfl

/-- Replies to others may differ. -/
theorem Alike.reply (h : Alike client s₁ s₂) {client' : Nat} {m₁ m₂ : Message}
    (hm : client' = client → m₂ = m₁) : Alike client (s₁.reply client' m₁) (s₂.reply client' m₂) where
  connections := h.connections
  nextConnId := h.nextConnId
  sockets := h.sockets
  length := h.length
  sent := by
    rw [sentTo_reply, sentTo_reply, h.sent]
    by_cases hclient : client' = client
    · rw [if_pos hclient, if_pos hclient, hm hclient]
    · rw [if_neg hclient, if_neg hclient]
  heard := h.heard
  stranger := h.stranger

theorem Alike.withSystem (h : Alike client s₁ s₂) (system₁ system₂ : System) :
    Alike client { s₁ with system := system₁ } { s₂ with system := system₂ } :=
  ⟨h.connections, h.nextConnId, h.sockets, h.length, h.sent, h.heard, h.stranger⟩

/-- A TCP connection changes in both runs. -/
theorem Alike.set (h : Alike client s₁ s₂) (i : Nat) (tcp : Connection)
    (htcp : tcp.client = client → tcp.authenticated = false) :
    Alike client { s₁ with connections := s₁.connections.set i tcp }
      { s₂ with connections := s₂.connections.set i tcp } where
  connections := congrArg (List.set · i tcp) h.connections
  nextConnId := h.nextConnId
  sockets := h.sockets
  length := h.length
  sent := h.sent
  heard := h.heard
  stranger x hx hclient := by
    rcases List.mem_or_eq_of_mem_set hx with hx | rfl
    · exact h.stranger x hx hclient
    · exact htcp hclient

/-- A WebSocket goes on from a later place in both runs, or ends. -/
theorem Alike.setSocket (h : Alike client s₁ s₂) {i : Nat} {socket : Socket}
    (hsocket : s₁.sockets[i]? = some socket) (socket' : Socket)
    (hclient : socket'.client = socket.client) (hopen : socket'.isOpen → socket.isOpen) (hnext : socket.next ≤ socket'.next) :
    Alike client { s₁ with sockets := s₁.sockets.set i socket' }
      { s₂ with sockets := s₂.sockets.set i socket' } where
  connections := h.connections
  nextConnId := h.nextConnId
  sockets := congrArg (List.set · i socket') h.sockets
  length := h.length
  sent := h.sent
  heard x hx hxopen hxclient := by
    rcases List.mem_or_eq_of_mem_set hx with hx | rfl
    · exact h.heard x hx hxopen hxclient
    · have hheard := h.heard socket (List.mem_of_getElem? hsocket) (hopen hxopen)
        (hclient.symm.trans hxclient)
      have hdrop := congrArg (List.drop (x.next - socket.next)) hheard
      rwa [List.drop_drop, List.drop_drop, Nat.add_sub_cancel' hnext] at hdrop
  stranger := h.stranger

/-! ### Two runs -/

/-- In the event the client does not present the credentials. -/
def Withholds (c : Setup) (client : Nat) (s : Server) : Event → Prop
  | .line i input => ∀ tcp ∈ s.connections[i]?, tcp.client = client →
      c.credentials.accepts input.trim = false
  | .http client' authorization _ => client' = client →
      c.credentials.checkAuth authorization = false
  | _ => True

/-- No text is published that differs in the two runs, or the client has no WebSocket open. -/
def Unheard (c : Setup) (client : Nat) (s₁ s₂ : Server) (e₁ e₂ : Event) : Prop :=
  s₁.request? c e₁ ≠ s₂.request? c e₂ → ∀ socket ∈ s₁.sockets, socket.isOpen → socket.client ≠ client

variable [Bincode (WalEntry Bytes Data)] {c : Setup} {t₁ t₂ : Server} {e e₁ e₂ : Event}

/-- Two runs, event by event, with a property of each two events in the states before them. -/
def RunPair (c : Setup) (P : Server → Server → Event → Event → Prop) (s₁ s₂ : Server) :
    List (Event × Event) → Server → Server → Prop
  | [], t₁, t₂ => t₁ = s₁ ∧ t₂ = s₂
  | (e₁, e₂) :: events, t₁, t₂ => P s₁ s₂ e₁ e₂ ∧ ∃ u₁ u₂, s₁.Step c e₁ u₁ ∧ s₂.Step c e₂ u₂ ∧
      RunPair c P u₁ u₂ events t₁ t₂

/-- Two runs that differ only in the texts of authenticated requests, and in which the client never
presents the credentials. -/
def Compared (c : Setup) (client : Nat) (s₁ _s₂ : Server) (e₁ e₂ : Event) : Prop :=
  e₁.Matches c s₁ e₂ ∧ s₁.Withholds c client e₁ ∧ s₁.Withholds c client e₂

/-- **Two runs.** What each two steps keep holds after the runs. -/
theorem runPair_invariant {I : Server → Server → Prop} {P : Server → Server → Event → Event → Prop}
    (hstep : ∀ s₁ s₂ e₁ e₂ t₁ t₂, P s₁ s₂ e₁ e₂ → I s₁ s₂ → s₁.Step c e₁ t₁ → s₂.Step c e₂ t₂ →
      I t₁ t₂) : ∀ {events : List (Event × Event)} {s₁ s₂ t₁ t₂ : Server}, I s₁ s₂ →
        RunPair c P s₁ s₂ events t₁ t₂ → I t₁ t₂
  | [], _, _, _, _, hs, ⟨h₁, h₂⟩ => h₁ ▸ h₂ ▸ hs
  | (e₁, e₂) :: _, s₁, s₂, _, _, hs, ⟨he, u₁, u₂, h₁, h₂, hrun⟩ => by
    have hrest := runPair_invariant hstep (hstep s₁ s₂ e₁ e₂ u₁ u₂ he hs h₁ h₂) hrun
    exact hrest

/-! ### Steps -/

/-- **Requests** of another client, with texts that are the same or that the client does not hear. -/
theorem Alike.request (h : Alike client s₁ s₂) {client' conn : Nat} (hclient : client' ≠ client)
    {sql₁ sql₂ : Text} (h₁ : s₁.Requests c client' conn sql₁ t₁)
    (h₂ : s₂.Requests c client' conn sql₂ t₂)
    (hheard : sql₁ ≠ sql₂ → ∀ socket ∈ s₁.sockets, socket.isOpen → socket.client ≠ client) :
    Alike client t₁ t₂ := by
  obtain ⟨r₁, system₁, -, rfl⟩ := h₁
  obtain ⟨r₂, system₂, -, rfl⟩ := h₂
  have hsent : ((s₂.afterRequest c client' conn sql₂ r₂ system₂).sentTo client) =
      (s₁.afterRequest c client' conn sql₁ r₁ system₁).sentTo client := by
    rw [afterRequest, afterRequest, sentTo_reply, sentTo_reply, if_neg hclient, if_neg hclient]
    exact congrArg (· ++ []) h.sent
  refine ⟨h.connections, h.nextConnId, h.sockets, ?_, hsent, fun socket hsocket hopen hsame ↦ ?_,
    h.stranger⟩
  · show (s₂.published ++ [sql₂]).length = (s₁.published ++ [sql₁]).length
    rw [List.length_append, List.length_append, h.length]
    rfl
  · show (s₂.published ++ [sql₂]).drop socket.next = (s₁.published ++ [sql₁]).drop socket.next
    have hsql : sql₁ = sql₂ := by
      by_contra hne
      exact hheard hne socket hsocket hopen hsame
    rw [List.drop_append, List.drop_append, h.heard socket hsocket hopen hsame, h.length, hsql]

/-- A route other than the one for queries answers, and changes the system at most. -/
theorem Serves.reply_of_ne {s s' : Server} {client' : Nat} {route : Route}
    (h : s.Serves c client' route s') (hroute : ∀ body, route ≠ .query body) :
    ∃ system m, s' = Server.reply { s with system := system } client' m ∧
      (route.isPublic = true → m = .dashboard) := by
  cases route with
  | query body => exact absurd rfl (hroute body)
  | dashboard => exact ⟨s.system, .dashboard, h, fun _ ↦ rfl⟩
  | memoryLimit limit => cases limit <;> exact ⟨_, _, h, nofun⟩
  | memoryPurge =>
    obtain ⟨system, -, rfl⟩ := h
    exact ⟨system, _, rfl, nofun⟩
  | hotswap image =>
    cases image with
    | none => exact ⟨s.system, _, h, nofun⟩
    | some image =>
      obtain ⟨system, -, rfl⟩ := h
      exact ⟨system, _, rfl, nofun⟩
  | _ => exact ⟨_, _, h, nofun⟩

theorem Alike.serves (h : Alike client s₁ s₂) {client' : Nat} {route : Route}
    (hroute : ∀ body, route ≠ .query body) (hclient : client' = client → route.isPublic = true)
    (h₁ : s₁.Serves c client' route t₁) (h₂ : s₂.Serves c client' route t₂) : Alike client t₁ t₂ := by
  obtain ⟨system₁, m₁, rfl, hm₁⟩ := h₁.reply_of_ne hroute
  obtain ⟨system₂, m₂, rfl, hm₂⟩ := h₂.reply_of_ne hroute
  exact (h.withSystem system₁ system₂).reply fun hsame ↦
    (hm₂ (hclient hsame)).trans (hm₁ (hclient hsame)).symm

omit [Bincode (WalEntry Bytes Data)] in
theorem Alike.receives (h : Alike client s₁ s₂) {i : Nat} {socket : Socket}
    (hsocket : s₁.sockets[i]? = some socket) (hopen : socket.isOpen)
    (h₁ : s₁.Receives c i socket t₁) (h₂ : s₂.Receives c i socket t₂) : Alike client t₁ t₂ := by
  unfold Receives at h₁ h₂
  rw [h.length] at h₂
  split at h₁
  · rename_i hlag
    rw [if_pos hlag] at h₂
    subst h₁ h₂
    have hnext : socket.next ≤ s₁.published.length - c.capacity := by omega
    exact h.setSocket hsocket { socket with next := s₁.published.length - c.capacity } rfl id hnext
  · rename_i hlag
    rw [if_neg hlag] at h₂
    obtain ⟨text₁, htext₁, rfl⟩ := h₁
    obtain ⟨text₂, htext₂, rfl⟩ := h₂
    refine (h.setSocket hsocket { socket with next := socket.next + 1 } rfl id (Nat.le_succ _)).reply
      fun hclient ↦ ?_
    have hheard := h.heard socket (List.mem_of_getElem? hsocket) hopen hclient
    have htext : (s₂.published.drop socket.next)[0]? = (s₁.published.drop socket.next)[0]? := by
      rw [hheard]
    rw [List.getElem?_drop, List.getElem?_drop, Nat.add_zero, htext₁, htext₂] at htext
    rw [Option.some.inj htext]

/-- **A line** on a TCP connection, which may differ if the connection is authenticated. -/
theorem Alike.reads (h : Alike client s₁ s₂) {i : Nat} {tcp : Connection}
    (htcp : s₁.connections[i]? = some tcp) {input₁ input₂ : Text}
    (hinput : tcp.authenticated = true ∨ input₁ = input₂)
    (hwithholds : tcp.client = client → c.credentials.accepts input₁ = false)
    (hheard : tcp.authenticated = true → input₁ ≠ input₂ →
      ∀ socket ∈ s₁.sockets, socket.isOpen → socket.client ≠ client)
    (h₁ : s₁.Reads c i tcp input₁ t₁) (h₂ : s₂.Reads c i tcp input₂ t₂) : Alike client t₁ t₂ := by
  unfold Reads at h₁ h₂
  split at h₁
  · rename_i hauth
    rw [if_pos hauth] at h₂
    have hclient : tcp.client ≠ client := fun hclient ↦ by
      rw [h.stranger tcp (List.mem_of_getElem? htcp) hclient] at hauth
      cases hauth
    exact h.request hclient h₁ h₂ (hheard hauth)
  · rename_i hauth
    rw [if_neg hauth] at h₂
    obtain rfl := hinput.resolve_left hauth
    split at h₁
    · -- the connection of another client, as this one withholds the credentials
      rename_i haccepts
      rw [if_pos haccepts] at h₂
      subst h₁ h₂
      refine (h.set i { tcp with authenticated := true } fun hclient ↦ ?_).reply fun _ ↦ rfl
      rw [hwithholds hclient] at haccepts
      cases haccepts
    · rename_i haccepts
      rw [if_neg haccepts] at h₂
      subst h₁ h₂
      exact (h.set i { tcp with isOpen := false }
        (h.stranger tcp (List.mem_of_getElem? htcp))).reply fun _ ↦ rfl

/-- **An HTTP request**, which may differ in the body of a query if it comes with the credentials. -/
theorem Alike.http (h : Alike client s₁ s₂) {client' : Nat} {authorization : Option Text}
    {route₁ route₂ : Route} (hroute : route₁ = route₂ ∨ ∃ body₁ body₂, route₁ = .query body₁ ∧
      route₂ = .query body₂ ∧ c.credentials.checkAuth authorization = true)
    (hwithholds : client' = client → c.credentials.checkAuth authorization = false)
    (hheard : Unheard c client s₁ s₂ (.http client' authorization route₁)
      (.http client' authorization route₂))
    (h₁ : s₁.Step c (.http client' authorization route₁) t₁)
    (h₂ : s₂.Step c (.http client' authorization route₂) t₂) : Alike client t₁ t₂ := by
  unfold Step at h₁ h₂
  dsimp only at h₁ h₂
  rcases hroute with rfl | ⟨body₁, body₂, rfl, rfl, hcheck⟩
  · split at h₁
    · rename_i hserved
      rw [if_pos hserved] at h₂
      have hpublic : client' = client → route₁.isPublic = true := fun hclient ↦ by
        rwa [hwithholds hclient, Bool.or_false] at hserved
      -- a query is served with the credentials only, so it is not the client's
      by_cases hquery : ∃ body, route₁ = .query body
      · obtain ⟨body, rfl⟩ := hquery
        exact h.request (fun hclient ↦ nomatch hpublic hclient) h₁ h₂ fun hne ↦ absurd rfl hne
      · exact h.serves (fun body hbody ↦ hquery ⟨body, hbody⟩) hpublic h₁ h₂
    · rename_i hserved
      rw [if_neg hserved] at h₂
      subst h₁ h₂
      exact h.reply fun _ ↦ rfl
  · have hclient : client' ≠ client := fun hclient ↦ by
      rw [hwithholds hclient] at hcheck
      cases hcheck
    rw [if_pos (by rw [hcheck, Bool.or_true])] at h₁ h₂
    refine h.request hclient h₁ h₂ fun hne ↦ hheard fun heq ↦ hne ?_
    rw [request?, request?, if_pos hcheck, if_pos hcheck] at heq
    exact congrArg (·.2.2) (Option.some.inj heq)

/-- **A step** that differs in the text of an authenticated request at most. -/
theorem Alike.step (h : Alike client s₁ s₂) (hcompared : Compared c client s₁ s₂ e₁ e₂)
    (hheard : Unheard c client s₁ s₂ e₁ e₂) (h₁ : s₁.Step c e₁ t₁) (h₂ : s₂.Step c e₂ t₂) :
    Alike client t₁ t₂ := by
  obtain ⟨hmatches, hwithholds, -⟩ := hcompared
  -- the texts of two lines on an authenticated connection
  have hlines : ∀ {i : Nat} {tcp : Connection} {input₁ input₂ : Text},
      s₁.connections[i]? = some tcp → tcp.authenticated = true →
        Unheard c client s₁ s₂ (.line i input₁) (.line i input₂) → input₁.trim ≠ input₂.trim →
          ∀ socket ∈ s₁.sockets, socket.isOpen → socket.client ≠ client := by
    intro i tcp input₁ input₂ htcp hauth hheard hne
    refine hheard fun heq ↦ hne ?_
    rw [request?, request?, h.connections, htcp, Option.bind_some, Option.bind_some, if_pos hauth,
      if_pos hauth] at heq
    exact congrArg (·.2.2) (Option.some.inj heq)
  cases hmatches with
  | line input₁ input₂ htcp hauth =>
    obtain ⟨tcp₁, htcp₁, -, h₁⟩ := h₁
    obtain ⟨tcp₂, htcp₂, -, h₂⟩ := h₂
    obtain rfl := Option.some.inj (htcp.symm.trans htcp₁)
    obtain rfl := Option.some.inj (htcp.symm.trans (h.connections ▸ htcp₂))
    exact h.reads htcp (Or.inl hauth) (hwithholds _ htcp) (fun hauth ↦ hlines htcp hauth hheard) h₁ h₂
  | query body₁ body₂ hcheck =>
    exact h.http (Or.inr ⟨body₁, body₂, rfl, rfl, hcheck⟩) hwithholds hheard h₁ h₂
  | background actions₁ actions₂ =>
    obtain ⟨system₁, -, -, rfl⟩ := h₁
    obtain ⟨system₂, -, -, rfl⟩ := h₂
    exact h.withSystem system₁ system₂
  | same =>
    cases e₁ with
    | accept client' =>
      subst h₁ h₂
      refine ⟨?_, ?_, h.sockets, h.length, h.sent, h.heard, fun tcp htcp hclient ↦ ?_⟩
      · rw [h.connections, h.nextConnId]
      · rw [h.nextConnId]
      · rcases List.mem_append.1 htcp with htcp | htcp
        · exact h.stranger tcp htcp hclient
        · rw [List.mem_singleton.1 htcp]
    | line i input =>
      obtain ⟨tcp₁, htcp₁, -, h₁⟩ := h₁
      obtain ⟨tcp₂, htcp₂, -, h₂⟩ := h₂
      obtain rfl := Option.some.inj (htcp₁.symm.trans (h.connections ▸ htcp₂))
      exact h.reads htcp₁ (Or.inr rfl) (hwithholds _ htcp₁) (fun _ hne ↦ absurd rfl hne) h₁ h₂
    | hangUp i =>
      obtain ⟨tcp₁, htcp₁, rfl⟩ := h₁
      obtain ⟨tcp₂, htcp₂, rfl⟩ := h₂
      obtain rfl := Option.some.inj (htcp₁.symm.trans (h.connections ▸ htcp₂))
      exact h.set i { tcp₁ with isOpen := false } (h.stranger tcp₁ (List.mem_of_getElem? htcp₁))
    | http client' authorization route =>
      exact h.http (Or.inl rfl) hwithholds hheard h₁ h₂
    | openSocket client' =>
      subst h₁ h₂
      refine ⟨h.connections, h.nextConnId, ?_, h.length, h.sent, fun socket hsocket hopen hclient ↦ ?_,
        h.stranger⟩
      · rw [h.sockets, h.length]
      · rcases List.mem_append.1 hsocket with hsocket | hsocket
        · exact h.heard socket hsocket hopen hclient
        · -- the new socket has heard everything that was published so far
          rw [List.mem_singleton.1 hsocket]
          show s₂.published.drop s₁.published.length = s₁.published.drop s₁.published.length
          rw [List.drop_length, ← h.length, List.drop_length]
    | receive i =>
      obtain ⟨socket₁, hsocket₁, hopen, h₁⟩ := h₁
      obtain ⟨socket₂, hsocket₂, -, h₂⟩ := h₂
      obtain rfl := Option.some.inj (hsocket₁.symm.trans (h.sockets ▸ hsocket₂))
      exact h.receives hsocket₁ hopen h₁ h₂
    | tick i =>
      obtain ⟨socket₁, hsocket₁, -, rfl⟩ := h₁
      obtain ⟨socket₂, hsocket₂, -, rfl⟩ := h₂
      obtain rfl := Option.some.inj (hsocket₁.symm.trans (h.sockets ▸ hsocket₂))
      exact h.reply fun _ ↦ rfl
    | closeSocket i =>
      obtain ⟨socket₁, hsocket₁, rfl⟩ := h₁
      obtain ⟨socket₂, hsocket₂, rfl⟩ := h₂
      obtain rfl := Option.some.inj (hsocket₁.symm.trans (h.sockets ▸ hsocket₂))
      exact h.setSocket hsocket₁ { socket₁ with isOpen := false } rfl (by rintro ⟨⟩) le_rfl
    | background actions =>
      obtain ⟨system₁, -, -, rfl⟩ := h₁
      obtain ⟨system₂, -, -, rfl⟩ := h₂
      exact h.withSystem system₁ system₂

/-- Client 1 has sent a command over HTTP, when client 2 opens a WebSocket, waits, and asks for a query
without credentials. -/
def refused (sql : String) (command : Command) (output : String) : Server :=
  Server.reply (Server.reply
    { (start Engine.empty).afterCommand 1 httpConnId sql command output with
      sockets := [{ client := 2, next := 1 }] } 2 .metric) 2 (.status 401 (bytes "Unauthorized"))

/-- Client 2 has a WebSocket open. -/
def listening : Server := { start Engine.empty with sockets := [{ client := 2, next := 0 }] }

/-- Behind a command of client 1 over HTTP, the text of which is then sent on the WebSocket. -/
def overheard (sql : String) (command : Command) (output : String) : Server :=
  Server.reply { listening.afterCommand 1 httpConnId sql command output with
    sockets := [{ client := 2, next := 1 }] } 2 (.log sql.toList)

theorem step_overheard (sql : String) (command : Command) (output : String) :
    (listening.afterCommand 1 httpConnId sql command output).Step plainSetup (.receive 0)
      (overheard sql command output) := by
  refine ⟨_, rfl, rfl, ?_⟩
  unfold Receives
  exact ⟨sql.toList, rfl, rfl⟩

end Server

end KsSql
