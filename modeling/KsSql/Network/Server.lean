import KsSql.Network.Hotswap
import KsSql.Parser.Script
import KsSql.Parser.TimeMachine

/-!
# The server

`network/server.rs`: TCP connections, on which each line is a request, HTTP requests, and WebSockets on
which a client is told what happens. Both front ends call the engine, TCP with the number of the
connection, which a counter assigns, and HTTP with one number for all clients. Both publish the text of
each authenticated request on a broadcast channel, which the WebSockets read.

A run of the server is a list of events, each a relation between the states before and after it, as
what a request does depends on the other threads. A request is one event, so other clients' requests
come before it or after it. `opener` and `sent` are history: which client opened the transaction of a
connection number, and what was sent to whom.
-/

namespace KsSql

/-- The number under which HTTP requests are executed. -/
def httpConnId : Nat := 999

/-- The credentials that the server was started with. -/
structure Credentials where
  user : Text
  pass : Text

/-- `format!("{}:{}", user, pass)` -/
def Credentials.text (c : Credentials) : Text := c.user ++ ':' :: c.pass

/-- `check_auth`, on the text of the `Authorization` header. -/
def Credentials.checkAuth (c : Credentials) (authorization : Option Text) : Bool :=
  authorization == some c.text

/-- The check of the first line of a TCP connection. -/
def Credentials.accepts (c : Credentials) (input : Text) : Bool :=
  "AUTH ".toList.isPrefixOf input && Text.trim (.trimStartMatches "AUTH ".toList input) == c.text

/-- What a client is sent. -/
inductive Message
  /-- The static page. -/
  | dashboard
  /-- `AUTHENTICATED` -/
  | authenticated
  /-- The error for a line on a TCP connection without authentication. -/
  | authenticationRequired
  /-- A status, with a body. -/
  | status (code : Nat) (body : Bytes)
  /-- The answer to a query. -/
  | result (r : Except ExecuteError Bytes)
  /-- The answer to a backup. -/
  | image (pager : Pager Bytes Data)
  /-- A published text, on a WebSocket. -/
  | log (text : Text)
  /-- The metrics of the hardware and the cache, on a WebSocket. -/
  | metric

/-- The HTTP routes, with what of a request's body is used. A body that is not as it should be is
`none`. -/
inductive Route
  | dashboard
  | query (body : Text)
  | undo
  | redo
  | backup
  | memoryMode (turbo : Option Bool)
  | memoryLimit (limitMb : Option Nat)
  | memoryPurge
  /-- The page file found under the address that is asked for. -/
  | hotswap (image : Option (Pager Bytes Data))

/-- The route needs no credentials. -/
def Route.isPublic : Route → Bool
  | .dashboard => true
  | _ => false

/-- The body of the answer to a request without the right credentials. -/
def Route.unauthorizedBody : Route → Bytes
  | .query _ => bytes "Unauthorized"
  | _ => []

/-- `memory_tier.max_ram_mb.store` -/
def System.setLimit (s : System) (limitMb : Nat) : System :=
  { s with engine := { s.engine with btree := { s.engine.btree with
    memoryTier := { s.engine.btree.memoryTier with maxRamMb := limitMb } } } }

/-- A TCP connection. -/
structure Connection where
  /-- The client at the other end. -/
  client : Nat
  connId : Nat
  authenticated : Bool := false
  isOpen : Bool := true

/-- A WebSocket, with the place of the next text in the broadcast channel. -/
structure Socket where
  client : Nat
  next : Nat
  isOpen : Bool := true

/-- The state of the server. -/
structure Server where
  system : System
  nextConnId : Nat := 1000
  /-- The TCP connections, in the order in which they were accepted. -/
  connections : List Connection := []
  sockets : List Socket := []
  /-- The texts sent on the broadcast channel, oldest first. -/
  published : List Text := []
  /-- History: the client that last opened a transaction under a connection number. -/
  opener : Nat → Option Nat := fun _ ↦ none
  /-- History: what was sent to whom, oldest first. -/
  sent : List (Nat × Message) := []

/-- What can happen. -/
inductive Event
  /-- A client opens a TCP connection. -/
  | accept (client : Nat)
  /-- A line arrives on a TCP connection. -/
  | line (connection : Nat) (input : Text)
  /-- A TCP connection ends. -/
  | hangUp (connection : Nat)
  /-- An HTTP request of a client, with its `Authorization` header. -/
  | http (client : Nat) (authorization : Option Text) (route : Route)
  /-- A client opens a WebSocket. -/
  | openSocket (client : Nat)
  /-- A WebSocket receives from the broadcast channel. -/
  | receive (socket : Nat)
  /-- A WebSocket has waited for a tenth of a second. -/
  | tick (socket : Nat)
  /-- A WebSocket ends. -/
  | closeSocket (socket : Nat)
  /-- Steps of the engine's threads. -/
  | background (actions : List Action)

/-- What the server is started with, and what comes from outside the repository. -/
structure Setup where
  frontend : Frontend
  runtime : Runtime
  credentials : Credentials
  /-- How many texts the broadcast channel holds for a receiver that lags behind. -/
  capacity : Nat

namespace Server

variable [Bincode (WalEntry Bytes Data)] (c : Setup)

/-- The server just started, on what `Engine::new` found in the files. No transaction is open. -/
def start (engine : Engine) : Server :=
  { system := { engine := { engine with activeTransactions := ∅ } } }

/-- The transaction that is open under a connection number. -/
def transaction (s : Server) (conn : Nat) : Option Transaction :=
  s.system.engine.activeTransactions.lookup conn

/-- The request to the engine that an event makes: of which client, under which connection number, with
which text. -/
def request? (s : Server) : Event → Option (Nat × Nat × Text)
  | .line i input => s.connections[i]?.bind fun tcp ↦
    if tcp.authenticated then some (tcp.client, tcp.connId, input.trim) else none
  | .http client authorization (.query body) =>
    if c.credentials.checkAuth authorization then some (client, httpConnId, body) else none
  | _ => none

/-- Send a message to a client. -/
def reply (s : Server) (client : Nat) (m : Message) : Server :=
  { s with sent := s.sent ++ [(client, m)] }

/-- What was sent to a client. -/
def sentTo (s : Server) (client : Nat) : List Message :=
  (s.sent.filter (·.1 = client)).map Prod.snd

/-- The state behind an authenticated request: its text is published, and its answer is sent. -/
def afterRequest (s : Server) (client conn : Nat) (sql : Text) (r : Except ExecuteError Bytes)
    (system : System) : Server :=
  reply { s with
    system := system
    published := s.published ++ [sql]
    opener := if c.frontend.IsBegin sql then Function.update s.opener conn (some client)
      else s.opener } client (.result r)

/-- An authenticated request of a client. -/
def Requests (s : Server) (client conn : Nat) (sql : Text) (s' : Server) : Prop :=
  ∃ r system, c.frontend.Executes c.runtime conn sql s.system r system ∧
    s' = s.afterRequest c client conn sql r system

/-- A line on a TCP connection, without the white space around it. -/
def Reads (s : Server) (i : Nat) (tcp : Connection) (input : Text) (s' : Server) : Prop :=
  if tcp.authenticated then s.Requests c tcp.client tcp.connId input s'
  else if c.credentials.accepts input then
    s' = reply { s with connections := s.connections.set i { tcp with authenticated := true } }
      tcp.client .authenticated
  else
    s' = reply { s with connections := s.connections.set i { tcp with isOpen := false } }
      tcp.client .authenticationRequired

/-- An HTTP request that is served. -/
def Serves (s : Server) (client : Nat) : Route → Server → Prop
  | .dashboard, s' => s' = s.reply client .dashboard
  | .query body, s' => s.Requests c client httpConnId body s'
  | .undo, s' => s' = reply { s with system := { s.system with engine := s.system.engine.undo } } client
      (.status 200 [])
  | .redo, s' => s' = reply { s with system := { s.system with engine := s.system.engine.redo } } client
      (.status 200 [])
  | .backup, s' => s' = s.reply client (.image s.system.backup)
  | .memoryMode turbo, s' => s' = s.reply client (.status (if turbo.isSome then 200 else 400) [])
  | .memoryLimit none, s' => s' = s.reply client (.status 400 [])
  | .memoryLimit (some limit), s' => s' = reply { s with system := s.system.setLimit limit } client
      (.status 200 [])
  | .memoryPurge, s' => ∃ system, s.system.step c.runtime .purge = some system ∧
      s' = reply { s with system := system } client (.status 200 [])
  | .hotswap none, s' => s' = s.reply client (.status 400 [])
  | .hotswap (some image), s' => ∃ system,
      s.system.Hotswaps c.runtime (fun _ a ↦ a.isCall = false) image system ∧
        s' = reply { s with system := system } client (.status 200 [])

/-- A WebSocket receives a text, or learns that it lags behind too far; then it goes on with the oldest
text that the channel still holds. -/
def Receives (s : Server) (i : Nat) (socket : Socket) (s' : Server) : Prop :=
  if s.published.length - socket.next > c.capacity then
    s' = { s with sockets :=
      s.sockets.set i { socket with next := s.published.length - c.capacity } }
  else
    ∃ text, s.published[socket.next]? = some text ∧
      s' = reply { s with sockets := s.sockets.set i { socket with next := socket.next + 1 } }
        socket.client (.log text)

/-- What an event does. -/
def Step (s : Server) : Event → Server → Prop
  | .accept client, s' => s' = { s with
      connections := s.connections ++ [{ client := client, connId := s.nextConnId }]
      nextConnId := (s.nextConnId + 1) % 2 ^ 32 }
  | .line i input, s' => ∃ tcp, s.connections[i]? = some tcp ∧ tcp.isOpen ∧
      s.Reads c i tcp input.trim s'
  | .hangUp i, s' => ∃ tcp, s.connections[i]? = some tcp ∧
      s' = { s with connections := s.connections.set i { tcp with isOpen := false } }
  | .http client authorization route, s' =>
    if route.isPublic || c.credentials.checkAuth authorization then s.Serves c client route s'
    else s' = s.reply client (.status 401 route.unauthorizedBody)
  | .openSocket client, s' => s' = { s with
      sockets := s.sockets ++ [{ client := client, next := s.published.length }] }
  | .receive i, s' => ∃ socket, s.sockets[i]? = some socket ∧ socket.isOpen ∧ s.Receives c i socket s'
  | .tick i, s' => ∃ socket, s.sockets[i]? = some socket ∧ socket.isOpen ∧
      s' = s.reply socket.client .metric
  | .closeSocket i, s' => ∃ socket, s.sockets[i]? = some socket ∧
      s' = { s with sockets := s.sockets.set i { socket with isOpen := false } }
  | .background actions, s' => ∃ system, (∀ a ∈ actions, a.isCall = false) ∧
      s.system.run c.runtime actions = some system ∧ s' = { s with system := system }

/-- A run, each event of which has the property in the state before it. -/
def Run (P : Server → Event → Prop) (s : Server) : List Event → Server → Prop
  | [], s' => s' = s
  | e :: events, s' => P s e ∧ ∃ s₁, s.Step c e s₁ ∧ Run P s₁ events s'

variable {c}

/-- **Runs.** What every step keeps holds after every run. -/
theorem run_invariant {I : Server → Prop} {P : Server → Event → Prop}
    (hstep : ∀ s e s', P s e → I s → s.Step c e s' → I s') :
    ∀ {events : List Event} {s s' : Server}, I s → s.Run c P events s' → I s'
  | [], _, _, hs, hrun => hrun ▸ hs
  | e :: _, s, _, hs, ⟨he, s₁, h₁, hrun⟩ => by
    have hrest := run_invariant hstep (hstep s e s₁ he hs h₁) hrun
    exact hrest

/-! ### Requests, and what comes beside them -/

variable {s s' : Server} {e : Event}

/-- The step is no request: it publishes nothing and touches no transaction. -/
structure Beside (s s' : Server) : Prop where
  opener : s'.opener = s.opener
  published : s'.published = s.published
  transaction : ∀ conn, s'.transaction conn = s.transaction conn

theorem Reads.request_or_beside {i : Nat} {tcp : Connection} {input : Text}
    (h : s.Reads c i tcp input s') :
    (tcp.authenticated = true ∧ s.Requests c tcp.client tcp.connId input s') ∨
      (tcp.authenticated = false ∧ s.Beside s') := by
  unfold Reads at h
  split at h
  · rename_i hauth
    exact Or.inl ⟨hauth, h⟩
  · rename_i hauth
    refine Or.inr ⟨Bool.eq_false_of_not_eq_true hauth, ?_⟩
    split at h <;> exact h ▸ ⟨rfl, rfl, fun _ ↦ rfl⟩

theorem Serves.request_or_beside {client : Nat} {route : Route} (h : s.Serves c client route s') :
    (∃ body, route = .query body ∧ s.Requests c client httpConnId body s') ∨
      ((∀ body, route ≠ .query body) ∧ s.Beside s') := by
  cases route with
  | query body => exact Or.inl ⟨body, rfl, h⟩
  | undo =>
    refine Or.inr ⟨nofun, h ▸ ⟨rfl, rfl, fun conn ↦ ?_⟩⟩
    show s.system.engine.undo.activeTransactions.lookup conn = _
    unfold Engine.undo
    split <;> rfl
  | memoryLimit limit =>
    cases limit <;> exact Or.inr ⟨nofun, h ▸ ⟨rfl, rfl, fun _ ↦ rfl⟩⟩
  | memoryPurge =>
    obtain ⟨system, hstep, rfl⟩ := h
    refine Or.inr ⟨nofun, rfl, rfl, fun conn ↦ ?_⟩
    exact congrArg (AList.lookup conn) (System.activeTransactions_of_step rfl hstep)
  | hotswap image =>
    cases image with
    | none => exact Or.inr ⟨nofun, h ▸ ⟨rfl, rfl, fun _ ↦ rfl⟩⟩
    | some image =>
      obtain ⟨system, ⟨-, actions, s₁, hrun, hnone, -, rfl⟩, rfl⟩ := h
      refine Or.inr ⟨nofun, rfl, rfl, fun conn ↦ ?_⟩
      have hkeep : s₁.engine.activeTransactions = s.system.engine.activeTransactions :=
        System.run_along
          (I := fun t ↦ t.engine.activeTransactions = s.system.engine.activeTransactions)
          (P := fun _ ↦ True) (fun _ _ _ _ ha ht hstep ↦
            (System.activeTransactions_of_step ha hstep).trans ht) (fun _ _ ↦ trivial) hnone rfl hrun
      exact congrArg (AList.lookup conn) hkeep
  | _ => exact Or.inr ⟨nofun, h ▸ ⟨rfl, rfl, fun _ ↦ rfl⟩⟩

/-- **A step** is a request to the engine, or it publishes nothing and touches no transaction. -/
theorem Step.request_or_beside (h : s.Step c e s') :
    (∃ client conn sql, s.request? c e = some (client, conn, sql) ∧
      s.Requests c client conn sql s') ∨ (s.request? c e = none ∧ s.Beside s') := by
  cases e with
  | line i input =>
    obtain ⟨tcp, htcp, -, hreads⟩ := h
    have hrequest : s.request? c (.line i input) =
        if tcp.authenticated then some (tcp.client, tcp.connId, input.trim) else none := by
      rw [request?, htcp]
      rfl
    rcases hreads.request_or_beside with ⟨hauth, hrequests⟩ | ⟨hauth, hbeside⟩
    · exact Or.inl ⟨_, _, _, hrequest.trans (if_pos hauth), hrequests⟩
    · exact Or.inr ⟨hrequest.trans (if_neg (by rw [hauth]; nofun)), hbeside⟩
  | http client authorization route =>
    unfold Step at h
    dsimp only at h
    split at h
    · rename_i hauth
      rcases h.request_or_beside with ⟨body, rfl, hrequests⟩ | ⟨hroute, hbeside⟩
      · have hcheck : c.credentials.checkAuth authorization = true := hauth
        exact Or.inl ⟨client, httpConnId, body, if_pos hcheck, hrequests⟩
      · refine Or.inr ⟨?_, hbeside⟩
        cases route with
        | query body => exact absurd rfl (hroute body)
        | _ => rfl
    · rename_i hauth
      refine Or.inr ⟨?_, h ▸ ⟨rfl, rfl, fun _ ↦ rfl⟩⟩
      cases route with
      | query body => exact if_neg hauth
      | _ => rfl
  | hangUp i =>
    obtain ⟨tcp, -, rfl⟩ := h
    exact Or.inr ⟨rfl, rfl, rfl, fun _ ↦ rfl⟩
  | receive i =>
    obtain ⟨socket, -, -, hreceives⟩ := h
    refine Or.inr ⟨rfl, ?_⟩
    unfold Receives at hreceives
    split at hreceives
    · exact hreceives ▸ ⟨rfl, rfl, fun _ ↦ rfl⟩
    · obtain ⟨text, -, rfl⟩ := hreceives
      exact ⟨rfl, rfl, fun _ ↦ rfl⟩
  | tick i =>
    obtain ⟨socket, -, -, rfl⟩ := h
    exact Or.inr ⟨rfl, rfl, rfl, fun _ ↦ rfl⟩
  | closeSocket i =>
    obtain ⟨socket, -, rfl⟩ := h
    exact Or.inr ⟨rfl, rfl, rfl, fun _ ↦ rfl⟩
  | background actions =>
    obtain ⟨system, hactions, hrun, rfl⟩ := h
    exact Or.inr ⟨rfl, rfl, rfl, fun conn ↦
      congrArg (AList.lookup conn) (System.activeTransactions_of_run hactions hrun)⟩
  | _ => exact Or.inr ⟨rfl, h ▸ ⟨rfl, rfl, fun _ ↦ rfl⟩⟩

end Server

end KsSql
