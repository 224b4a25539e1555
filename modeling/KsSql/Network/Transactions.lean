import KsSql.Network.Server

/-!
# Whose transaction a client is in

Transactions are kept under connection numbers. The TCP front end gives each connection a number of its
own, as long as its 32-bit counter has not come round; the HTTP front end executes the requests of all
its clients under one number. So a client's requests stay out of the transactions of other clients
(`clients_apart`) in a run in which an HTTP request only comes while no other client has a transaction
open over HTTP, and the counter gives out no number that another client still has (`Exclusive`). Without
the first condition one client rolls back what another one began (`not_clients_apart`); the second one
holds of the first `2 ^ 32 - 1000` connections (`exclusive_accept`).
-/

namespace KsSql

namespace Server

variable [Bincode (WalEntry Bytes Data)] {c : Setup} {s s' : Server} {e : Event} {client conn : Nat}
  {sql : Text}

/-- If a transaction is open under the connection number, the client opened it. -/
def Owns (s : Server) (client conn : Nat) : Prop :=
  (s.transaction conn).isSome → s.opener conn = some client

/-- A step's request is executed in no transaction of another client, and leaves the transactions of
other clients as they are. -/
def KeepsApart (c : Setup) (s : Server) (e : Event) (s' : Server) : Prop :=
  ∀ client conn sql, s.request? c e = some (client, conn, sql) →
    s.Owns client conn ∧
      ∀ i, (s.transaction i).isSome → s.opener i ≠ some client → s'.transaction i = s.transaction i

/-- The event is no HTTP request while another client has a transaction open over HTTP, and no TCP
connection that gets a number which is the one of HTTP or which another client still has. -/
def Exclusive (c : Setup) (s : Server) : Event → Prop
  | .accept client => s.nextConnId ≠ httpConnId ∧ s.Owns client s.nextConnId ∧
      ∀ tcp ∈ s.connections, tcp.isOpen → tcp.connId = s.nextConnId → tcp.client = client
  | .http client authorization (.query _) =>
    c.credentials.checkAuth authorization → s.Owns client httpConnId
  | _ => True

/-! ### Requests -/

/-- A request leaves the other connection numbers alone. -/
theorem Requests.others (h : s.Requests c client conn sql s') {i : Nat} (hi : i ≠ conn) :
    s'.transaction i = s.transaction i ∧ s'.opener i = s.opener i := by
  obtain ⟨r, system, hexecutes, rfl⟩ := h
  refine ⟨hexecutes.others hi, ?_⟩
  show (if c.frontend.IsBegin sql then Function.update s.opener conn (some client) else s.opener) i = _
  split
  · exact Function.update_of_ne hi _ _
  · rfl

/-- A transaction that is open behind a request under its own number is the client's, if the one before
it was. -/
theorem Requests.owns (h : s.Requests c client conn sql s') (hown : s.Owns client conn) :
    s'.Owns client conn := by
  obtain ⟨r, system, hexecutes, rfl⟩ := h
  intro hopen
  show (if c.frontend.IsBegin sql then Function.update s.opener conn (some client) else s.opener) conn
    = some client
  split
  · exact Function.update_self _ _ _
  · rename_i hsql
    refine hown (Option.isSome_iff_ne_none.2 fun hnone ↦ ?_)
    have htouches := hexecutes.begins_or_touches.resolve_left fun h ↦ hsql h.1
    exact Option.isSome_iff_ne_none.1 hopen (htouches.opensNone hnone)

/-- What a client owns under a number, it owns behind a request under the same number of its own, or
under another number. -/
theorem Requests.keeps_owns (h : s.Requests c client conn sql s') {client' i : Nat}
    (hown : s.Owns client' i) (hsame : i = conn → client' = client) : s'.Owns client' i := by
  by_cases hi : i = conn
  · rw [hsame hi, hi] at hown ⊢
    exact h.owns hown
  · obtain ⟨htransaction, hopener⟩ := h.others hi
    rw [Owns, htransaction, hopener]
    exact hown

omit [Bincode (WalEntry Bytes Data)] in
/-- Behind a step that is no request every client owns what it owned. -/
theorem Beside.keeps_owns (h : s.Beside s') {i : Nat} (hown : s.Owns client i) : s'.Owns client i := by
  rw [Owns, h.transaction, h.opener]
  exact hown

/-! ### Connections -/

/-- The TCP connections go on, or end. -/
structure Continues (s s' : Server) : Prop where
  nextConnId : s'.nextConnId = s.nextConnId
  connIds : s'.connections.map Connection.connId = s.connections.map Connection.connId
  continued : ∀ tcp ∈ s'.connections, tcp.isOpen → ∃ tcp' ∈ s.connections, tcp'.isOpen ∧
    tcp'.client = tcp.client ∧ tcp'.connId = tcp.connId

omit [Bincode (WalEntry Bytes Data)] in
theorem Continues.of_eq (hconnections : s'.connections = s.connections)
    (hnext : s'.nextConnId = s.nextConnId) : s.Continues s' :=
  ⟨hnext, by rw [hconnections], fun tcp htcp hopen ↦ ⟨tcp, hconnections ▸ htcp, hopen, rfl, rfl⟩⟩

omit [Bincode (WalEntry Bytes Data)] in
theorem Continues.set {i : Nat} {tcp : Connection} (htcp : s.connections[i]? = some tcp)
    (tcp' : Connection) (hclient : tcp'.client = tcp.client) (hconnId : tcp'.connId = tcp.connId)
    (hopen : tcp'.isOpen → tcp.isOpen) (hconnections : s'.connections = s.connections.set i tcp')
    (hnext : s'.nextConnId = s.nextConnId) : s.Continues s' where
  nextConnId := hnext
  connIds := by
    obtain ⟨hi, rfl⟩ := List.getElem?_eq_some_iff.1 htcp
    have hlength : i < (s.connections.map Connection.connId).length := by rwa [List.length_map]
    rw [hconnections, List.map_set, hconnId, ← List.getElem_map Connection.connId (h := hlength),
      List.set_getElem_self]
  continued x hx hxopen := by
    rw [hconnections] at hx
    rcases List.mem_or_eq_of_mem_set hx with hx | rfl
    · exact ⟨x, hx, hxopen, rfl, rfl⟩
    · exact ⟨tcp, List.mem_of_getElem? htcp, hopen hxopen, hclient.symm, hconnId.symm⟩

omit [Bincode (WalEntry Bytes Data)] in
theorem Continues.refl (s : Server) : s.Continues s := .of_eq rfl rfl

theorem Requests.continues (h : s.Requests c client conn sql s') : s.Continues s' := by
  obtain ⟨r, system, -, rfl⟩ := h
  exact .of_eq rfl rfl

theorem Reads.continues {i : Nat} {tcp : Connection} {input : Text}
    (htcp : s.connections[i]? = some tcp) (h : s.Reads c i tcp input s') : s.Continues s' := by
  unfold Reads at h
  split at h
  · exact h.continues
  · split at h <;> subst h
    · exact .set htcp { tcp with authenticated := true } rfl rfl id rfl rfl
    · exact .set htcp { tcp with isOpen := false } rfl rfl nofun rfl rfl

theorem Serves.continues {route : Route} (h : s.Serves c client route s') : s.Continues s' := by
  cases route with
  | query body => exact Requests.continues h
  | memoryLimit limit => cases limit <;> exact h ▸ .of_eq rfl rfl
  | memoryPurge =>
    obtain ⟨system, -, rfl⟩ := h
    exact .of_eq rfl rfl
  | hotswap image =>
    cases image with
    | none => exact h ▸ .of_eq rfl rfl
    | some image =>
      obtain ⟨system, -, rfl⟩ := h
      exact .of_eq rfl rfl
  | _ => exact h ▸ .of_eq rfl rfl

/-- **A step** opens a TCP connection, or the ones there are go on or end. -/
theorem Step.accept_or_continues (h : s.Step c e s') :
    (∃ client, e = .accept client ∧ s'.nextConnId = (s.nextConnId + 1) % 2 ^ 32 ∧
      s'.connections = s.connections ++ [{ client := client, connId := s.nextConnId }]) ∨
      s.Continues s' := by
  cases e with
  | accept client => exact Or.inl ⟨client, rfl, h ▸ rfl, h ▸ rfl⟩
  | line i input =>
    obtain ⟨tcp, htcp, -, hreads⟩ := h
    exact Or.inr (hreads.continues htcp)
  | hangUp i =>
    obtain ⟨tcp, htcp, rfl⟩ := h
    exact Or.inr (.set htcp { tcp with isOpen := false } rfl rfl nofun rfl rfl)
  | http client authorization route =>
    unfold Step at h
    dsimp only at h
    split at h
    · exact Or.inr h.continues
    · exact Or.inr (h ▸ .of_eq rfl rfl)
  | openSocket client => exact Or.inr (h ▸ .of_eq rfl rfl)
  | receive i =>
    obtain ⟨socket, -, -, hreceives⟩ := h
    unfold Receives at hreceives
    split at hreceives
    · exact Or.inr (hreceives ▸ .of_eq rfl rfl)
    · obtain ⟨text, -, rfl⟩ := hreceives
      exact Or.inr (.of_eq rfl rfl)
  | tick i =>
    obtain ⟨socket, -, -, rfl⟩ := h
    exact Or.inr (.of_eq rfl rfl)
  | closeSocket i =>
    obtain ⟨socket, -, rfl⟩ := h
    exact Or.inr (.of_eq rfl rfl)
  | background actions =>
    obtain ⟨system, -, -, rfl⟩ := h
    exact Or.inr (.of_eq rfl rfl)

/-! ### Runs -/

/-- Open TCP connections with one number are one client's, the number is not the one of HTTP, and a
transaction open under it is the client's. -/
structure Apart (s : Server) : Prop where
  notHttp : ∀ tcp ∈ s.connections, tcp.isOpen → tcp.connId ≠ httpConnId
  same : ∀ tcp ∈ s.connections, ∀ tcp' ∈ s.connections, tcp.isOpen → tcp'.isOpen →
    tcp.connId = tcp'.connId → tcp.client = tcp'.client
  owns : ∀ tcp ∈ s.connections, tcp.isOpen → s.Owns tcp.client tcp.connId

omit [Bincode (WalEntry Bytes Data)] in
theorem apart_start (engine : Engine) : (start engine).Apart := ⟨nofun, nofun, nofun⟩

omit [Bincode (WalEntry Bytes Data)] in
theorem Apart.continues (h : s.Apart) (hcontinues : s.Continues s')
    (howns : ∀ tcp ∈ s.connections, tcp.isOpen → s.Owns tcp.client tcp.connId →
      s'.Owns tcp.client tcp.connId) : s'.Apart where
  notHttp tcp htcp hopen := by
    obtain ⟨tcp₀, htcp₀, hopen₀, -, hconnId⟩ := hcontinues.continued tcp htcp hopen
    exact hconnId ▸ h.notHttp tcp₀ htcp₀ hopen₀
  same tcp htcp tcp' htcp' hopen hopen' heq := by
    obtain ⟨tcp₀, htcp₀, hopen₀, hclient, hconnId⟩ := hcontinues.continued tcp htcp hopen
    obtain ⟨tcp₁, htcp₁, hopen₁, hclient', hconnId'⟩ := hcontinues.continued tcp' htcp' hopen'
    rw [← hclient, ← hclient']
    exact h.same tcp₀ htcp₀ tcp₁ htcp₁ hopen₀ hopen₁ (hconnId.trans (heq.trans hconnId'.symm))
  owns tcp htcp hopen := by
    obtain ⟨tcp₀, htcp₀, hopen₀, hclient, hconnId⟩ := hcontinues.continued tcp htcp hopen
    rw [← hclient, ← hconnId]
    exact howns tcp₀ htcp₀ hopen₀ (h.owns tcp₀ htcp₀ hopen₀)

/-- A request comes on an open TCP connection and has its number, or it is an HTTP request. -/
theorem Step.request_origin (hstep : s.Step c e s')
    (hrequest : s.request? c e = some (client, conn, sql)) :
    (∃ tcp ∈ s.connections, tcp.isOpen ∧ tcp.client = client ∧ tcp.connId = conn) ∨
      (conn = httpConnId ∧ ∃ authorization, e = .http client authorization (.query sql) ∧
        c.credentials.checkAuth authorization) := by
  cases e with
  | line i input =>
    obtain ⟨tcp, htcp, hopen, -⟩ := hstep
    rw [request?, htcp, Option.bind_some] at hrequest
    split at hrequest
    · cases hrequest
      exact Or.inl ⟨tcp, List.mem_of_getElem? htcp, hopen, rfl, rfl⟩
    · cases hrequest
  | http client' authorization route =>
    cases route with
    | query body =>
      unfold request? at hrequest
      dsimp only at hrequest
      split at hrequest
      · rename_i hcheck
        cases hrequest
        exact Or.inr ⟨rfl, authorization, rfl, hcheck⟩
      · cases hrequest
    | _ => cases hrequest
  | _ => cases hrequest

/-- The client of a request owns what is open under its number. -/
theorem Apart.owns_of_request (h : s.Apart) (he : Exclusive c s e) (hstep : s.Step c e s')
    (hrequest : s.request? c e = some (client, conn, sql)) : s.Owns client conn := by
  rcases hstep.request_origin hrequest with ⟨tcp, htcp, hopen, rfl, rfl⟩ | ⟨rfl, _, rfl, hcheck⟩
  · exact h.owns tcp htcp hopen
  · exact he hcheck

/-- **A request** leaves the transactions of other clients as they are. -/
theorem Apart.keepsApart (h : s.Apart) (he : Exclusive c s e) (hstep : s.Step c e s') :
    KeepsApart c s e s' := by
  intro client conn sql hrequest
  have hown := h.owns_of_request he hstep hrequest
  refine ⟨hown, fun i hopen hother ↦ ?_⟩
  have hi : i ≠ conn := by
    rintro rfl
    exact hother (hown hopen)
  rcases hstep.request_or_beside with ⟨_, _, _, hrequest', hrequests⟩ | ⟨-, hbeside⟩
  · cases hrequest.symm.trans hrequest'
    exact (hrequests.others hi).1
  · exact hbeside.transaction i

omit [Bincode (WalEntry Bytes Data)] in
/-- A new TCP connection, under a number that no other client has. -/
theorem Apart.accept (h : s.Apart) (he : Exclusive c s (.accept client))
    (htransaction : ∀ i, s'.transaction i = s.transaction i) (hopener : s'.opener = s.opener)
    (hconnections : s'.connections =
      s.connections ++ [{ client := client, connId := s.nextConnId }]) : s'.Apart := by
  obtain ⟨hnotHttp, hown, hsame⟩ := he
  -- the new connection comes last
  have hmem : ∀ tcp ∈ s'.connections, tcp ∈ s.connections ∨
      (tcp.client = client ∧ tcp.connId = s.nextConnId) := by
    intro tcp htcp
    rw [hconnections, List.mem_append, List.mem_singleton] at htcp
    rcases htcp with htcp | rfl
    · exact Or.inl htcp
    · exact Or.inr ⟨rfl, rfl⟩
  have howns : ∀ {client i}, s.Owns client i → s'.Owns client i := by
    intro client i hown
    rw [Owns, htransaction, hopener]
    exact hown
  refine ⟨fun tcp htcp hopen ↦ ?_, fun tcp htcp tcp' htcp' hopen hopen' heq ↦ ?_,
    fun tcp htcp hopen ↦ ?_⟩
  · rcases hmem tcp htcp with htcp | ⟨-, hconnId⟩
    · exact h.notHttp tcp htcp hopen
    · exact hconnId ▸ hnotHttp
  · rcases hmem tcp htcp with htcp | ⟨hclient, hconnId⟩
    · rcases hmem tcp' htcp' with htcp' | ⟨hclient', hconnId'⟩
      · exact h.same tcp htcp tcp' htcp' hopen hopen' heq
      · exact (hsame tcp htcp hopen (heq.trans hconnId')).trans hclient'.symm
    · rcases hmem tcp' htcp' with htcp' | ⟨hclient', -⟩
      · exact hclient.trans (hsame tcp' htcp' hopen' (heq.symm.trans hconnId)).symm
      · exact hclient.trans hclient'.symm
  · rcases hmem tcp htcp with htcp | ⟨hclient, hconnId⟩
    · exact howns (h.owns tcp htcp hopen)
    · rw [hclient, hconnId]
      exact howns hown

theorem Apart.step (h : s.Apart) (he : Exclusive c s e) (hstep : s.Step c e s') : s'.Apart := by
  rcases hstep.accept_or_continues with ⟨client, rfl, -, hconnections⟩ | hcontinues
  · exact h.accept he (fun i ↦ hstep ▸ rfl) (hstep ▸ rfl) hconnections
  refine h.continues hcontinues fun tcp htcp hopen hown ↦ ?_
  rcases hstep.request_or_beside with ⟨client, conn, sql, hrequest, hrequests⟩ | ⟨-, hbeside⟩
  · -- a request under the number of another connection is one of the same client
    refine hrequests.keeps_owns hown fun hconn ↦ ?_
    rcases hstep.request_origin hrequest with ⟨tcp', htcp', hopen', hclient, hconnId⟩ | ⟨hhttp, -⟩
    · exact (h.same tcp htcp tcp' htcp' hopen hopen' (hconn.trans hconnId.symm)).trans hclient
    · exact absurd (hconn.trans hhttp) (h.notHttp tcp htcp hopen)
  · exact hbeside.keeps_owns hown

/-- **Clients do not share transactions** in a run in which HTTP requests come while no other client
has a transaction open over HTTP, and the counter gives out no number that another client still has. -/
theorem clients_apart {engine : Engine} {events : List Event}
    (hrun : (start engine).Run c (Exclusive c) events s) (he : Exclusive c s e)
    (hstep : s.Step c e s') : KeepsApart c s e s' := by
  have hapart : s.Apart := run_invariant (fun _ _ _ he h hstep ↦ h.step he hstep) (apart_start engine)
    hrun
  exact hapart.keepsApart he hstep

/-- A server to compute with. -/
def plainSetup : Setup where
  frontend := .plain
  runtime := .plain
  credentials := ⟨"a".toList, "b".toList⟩
  capacity := 1024

/-- An HTTP query with the credentials of `plainSetup`. -/
def plainQuery (client : Nat) (sql : String) : Event :=
  .http client (some "a:b".toList) (.query sql.toList)

/-- The state behind a command that is executed at once. -/
def afterCommand (s : Server) (client conn : Nat) (sql : String) (command : Command) (output : String) :
    Server :=
  s.afterRequest plainSetup client conn sql.toList (.ok (bytes output))
    (s.system.call .plain conn command)

/-- A command that is executed at once. -/
theorem requests_command {sql : String} {command : Command} {output : String}
    (hsql : Frontend.plain.dispatch sql.toList = .command command) (hidle : s.system.phase = .idle)
    (houtput : ((Engine.execute .plain command conn s.system.engine).1.map
      Engine.Reply.output).toOption = some (bytes output))
    (hafter : (s.system.call .plain conn command).phase = .idle) :
    s.Requests plainSetup client conn sql.toList (s.afterCommand client conn sql command output) := by
  refine ⟨.ok (bytes output), s.system.call .plain conn command, ?_, rfl⟩
  show Frontend.plain.Executes .plain conn sql.toList s.system _ _
  rw [Frontend.Executes, hsql]
  refine ⟨.ok (bytes output), ⟨hidle, ?_, .refl hafter⟩, rfl⟩
  rcases hrun : (Engine.execute .plain command conn s.system.engine).1.map Engine.Reply.output with
    err | output'
  · rw [hrun] at houtput
    cases houtput
  · rw [hrun] at houtput
    exact congrArg Except.ok (Option.some.inj houtput)

/-- A client has a transaction open over HTTP. -/
def begunOverHttp : Server :=
  (start Engine.empty).afterCommand 1 httpConnId "BEGIN" .begin "Transaction started"

/-- Then another client has authenticated itself on a TCP connection. -/
def authenticatedOverTcp : Server :=
  { begunOverHttp with
    nextConnId := 1001
    connections := [{ client := 2, connId := 1000, authenticated := true }]
    sent := begunOverHttp.sent ++ [(2, .authenticated)] }

/-- And has a transaction open as well. -/
def begunOverTcp : Server :=
  authenticatedOverTcp.afterCommand 2 1000 "BEGIN" .begin "Transaction started"

omit [Bincode (WalEntry Bytes Data)] in
/-- A client rolls back its own transaction, and the one of another client stays open. -/
theorem clients_apart_begunOverTcp : let _ := plainBincode []
    ∃ s', begunOverTcp.Step plainSetup (.line 0 "ROLLBACK".toList) s' ∧
      KeepsApart plainSetup begunOverTcp (.line 0 "ROLLBACK".toList) s' ∧
      (s'.transaction 1000).isNone ∧ (s'.transaction httpConnId).isSome := by
  let _ := plainBincode []
  have hbegin : (start Engine.empty).Step plainSetup (plainQuery 1 "BEGIN") begunOverHttp :=
    requests_command rfl rfl (by decide +kernel) (by decide +kernel)
  have hauth : Step plainSetup { begunOverHttp with
        nextConnId := 1001, connections := [{ client := 2, connId := 1000 }] }
      (.line 0 "AUTH a:b".toList) authenticatedOverTcp := by
    have haccepts : plainSetup.credentials.accepts (Text.trim "AUTH a:b".toList) = true := by
      decide +kernel
    refine ⟨_, rfl, rfl, ?_⟩
    rw [Reads, if_neg nofun, if_pos haccepts]
    rfl
  have hline : ∀ (input : String) {s s' : Server} {tcp : Connection}, s.connections[0]? = some tcp →
      tcp.isOpen → tcp.authenticated → s.Requests plainSetup tcp.client tcp.connId
        (Text.trim input.toList) s' → s.Step plainSetup (.line 0 input.toList) s' := by
    intro input s s' tcp htcp hopen hauth hrequests
    refine ⟨tcp, htcp, hopen, ?_⟩
    rw [Reads, if_pos hauth]
    exact hrequests
  have hrequest : authenticatedOverTcp.Requests plainSetup 2 1000 "BEGIN".toList begunOverTcp :=
    requests_command rfl (by decide +kernel) (by decide +kernel) (by decide +kernel)
  have hrequest' : begunOverTcp.Requests plainSetup 2 1000 "ROLLBACK".toList
      (begunOverTcp.afterCommand 2 1000 "ROLLBACK" .rollback "Transaction rolled back") :=
    requests_command rfl (by decide +kernel) (by decide +kernel) (by decide +kernel)
  have hrun : (start Engine.empty).Run plainSetup (Exclusive plainSetup) [plainQuery 1 "BEGIN",
      .accept 2, .line 0 "AUTH a:b".toList, .line 0 "BEGIN".toList] begunOverTcp := by
    refine ⟨fun _ hopen ↦ ?_, _, hbegin, ⟨by decide, fun hopen ↦ ?_, nofun⟩, _, rfl, trivial, _, hauth,
      trivial, _, hline "BEGIN" rfl rfl rfl hrequest, rfl⟩
    · exact absurd hopen (by decide)
    · exact absurd hopen (by decide +kernel)
  have hstep : begunOverTcp.Step plainSetup (.line 0 "ROLLBACK".toList) _ :=
    hline "ROLLBACK" rfl rfl rfl hrequest'
  exact ⟨_, hstep, clients_apart hrun trivial hstep, by decide +kernel, by decide +kernel⟩

omit [Bincode (WalEntry Bytes Data)] in
/-- **HTTP clients share a transaction.** One client begins a transaction, and another one rolls it
back. -/
theorem not_clients_apart : ¬ ∀ (_ : Bincode (WalEntry Bytes Data)) (c : Setup) (engine : Engine)
    (events : List Event) (s s' : Server) (e : Event), (start engine).Run c (fun _ _ ↦ True) events s →
      s.Step c e s' → KeepsApart c s e s' := by
  intro hclaim
  let _ := plainBincode []
  have hbegin : (start Engine.empty).Step plainSetup (plainQuery 1 "BEGIN") begunOverHttp :=
    requests_command rfl rfl (by decide +kernel) (by decide +kernel)
  have hrollback : begunOverHttp.Step plainSetup (plainQuery 2 "ROLLBACK")
      (begunOverHttp.afterCommand 2 httpConnId "ROLLBACK" .rollback "Transaction rolled back") :=
    requests_command rfl (by decide +kernel) (by decide +kernel) (by decide +kernel)
  have hapart := hclaim _ plainSetup Engine.empty [plainQuery 1 "BEGIN"] begunOverHttp _ _
    ⟨trivial, _, hbegin, rfl⟩ hrollback
  obtain ⟨hown, -⟩ := hapart 2 httpConnId "ROLLBACK".toList rfl
  have hopener : begunOverHttp.opener httpConnId = some 1 := by decide +kernel
  have hopen : (begunOverHttp.transaction httpConnId).isSome := by decide +kernel
  cases hopener.symm.trans (hown hopen)

/-! ### The counter -/

/-- The counter gives out the numbers from 1000 on, modulo `2 ^ 32`. -/
structure Numbered (s : Server) : Prop where
  next : s.nextConnId = (1000 + s.connections.length) % 2 ^ 32
  connIds : s.connections.map Connection.connId =
    (List.range s.connections.length).map fun i ↦ (1000 + i) % 2 ^ 32
  transactions : ∀ conn, (s.transaction conn).isSome →
    conn = httpConnId ∨ conn ∈ s.connections.map Connection.connId

omit [Bincode (WalEntry Bytes Data)] in
theorem numbered_start (engine : Engine) : (start engine).Numbered := ⟨rfl, rfl, nofun⟩

theorem Numbered.step (h : s.Numbered) (hstep : s.Step c e s') : s'.Numbered := by
  -- only a request opens a transaction, and its number is one that was given out
  have htransactions : ∀ conn, (s'.transaction conn).isSome →
      conn = httpConnId ∨ conn ∈ s.connections.map Connection.connId := by
    intro conn hopen
    rcases hstep.request_or_beside with ⟨client, conn', sql, hrequest, hrequests⟩ | ⟨-, hbeside⟩
    · by_cases hconn : conn = conn'
      · rcases hstep.request_origin hrequest with ⟨tcp, htcp, -, -, hconnId⟩ | ⟨hhttp, -⟩
        · exact Or.inr (List.mem_map.2 ⟨tcp, htcp, hconnId.trans hconn.symm⟩)
        · exact Or.inl (hconn.trans hhttp)
      · rw [(hrequests.others hconn).1] at hopen
        exact h.transactions conn hopen
    · rw [hbeside.transaction] at hopen
      exact h.transactions conn hopen
  rcases hstep.accept_or_continues with ⟨client, -, hnext, hconnections⟩ | hcontinues
  · have hlength : s'.connections.length = s.connections.length + 1 := by
      rw [hconnections, List.length_append, List.length_singleton]
    refine ⟨?_, ?_, fun conn hopen ↦ (htransactions conn hopen).imp_right fun hconn ↦ ?_⟩
    · rw [hnext, hlength, h.next]
      omega
    · rw [hlength, List.range_succ, List.map_append, hconnections, List.map_append, h.connIds,
        List.map_singleton, List.map_singleton, h.next]
    · rw [hconnections, List.map_append]
      exact List.mem_append_left _ hconn
  · have hlength : s'.connections.length = s.connections.length := by
      have heq := congrArg List.length hcontinues.connIds
      rwa [List.length_map, List.length_map] at heq
    refine ⟨?_, ?_, ?_⟩
    · rw [hcontinues.nextConnId, hlength, h.next]
    · rw [hcontinues.connIds, hlength, h.connIds]
    · rw [hcontinues.connIds]
      exact htransactions

/-- **The first `2 ^ 32 - 1000` TCP connections** get numbers that nobody else has. -/
theorem exclusive_accept {engine : Engine} {P : Server → Event → Prop} {events : List Event}
    (hrun : (start engine).Run c P events s) (hfew : 1000 + s.connections.length < 2 ^ 32)
    (client : Nat) : Exclusive c s (.accept client) := by
  have h : s.Numbered := run_invariant (fun _ _ _ _ h hstep ↦ h.step hstep) (numbered_start engine) hrun
  have hnext : s.nextConnId = 1000 + s.connections.length := h.next.trans (Nat.mod_eq_of_lt hfew)
  have hfresh : s.nextConnId ∉ s.connections.map Connection.connId := by
    rw [h.connIds, List.mem_map]
    rintro ⟨i, hi, heq⟩
    rw [List.mem_range] at hi
    omega
  have hnotHttp : s.nextConnId ≠ httpConnId := by
    rw [hnext, httpConnId]
    omega
  refine ⟨hnotHttp, fun hopen ↦ ?_, fun tcp htcp _ hconnId ↦ ?_⟩
  · exact absurd (h.transactions _ hopen) (not_or.2 ⟨hnotHttp, hfresh⟩)
  · exact absurd (hconnId ▸ List.mem_map_of_mem htcp) hfresh

end Server

end KsSql
