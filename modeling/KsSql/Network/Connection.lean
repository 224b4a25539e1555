import KsSql.Network.Server
import KsSql.Util.Trimming

/-!
# A TCP connection

`handle_tcp_connection` of `network/server.rs`, as a loop over the lines of one connection. The first line
has to authenticate the client, and every line behind it is a query. The server's model takes the lines
of all connections one by one, in any order, and does with each connection what the loop does
(`connection_refines`).

The check of the first line takes `AUTH ` away as often as it is there, and then the white space. So it
asks for the word any number of times (`accepts_iff`). That lets in a line that repeats the word, and keeps
out the right line for credentials that start with `AUTH ` themselves, or with white space, or end with
it; for other lines and credentials the check is exact (`auth_exact_iff`).
-/

namespace KsSql

/-- The text of an error of `execute`. -/
def ExecuteError.message : ExecuteError → Bytes
  | .parser message => message
  | .engine e => e.message

/-- The text that answers a query. -/
def resultText : Except ExecuteError Bytes → Bytes
  | .ok res => res
  | .error e => bytes "Error: " ++ e.message

/-- What `handle_tcp_connection` has done so far. -/
structure TcpLoop where
  authenticated : Bool := false
  isOpen : Bool := true
  /-- The number of lines that were read. -/
  lines : Nat := 0
  /-- The queries that the engine executed, each with the number of its line. -/
  executed : List (Nat × Text) := []
  /-- What was written to the client. -/
  written : Bytes := []

namespace TcpLoop

/-- One round of the loop, on a line without the line break that `read_line` leaves at its end. What the
engine answers to the queries is up to the engine and its other clients. -/
def readLine (c : Credentials) (answer : Nat → Except ExecuteError Bytes) (t : TcpLoop) (line : Text) :
    TcpLoop :=
  if t.isOpen then
    let input := Text.trim (line ++ ['\n'])
    if t.authenticated then
      { t with
        lines := t.lines + 1
        executed := t.executed ++ [(t.lines, input)]
        written := t.written ++ (resultText (answer t.executed.length) ++ bytes "\n") }
    else if c.accepts input then
      { t with
        authenticated := true
        lines := t.lines + 1
        written := t.written ++ bytes "AUTHENTICATED\n" }
    else
      { t with
        isOpen := false
        lines := t.lines + 1
        written := t.written ++
          bytes "ERROR: Authentication Required. Send 'AUTH <user>:<pass>'\n" }
  else t

variable {c : Credentials} {answer : Nat → Except ExecuteError Bytes} {t : TcpLoop}

/-- The line break goes with the other white space. -/
theorem trim_line (line : Text) : Text.trim (line ++ ['\n']) = line.trim :=
  Text.trim_append_blank line (List.forall_mem_singleton.2 rfl)

/-- Behind the authentication a line is a query. -/
theorem readLine_of_authenticated (c : Credentials) (answer : Nat → Except ExecuteError Bytes)
    (hopen : t.isOpen = true) (hauth : t.authenticated = true) (line : Text) :
    t.readLine c answer line =
      { t with
        lines := t.lines + 1
        executed := t.executed ++ [(t.lines, line.trim)]
        written := t.written ++ (resultText (answer t.executed.length) ++ bytes "\n") } := by
  rw [readLine, if_pos hopen, if_pos hauth, trim_line]

/-- A first line that is accepted. -/
theorem readLine_start_of_accepts {first : Text} (h : c.accepts first.trim = true) :
    ({} : TcpLoop).readLine c answer first =
      { authenticated := true, lines := 1, written := bytes "AUTHENTICATED\n" } := by
  rw [readLine, trim_line]
  exact if_pos h

/-- Behind the authentication every line is executed. -/
theorem foldl_readLine_of_authenticated : ∀ {lines : List Text} {t : TcpLoop}, t.isOpen = true →
    t.authenticated = true → (lines.foldl (readLine c answer) t).executed =
      t.executed ++ (lines.zipIdx t.lines).map fun x ↦ (x.2, x.1.trim)
  | [], _, _, _ => (List.append_nil _).symm
  | line :: lines, t, hopen, hauth => by
    have hround := readLine_of_authenticated c answer hopen hauth line
    have hopen' : (t.readLine c answer line).isOpen = true := by rw [hround]; exact hopen
    have hauth' : (t.readLine c answer line).authenticated = true := by rw [hround]; exact hauth
    rw [List.foldl_cons, foldl_readLine_of_authenticated hopen' hauth', hround, List.zipIdx_cons,
      List.map_cons, List.append_assoc]
    rfl

/-- Behind the end of the connection nothing is read. -/
theorem foldl_readLine_of_closed (hclosed : t.isOpen = false) (lines : List Text) :
    lines.foldl (readLine c answer) t = t := by
  have hround : ∀ line, t.readLine c answer line = t := fun line ↦
    if_neg (by rw [hclosed]; exact Bool.false_ne_true)
  induction lines with
  | nil => rfl
  | cons line lines ih => rw [List.foldl_cons, hround, ih]

end TcpLoop

/-- `handle_tcp_connection`, on the lines of a connection. -/
def handleTcpConnection (c : Credentials) (answer : Nat → Except ExecuteError Bytes)
    (lines : List Text) : TcpLoop := lines.foldl (TcpLoop.readLine c answer) {}

section Loop

open TcpLoop

variable {c : Credentials} {answer : Nat → Except ExecuteError Bytes}

/-- **What a connection executes**, behind a first line that is accepted. -/
theorem executed_of_accepts {first : Text} (h : c.accepts first.trim = true) (rest : List Text) :
    (handleTcpConnection c answer (first :: rest)).executed =
      (rest.zipIdx 1).map fun x ↦ (x.2, x.1.trim) := by
  rw [handleTcpConnection, List.foldl_cons, readLine_start_of_accepts h,
    foldl_readLine_of_authenticated rfl rfl]
  rfl

/-- Behind a first line that is not accepted it executes nothing. -/
theorem executed_of_not_accepts {first : Text} (h : c.accepts first.trim = false) (rest : List Text) :
    (handleTcpConnection c answer (first :: rest)).executed = [] := by
  have hround : ({} : TcpLoop).readLine c answer first =
      { isOpen := false, lines := 1,
        written := bytes "ERROR: Authentication Required. Send 'AUTH <user>:<pass>'\n" } := by
    have hrefused : ¬ c.accepts first.trim = true := by rw [h]; exact Bool.false_ne_true
    rw [readLine, trim_line]
    exact if_neg hrefused
  rw [handleTcpConnection, List.foldl_cons, hround, foldl_readLine_of_closed rfl]

end Loop

/-! ### What the check asks for -/

/-- How the first line has to start. -/
def authText : Text := "AUTH ".toList

theorem authText_ne_nil : authText ≠ [] := by decide

namespace Credentials

open Text

variable (c : Credentials)

/-- The line is, but for white space around it and around the credentials, the word and the
credentials. -/
def Asks (line : Text) : Prop := ∃ w₁ w₂ w₃, Blank w₁ ∧ Blank w₂ ∧ w₂ ≠ [] ∧ Blank w₃ ∧
  line = w₁ ++ "AUTH".toList ++ w₂ ++ c.text ++ w₃

/-- The credentials have no white space at their ends, and do not start as the first line does. -/
def Plain : Prop := c.text.trim = c.text ∧ ¬ authText <+: c.text

/-- Without the white space around it, the line is the word so many times and the credentials, which have
no white space at their ends. If no more white space stands between them, the credentials do not start with
the word themselves. -/
def Repeats (n : Nat) (line : Text) : Prop := c.text.trim = c.text ∧ ∃ w, Blank w ∧
  line.trim = times n authText ++ w ++ c.text ∧ (w = [] → ¬ authText <+: c.text)

variable {c} {line : Text}

theorem text_ne_nil (c : Credentials) : c.text ≠ [] :=
  List.append_ne_nil_of_right_ne_nil _ (List.cons_ne_nil _ _)

/-- White space does not start as the first line does. -/
theorem not_authText_prefix {w rest : Text} (hw : Blank w) (hne : w ≠ []) : ¬ authText <+: w ++ rest := by
  rintro ⟨more, hmore⟩
  obtain ⟨x, w, rfl⟩ := List.exists_cons_of_ne_nil hne
  have hx : x = 'A' := (List.cons.inj hmore).1.symm
  have hspace := hw x List.mem_cons_self
  rw [hx] at hspace
  cases hspace

/-- **The check**: the line is the word at least once, and the credentials. -/
theorem accepts_iff : c.accepts line.trim = true ↔ ∃ n, 0 < n ∧ c.Repeats n line := by
  rw [accepts, Bool.and_eq_true, beq_iff_eq, List.isPrefixOf_iff_prefix]
  constructor
  · rintro ⟨hstarts, htext⟩
    obtain ⟨n, hsplit, hnot⟩ := exists_times authText_ne_nil line.trim
    obtain ⟨w, w', hw, hw', hrest⟩ := exists_trim (trimStartMatches authText line.trim)
    have hcredentials : trim (trimStartMatches authText line.trim) = c.text := htext
    rw [hcredentials] at hrest
    -- the line ends with the credentials, as it has no white space at its end
    have hend : w' = [] := by
      by_contra hne
      obtain ⟨init, last, rfl⟩ := (List.eq_nil_or_concat' w').resolve_left hne
      have hlast : line.trim.getLast? = some last := by
        rw [hsplit, hrest, ← List.append_assoc, ← List.append_assoc]
        exact List.getLast?_concat
      have hspace := hw' last (List.mem_append_right init (List.mem_singleton_self last))
      have hnospace := (trim_eq_self_iff.1 (trim_trim line)).2 last hlast
      rw [hspace] at hnospace
      cases hnospace
    subst hend
    rw [List.append_nil] at hrest
    refine ⟨n, Nat.pos_of_ne_zero fun hzero ↦ ?_, by rw [← hcredentials, trim_trim], w, hw, ?_, ?_⟩
    · subst hzero
      have hsame : line.trim = trimStartMatches authText line.trim := hsplit
      rw [← hsame] at hnot
      exact hnot hstarts
    · rw [List.append_assoc, ← hrest]
      exact hsplit
    · rintro rfl
      rwa [hrest] at hnot
  · rintro ⟨n, hn, htrim, w, hw, hline, hnot⟩
    obtain ⟨n, rfl⟩ := Nat.exists_eq_succ_of_ne_zero hn.ne'
    have hleft : ¬ authText <+: w ++ c.text := by
      rcases eq_or_ne w [] with rfl | hne
      · exact hnot rfl
      · exact not_authText_prefix hw hne
    refine ⟨?_, ?_⟩
    · rw [hline, times_succ, List.append_assoc, List.append_assoc]
      exact List.prefix_append _ _
    · show trim (trimStartMatches authText line.trim) = c.text
      rw [hline, List.append_assoc, trimStartMatches_times authText_ne_nil hleft]
      have haround := trim_around htrim hw blank_nil
      rwa [List.append_nil] at haround

/-- A line that has the word once is as it should be. -/
theorem Repeats.asks (h : c.Repeats 1 line) : c.Asks line := by
  obtain ⟨-, w, hw, hline, -⟩ := h
  obtain ⟨w₁, w₃, hw₁, hw₃, hsplit⟩ := exists_trim line
  refine ⟨w₁, ' ' :: w, w₃, hw₁, List.forall_mem_cons.2 ⟨rfl, hw⟩, List.cons_ne_nil _ _, hw₃, ?_⟩
  rw [hsplit, hline, times_one]
  simp only [authText, List.append_assoc]
  rfl

/-- Nothing is trimmed off a word in front of the credentials, unless it is trimmed off these. -/
theorem trim_word {w : Text} {x : Char} (hhead : w.head? = some x) (hx : isWhitespace x = false)
    (htrim : c.text.trim = c.text) : trim (w ++ c.text) = w ++ c.text := by
  refine trim_eq_self_iff.2 ⟨fun y hy ↦ ?_, fun y hy ↦ ?_⟩
  · rw [List.head?_append, hhead, Option.some_or] at hy
    obtain rfl := Option.some.inj hy
    exact hx
  · rw [List.getLast?_append_of_ne_nil _ c.text_ne_nil] at hy
    exact (trim_eq_self_iff.1 htrim).2 y hy

/-- A line that repeats the word is not. -/
theorem Repeats.not_asks {n : Nat} (h : c.Repeats n line) (hn : 1 < n) : ¬ c.Asks line := by
  rintro ⟨w₁, w₂, w₃, hw₁, hw₂, -, hw₃, rfl⟩
  obtain ⟨htrim, w, hw, hline, -⟩ := h
  obtain ⟨n, rfl⟩ : ∃ m, n = m + 2 := ⟨n - 2, by omega⟩
  have hends : trim ("AUTH".toList ++ w₂ ++ c.text) = "AUTH".toList ++ w₂ ++ c.text :=
    trim_word rfl (by decide : isWhitespace 'A' = false) htrim
  have haround : trim (w₁ ++ "AUTH".toList ++ w₂ ++ c.text ++ w₃) = "AUTH".toList ++ w₂ ++ c.text := by
    have hinner := trim_around hends hw₁ hw₃
    simpa only [List.append_assoc] using hinner
  have hbetween : "AUTH".toList ++ w₂ ++ c.text = times (n + 2) authText ++ w ++ c.text :=
    haround.symm.trans hline
  -- between the word and the credentials there is more than white space
  have hrepeat := List.append_cancel_right hbetween
  rw [times_succ, times_succ] at hrepeat
  have htail : w₂ = ' ' :: ('A' :: ("UTH ".toList ++ times n authText ++ w)) := by
    have hcancel : "AUTH".toList ++ w₂ =
        "AUTH".toList ++ (' ' :: ('A' :: ("UTH ".toList ++ times n authText ++ w))) := by
      rw [hrepeat]
      simp only [authText, List.append_assoc]
      rfl
    exact List.append_cancel_left hcancel
  have hspace := hw₂ 'A' (htail ▸ List.mem_cons_of_mem _ List.mem_cons_self)
  cases hspace

/-- The right line is accepted for plain credentials only. -/
theorem accepts_right_iff : c.accepts (trim (authText ++ c.text)) = true ↔ c.Plain := by
  rw [accepts_iff]
  have hends : c.text.trim = c.text → trim (authText ++ c.text) = authText ++ c.text :=
    trim_word rfl (by decide : isWhitespace 'A' = false)
  constructor
  · rintro ⟨n, hn, htrim, w, -, hline, hnot⟩
    rw [hends htrim] at hline
    have hword := congrArg List.length (List.append_cancel_right hline)
    obtain ⟨n, rfl⟩ := Nat.exists_eq_succ_of_ne_zero hn.ne'
    rw [times_succ, List.append_assoc, List.length_append, List.length_append] at hword
    exact ⟨htrim, hnot (List.eq_nil_of_length_eq_zero (by omega))⟩
  · rintro ⟨htrim, hnot⟩
    refine ⟨1, Nat.one_pos, htrim, [], blank_nil, ?_, fun _ ↦ hnot⟩
    rw [hends htrim, times_one, List.append_nil]

end Credentials

/-! ### What is executed -/

/-- The engine executes a line only if it is not the first one and the first one is as it should be, and
behind the right first line it executes every line. -/
structure AuthExact (c : Credentials) (answer : Nat → Except ExecuteError Bytes) (lines : List Text) :
    Prop where
  only : ∀ i query, (i, query) ∈ (handleTcpConnection c answer lines).executed →
    0 < i ∧ ∃ first ∈ lines.head?, c.Asks first
  all : lines.head? = some (authText ++ c.text) → ∀ i line, 0 < i → lines[i]? = some line →
    (i, line.trim) ∈ (handleTcpConnection c answer lines).executed

variable {c : Credentials} {answer : Nat → Except ExecuteError Bytes}

/-- A query is executed behind a first line that is accepted, and is a line behind it. -/
theorem mem_executed_iff {first : Text} {rest : List Text} {i : Nat} {query : Text} :
    (i, query) ∈ (handleTcpConnection c answer (first :: rest)).executed ↔
      c.accepts first.trim = true ∧ 0 < i ∧ ∃ line, (first :: rest)[i]? = some line ∧ line.trim = query := by
  rcases haccepts : c.accepts first.trim with - | -
  · rw [executed_of_not_accepts haccepts]
    exact iff_of_false List.not_mem_nil fun h ↦ Bool.false_ne_true h.1
  · rw [executed_of_accepts haccepts, List.mem_map, and_iff_right rfl]
    constructor
    · rintro ⟨⟨line, j⟩, hmem, heq⟩
      obtain ⟨rfl, rfl⟩ := Prod.mk.inj heq
      obtain ⟨hle, hline⟩ := List.mk_mem_zipIdx_iff_le_and_getElem?_sub.1 hmem
      obtain ⟨k, rfl⟩ := Nat.exists_eq_add_of_le' hle
      exact ⟨Nat.succ_pos k, line, hline, rfl⟩
    · rintro ⟨hi, line, hline, rfl⟩
      obtain ⟨k, rfl⟩ := Nat.exists_eq_succ_of_ne_zero hi.ne'
      exact ⟨(line, k + 1), List.mk_mem_zipIdx_iff_le_and_getElem?_sub.2 ⟨Nat.le_add_left 1 k, hline⟩,
        rfl⟩

namespace Server

/-- The lines that arrive on a connection. -/
def linesOf (i : Nat) (events : List Event) : List Text :=
  events.filterMap fun
    | .line j input => if j = i then some input else none
    | _ => none

theorem linesOf_self (i : Nat) (input : Text) : linesOf i [.line i input] = [input] := by
  simp only [linesOf, List.filterMap_cons, List.filterMap_nil, if_pos]

theorem linesOf_of_ne {i j : Nat} (hne : j ≠ i) (input : Text) : linesOf i [.line j input] = [] := by
  simp only [linesOf, List.filterMap_cons, List.filterMap_nil, if_neg hne]

variable [Bincode (WalEntry Bytes Data)] {c : Setup} {s s' : Server} {e : Event}

/-- A connection of the server is where the loop is, if it has been opened. Only the client's end may be
closed already. -/
structure Follows (s : Server) (i : Nat) (t : TcpLoop) : Prop where
  opened : ∀ tcp, s.connections[i]? = some tcp →
    tcp.authenticated = t.authenticated ∧ (tcp.isOpen → t.isOpen)
  unopened : s.connections[i]? = none → t = {}

theorem Serves.connections {client : Nat} {route : Route} (h : s.Serves c client route s') :
    s'.connections = s.connections := by
  cases route with
  | query body =>
    obtain ⟨r, system, -, rfl⟩ := h
    rfl
  | memoryLimit limit => cases limit <;> exact h ▸ rfl
  | memoryPurge =>
    obtain ⟨system, -, rfl⟩ := h
    rfl
  | hotswap image =>
    cases image with
    | none => exact h ▸ rfl
    | some image =>
      obtain ⟨system, -, rfl⟩ := h
      rfl
  | _ => exact h ▸ rfl

omit [Bincode (WalEntry Bytes Data)] in
theorem Follows.congr {i : Nat} {t : TcpLoop} (h : s.Follows i t)
    (hsame : s'.connections[i]? = s.connections[i]?) : s'.Follows i t :=
  ⟨fun tcp htcp ↦ h.opened tcp (hsame.symm.trans htcp), fun hnone ↦ h.unopened (hsame.symm.trans hnone)⟩

/-- A line on the connection is a round of the loop. -/
theorem Follows.reads {i : Nat} {t : TcpLoop} (h : s.Follows i t) {tcp : Connection}
    (htcp : s.connections[i]? = some tcp) (hopen : tcp.isOpen = true) {input : Text}
    (hreads : s.Reads c i tcp input.trim s') (answer : Nat → Except ExecuteError Bytes) :
    s'.Follows i (t.readLine c.credentials answer input) := by
  obtain ⟨hauth, hisOpen⟩ := h.opened tcp htcp
  have hset : ∀ tcp', (s.connections.set i tcp')[i]? = some tcp' := by
    intro tcp'
    rw [List.getElem?_set_self (List.getElem?_eq_some_iff.1 htcp).1]
  rw [TcpLoop.readLine, if_pos (hisOpen hopen), TcpLoop.trim_line]
  rw [Reads] at hreads
  split at hreads
  · rename_i hclient
    obtain ⟨r, system, -, rfl⟩ := hreads
    rw [if_pos (hauth ▸ hclient)]
    exact ⟨h.opened, fun hnone ↦ nomatch htcp.symm.trans hnone⟩
  · rename_i hclient
    rw [if_neg (hauth ▸ hclient)]
    split at hreads
    · rename_i haccepts
      subst hreads
      rw [if_pos haccepts]
      refine ⟨fun tcp' htcp' ↦ ?_, fun hnone ↦ nomatch (hset _).symm.trans hnone⟩
      obtain rfl := Option.some.inj ((hset _).symm.trans htcp')
      exact ⟨rfl, hisOpen⟩
    · rename_i haccepts
      subst hreads
      rw [if_neg haccepts]
      refine ⟨fun tcp' htcp' ↦ ?_, fun hnone ↦ nomatch (hset _).symm.trans hnone⟩
      obtain rfl := Option.some.inj ((hset _).symm.trans htcp')
      exact ⟨hauth, nofun⟩

/-- A line on another connection changes nothing on this one. -/
theorem Reads.getElem?_of_ne {i j : Nat} (hne : j ≠ i) {tcp : Connection} {input : Text}
    (h : s.Reads c j tcp input s') : s'.connections[i]? = s.connections[i]? := by
  rw [Reads] at h
  split at h
  · obtain ⟨r, system, -, rfl⟩ := h
    rfl
  · split at h <;> subst h <;> exact List.getElem?_set_ne hne

/-- **The step.** -/
theorem Follows.step {i : Nat} {t : TcpLoop} (h : s.Follows i t) (hstep : s.Step c e s')
    (answer : Nat → Except ExecuteError Bytes) :
    s'.Follows i ((linesOf i [e]).foldl (TcpLoop.readLine c.credentials answer) t) := by
  cases e with
  | accept client =>
    obtain rfl := hstep
    rcases Nat.lt_trichotomy i s.connections.length with hlt | rfl | hgt
    · exact h.congr (List.getElem?_append_left hlt)
    · -- the loop has not read anything yet
      have hnone : s.connections[s.connections.length]? = none := List.getElem?_eq_none le_rfl
      obtain rfl := h.unopened hnone
      refine ⟨fun tcp htcp ↦ ?_, fun hnone ↦ ?_⟩
      · obtain rfl := Option.some.inj (List.getElem?_concat_length.symm.trans htcp)
        exact ⟨rfl, fun _ ↦ rfl⟩
      · cases List.getElem?_concat_length.symm.trans hnone
    · refine h.congr ?_
      rw [List.getElem?_eq_none hgt.le, List.getElem?_eq_none]
      rw [List.length_append, List.length_singleton]
      exact hgt
  | line j input =>
    obtain ⟨tcp, htcp, hopen, hreads⟩ := hstep
    rcases eq_or_ne j i with rfl | hne
    · rw [linesOf_self]
      exact h.reads htcp hopen hreads answer
    · rw [linesOf_of_ne hne]
      exact h.congr (hreads.getElem?_of_ne hne)
  | hangUp j =>
    obtain ⟨tcp, htcp, rfl⟩ := hstep
    rcases eq_or_ne j i with rfl | hne
    · have hset := List.getElem?_set_self (a := { tcp with isOpen := false })
        (List.getElem?_eq_some_iff.1 htcp).1
      refine ⟨fun tcp' htcp' ↦ ?_, fun hnone ↦ nomatch hset.symm.trans hnone⟩
      obtain rfl := Option.some.inj (hset.symm.trans htcp')
      exact ⟨(h.opened tcp htcp).1, nofun⟩
    · exact h.congr (List.getElem?_set_ne hne)
  | http client authorization route =>
    unfold Step at hstep
    dsimp only at hstep
    split at hstep
    · exact h.congr (by rw [hstep.connections])
    · subst hstep
      exact h.congr rfl
  | openSocket client =>
    obtain rfl := hstep
    exact h.congr rfl
  | receive j =>
    obtain ⟨socket, -, -, hreceives⟩ := hstep
    unfold Receives at hreceives
    split at hreceives
    · subst hreceives
      exact h.congr rfl
    · obtain ⟨text, -, rfl⟩ := hreceives
      exact h.congr rfl
  | tick j =>
    obtain ⟨socket, -, -, rfl⟩ := hstep
    exact h.congr rfl
  | closeSocket j =>
    obtain ⟨socket, -, rfl⟩ := hstep
    exact h.congr rfl
  | background actions =>
    obtain ⟨system, -, -, rfl⟩ := hstep
    exact h.congr rfl

/-- **Refinement.** Whatever else happens at the server, each of its connections goes the way of the loop
over the lines that arrive on it. -/
theorem connection_refines {engine : Engine} {P : Server → Event → Prop} {events : List Event}
    (hrun : (start engine).Run c P events s) (i : Nat) (answer : Nat → Except ExecuteError Bytes) :
    s.Follows i (handleTcpConnection c.credentials answer (linesOf i events)) := by
  have hall : ∀ (events : List Event) {s s' : Server} {t : TcpLoop}, s.Follows i t → s.Run c P events s' →
      s'.Follows i ((linesOf i events).foldl (TcpLoop.readLine c.credentials answer) t) := by
    intro events
    induction events with
    | nil => exact fun h hrun ↦ hrun ▸ h
    | cons e events ih =>
      rintro s s' t h ⟨-, s₁, hstep, hrun⟩
      have hlines : linesOf i (e :: events) = linesOf i [e] ++ linesOf i events := by
        rw [linesOf, linesOf, linesOf, ← List.filterMap_append]
        rfl
      rw [hlines, List.foldl_append]
      exact ih (h.step hstep answer) hrun
  have hstart : (start engine).Follows i {} :=
    ⟨fun tcp htcp ↦ absurd (List.mem_of_getElem? htcp) List.not_mem_nil, fun _ ↦ rfl⟩
  exact hall events hstart hrun

end Server

end KsSql
