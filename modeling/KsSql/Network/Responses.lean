import KsSql.Network.Connection
import KsSql.Parser.Script
import KsSql.Util.Terminated

/-!
# The responses on a connection

Behind the authentication `handle_tcp_connection` writes the result of each query and a line break. The
results have line breaks themselves: a script joins the results of its statements by them, a table and the
answer to a search have one for each line. So the bytes that a client reads do not say where a result ends.
Two sessions of at least two queries, of which one is a script, write the same and have different results
(`told_apart_iff`); a client that knows how many line breaks there are in each result can cut the bytes.
-/

namespace KsSql

/-- What ends a response. -/
def lineBreak : UInt8 := 10

/-- The results of the first `n` queries. -/
def resultTexts (answer : Nat → Except ExecuteError Bytes) (n : Nat) : List Bytes :=
  (List.range n).map fun k ↦ resultText (answer k)

/-- The results of queries that are all answered in the same way from the third one on. -/
theorem resultTexts_add_two {answer : Nat → Except ExecuteError Bytes} {x : Bytes}
    (h : ∀ k, resultText (answer (k + 2)) = x) (n : Nat) :
    resultTexts answer (n + 2) =
      resultText (answer 0) :: resultText (answer 1) :: List.replicate n x := by
  have hrest : (List.range n).map (fun k ↦ resultText (answer (k + 2))) = List.replicate n x := by
    rw [List.map_congr_left fun k _ ↦ h k, List.map_const', List.length_range]
  rw [resultTexts, List.range_succ_eq_map, List.range_succ_eq_map, ← hrest]
  simp only [List.map_cons, List.map_map]
  rfl

namespace TcpLoop

variable {c : Credentials} {answer : Nat → Except ExecuteError Bytes}

/-- Behind the authentication the results are written, each with a line break. -/
theorem written_foldl_of_authenticated : ∀ {lines : List Text} {t : TcpLoop}, t.isOpen = true →
    t.authenticated = true → (lines.foldl (readLine c answer) t).written =
      t.written ++ terminated lineBreak
        ((List.range' t.executed.length lines.length).map fun k ↦ resultText (answer k))
  | [], _, _, _ => (List.append_nil _).symm
  | line :: lines, t, hopen, hauth => by
    have hround := readLine_of_authenticated c answer hopen hauth line
    have hopen' : (t.readLine c answer line).isOpen = true := by rw [hround]; exact hopen
    have hauth' : (t.readLine c answer line).authenticated = true := by rw [hround]; exact hauth
    rw [List.foldl_cons, written_foldl_of_authenticated hopen' hauth', hround, List.length_cons,
      List.range'_succ, List.map_cons, terminated_cons, List.length_append]
    simp only [List.append_assoc]
    rfl

end TcpLoop

/-- **What a connection writes**, behind a first line that is accepted. -/
theorem written_of_accepts {c : Credentials} {answer : Nat → Except ExecuteError Bytes} {first : Text}
    (h : c.accepts first.trim = true) (rest : List Text) :
    (handleTcpConnection c answer (first :: rest)).written =
      bytes "AUTHENTICATED\n" ++ terminated lineBreak (resultTexts answer rest.length) := by
  rw [handleTcpConnection, List.foldl_cons, TcpLoop.readLine_start_of_accepts h,
    TcpLoop.written_foldl_of_authenticated rfl rfl, resultTexts, List.range_eq_range']
  rfl

/-- The result of a script of two statements with the same output. -/
theorem joinLines_twice (x : Bytes) : joinLines [x, x] = x ++ lineBreak :: x := by
  rw [joinLines_cons (List.cons_ne_nil _ _), joinLines_singleton, List.append_assoc]
  rfl

/-! ### Sessions -/

variable [Bincode (WalEntry Bytes Data)]

namespace Frontend

variable (f : Frontend) (rt : Runtime)

/-- The queries of a connection are executed one after another. In between, the engine does what its other
clients ask for. -/
def Answers (conn : Nat) : List Text → (Nat → Except ExecuteError Bytes) → System → Prop
  | [], _, _ => True
  | sql :: sqls, answer, s => ∃ others s₀ s₁, (∀ command, Action.call conn command ∉ others) ∧
      s.run rt others = some s₀ ∧ f.Executes rt conn sql s₀ (answer 0) s₁ ∧
        Answers conn sqls (fun k ↦ answer (k + 1)) s₁

/-- A session on a connection: a first line that is accepted, and queries with their answers. The engine
has run since it was started. -/
structure Session (c : Credentials) (first : Text) (queries : List Text)
    (answer : Nat → Except ExecuteError Bytes) : Prop where
  accepted : c.accepts first.trim = true
  unbroken : ∀ line ∈ first :: queries, '\n' ∉ line
  answered : ∃ conn actions s, System.start.run rt actions = some s ∧
    f.Answers rt conn (queries.map Text.trim) answer s

/-- The responses to `n` queries can be told apart: where the same bytes are written, the results are the
same. -/
def TellsApart (c : Credentials) (n : Nat) : Prop :=
  ∀ first queries answer first' queries' answer', f.Session rt c first queries answer →
    f.Session rt c first' queries' answer' → queries.length = n → queries'.length = n →
      (handleTcpConnection c answer (first :: queries)).written =
        (handleTcpConnection c answer' (first' :: queries')).written →
      resultTexts answer n = resultTexts answer' n

/-- The parser reads a line as an `EXPLAIN` statement, and another line as two of them. -/
structure Explains (plan : Bytes) (one two : Text) : Prop where
  once : f.dispatch one.trim = .statements [.explain plan]
  twice : f.dispatch two.trim = .statements [.explain plan, .explain plan]
  unbroken : '\n' ∉ one ∧ '\n' ∉ two

variable {f rt} {conn : Nat} {s : System}

/-- Queries that all come back to the same state. -/
theorem answers_of_executes : ∀ {sqls : List Text} {answer : Nat → Except ExecuteError Bytes},
    (∀ k sql, sqls[k]? = some sql → f.Executes rt conn sql s (answer k) s) →
      f.Answers rt conn sqls answer s
  | [], _, _ => trivial
  | _ :: _, _, h => ⟨[], s, s, fun _ ↦ List.not_mem_nil, rfl, h 0 _ rfl,
      answers_of_executes fun k _ hsql ↦ h (k + 1) _ hsql⟩

/-! ### Plans -/

/-- What `EXPLAIN` answers. -/
def explanation (plan : Bytes) : Bytes :=
  bytes "Execution Plan (Titan-Prime):\n- io_uring I/O\n- O_DIRECT DMA\n- Lock-Free ArrayQueue\n- Ping-Pong Double Buffering\n- Statement: " ++ plan

/-- `EXPLAIN` leaves everything as it is. -/
theorem executesCommand_explain (hidle : s.phase = .idle) (plan : Bytes) :
    s.ExecutesCommand rt conn (.statement (.explain plan)) (.ok (explanation plan)) s := by
  have hcall : s.call rt conn (.statement (.explain plan)) = s := by
    obtain ⟨engine, phase, drain⟩ := s
    obtain rfl : phase = .idle := hidle
    rfl
  refine ⟨hidle, rfl, ?_⟩
  rw [hcall]
  exact .refl hidle

variable {plan : Bytes} {one two : Text}

theorem Explains.executes_once (h : f.Explains plan one two) (hidle : s.phase = .idle) :
    f.Executes rt conn one.trim s (.ok (explanation plan)) s := by
  rw [Executes, h.once]
  refine ⟨hidle, .ok [explanation plan], s,
    ⟨_, s, executesCommand_explain hidle plan, .ok [], ⟨rfl, rfl⟩, rfl⟩, ?_, .refl hidle⟩
  exact congrArg Except.ok (joinLines_singleton _).symm

theorem Explains.executes_twice (h : f.Explains plan one two) (hidle : s.phase = .idle) :
    f.Executes rt conn two.trim s (.ok (explanation plan ++ lineBreak :: explanation plan)) s := by
  rw [Executes, h.twice]
  refine ⟨hidle, .ok [explanation plan, explanation plan], s,
    ⟨_, s, executesCommand_explain hidle plan, .ok [explanation plan],
      ⟨_, s, executesCommand_explain hidle plan, .ok [], ⟨rfl, rfl⟩, rfl⟩, rfl⟩, ?_, .refl hidle⟩
  exact congrArg Except.ok (joinLines_twice _).symm

/-- Queries of which one is the script. -/
def scriptAt (one two : Text) (i n : Nat) : List Text :=
  (List.range n).map fun k ↦ if k = i then two else one

/-- Their answers. -/
def explanationsAt (plan : Bytes) (i k : Nat) : Except ExecuteError Bytes :=
  if k = i then .ok (explanation plan ++ lineBreak :: explanation plan) else .ok (explanation plan)

variable {c : Credentials} {first : Text}

/-- The script can come at any place. -/
theorem Explains.session (h : f.Explains plan one two) (haccepts : c.accepts first.trim = true)
    (hfirst : '\n' ∉ first) (i n : Nat) :
    f.Session rt c first (scriptAt one two i n) (explanationsAt plan i) where
  accepted := haccepts
  unbroken := by
    refine List.forall_mem_cons.2 ⟨hfirst, fun line hline ↦ ?_⟩
    obtain ⟨k, -, rfl⟩ := List.mem_map.1 hline
    split
    · exact h.unbroken.2
    · exact h.unbroken.1
  answered := by
    refine ⟨0, [], System.start, rfl, answers_of_executes fun k sql hsql ↦ ?_⟩
    obtain ⟨line, hline, rfl⟩ := Option.map_eq_some_iff.1 (List.getElem?_map.symm.trans hsql)
    obtain ⟨j, hj, rfl⟩ := Option.map_eq_some_iff.1 (List.getElem?_map.symm.trans hline)
    obtain ⟨hlt, rfl⟩ := List.getElem?_eq_some_iff.1 hj
    rw [List.getElem_range, explanationsAt]
    split
    · exact h.executes_twice rfl
    · exact h.executes_once rfl

omit [Bincode (WalEntry Bytes Data)] in
theorem resultText_explanationsAt_self (plan : Bytes) (i : Nat) :
    resultText (explanationsAt plan i i) = explanation plan ++ lineBreak :: explanation plan := by
  rw [explanationsAt, if_pos rfl, resultText]

omit [Bincode (WalEntry Bytes Data)] in
theorem resultText_explanationsAt_of_ne (plan : Bytes) {i k : Nat} (hne : k ≠ i) :
    resultText (explanationsAt plan i k) = explanation plan := by
  rw [explanationsAt, if_neg hne, resultText]

/-- **Two sessions that write the same.** The script comes first in one of them, and second in the other. -/
theorem Explains.not_tellsApart (h : f.Explains plan one two) (haccepts : c.accepts first.trim = true)
    (hfirst : '\n' ∉ first) {n : Nat} (hn : 1 < n) : ¬ f.TellsApart rt c n := by
  intro hclaim
  obtain ⟨n, rfl⟩ : ∃ m, n = m + 2 := ⟨n - 2, by omega⟩
  have hlength : ∀ i, (scriptAt one two i (n + 2)).length = n + 2 := fun i ↦ by
    rw [scriptAt, List.length_map, List.length_range]
  have hfirstResults : resultTexts (explanationsAt plan 0) (n + 2) =
      (explanation plan ++ lineBreak :: explanation plan) :: explanation plan ::
        List.replicate n (explanation plan) := by
    rw [resultTexts_add_two fun k ↦ resultText_explanationsAt_of_ne plan (by omega),
      resultText_explanationsAt_self, resultText_explanationsAt_of_ne plan (by omega)]
  have hsecondResults : resultTexts (explanationsAt plan 1) (n + 2) =
      explanation plan :: (explanation plan ++ lineBreak :: explanation plan) ::
        List.replicate n (explanation plan) := by
    rw [resultTexts_add_two fun k ↦ resultText_explanationsAt_of_ne plan (by omega),
      resultText_explanationsAt_self, resultText_explanationsAt_of_ne plan (by omega)]
  have hsame := hclaim _ _ _ _ _ _ (h.session haccepts hfirst 0 (n + 2))
    (h.session haccepts hfirst 1 (n + 2)) (hlength 0) (hlength 1) (by
      rw [written_of_accepts haccepts, written_of_accepts haccepts, hlength, hlength, hfirstResults,
        hsecondResults, terminated_swap])
  rw [hfirstResults, hsecondResults] at hsame
  have hlong := congrArg List.length (List.cons.inj hsame).1
  rw [List.length_append, List.length_cons] at hlong
  omega

/-- A single response ends where the connection's output ends. -/
theorem tellsApart_of_le_one {n : Nat} (hn : n ≤ 1) : f.TellsApart rt c n := by
  intro first queries answer first' queries' answer' hsession hsession' hlength hlength' hwritten
  rw [written_of_accepts hsession.accepted, written_of_accepts hsession'.accepted, hlength,
    hlength'] at hwritten
  have hstream := List.append_cancel_left hwritten
  rcases Nat.le_one_iff_eq_zero_or_eq_one.1 hn with rfl | rfl
  · rfl
  · have hone : ∀ answer, resultTexts answer 1 = [resultText (answer 0)] := fun _ ↦ rfl
    rw [hone, hone, terminated_cons, terminated_cons] at hstream
    rw [hone, hone, List.append_cancel_right hstream]

/-- **Which responses can be told apart**: one response, or none. In two sessions in which the same is
written the results are the same exactly if each result has as many line breaks as the one in its place. -/
theorem told_apart_iff (h : f.Explains plan one two) (haccepts : c.accepts first.trim = true)
    (hfirst : '\n' ∉ first) :
    (∀ n, f.TellsApart rt c n ↔ n ≤ 1) ∧
      ∀ first queries answer first' queries' answer', c.accepts (Text.trim first) = true →
        c.accepts (Text.trim first') = true →
          (handleTcpConnection c answer (first :: queries)).written =
            (handleTcpConnection c answer' (first' :: queries')).written →
          (resultTexts answer queries.length = resultTexts answer' queries'.length ↔
            (resultTexts answer queries.length).map (List.count lineBreak) =
              (resultTexts answer' queries'.length).map (List.count lineBreak)) := by
  refine ⟨fun n ↦ ⟨fun htells ↦ ?_, tellsApart_of_le_one⟩, ?_⟩
  · by_contra hn
    exact h.not_tellsApart haccepts hfirst (Nat.lt_of_not_le hn) htells
  · intro first queries answer first' queries' answer' haccepts haccepts' hwritten
    rw [written_of_accepts haccepts, written_of_accepts haccepts'] at hwritten
    exact eq_iff_of_terminated_eq (List.append_cancel_left hwritten)

/-- A frontend to compute with. Its parser reads `EXPLAIN COMMIT`, and scripts of it. -/
def explaining : Frontend where
  parseSql sql := (sql.splitOnP (· = ';')).mapM fun piece : Text ↦
    if plain.upper piece.trim = "EXPLAIN COMMIT".toList then
      .ok (.explain (bytes "Commit \x7b chain: false \x7d"))
    else .error (bytes "sql parser error")
  toUppercase := plain.toUppercase
  fromUtf8Lossy := plain.fromUtf8Lossy

omit [Bincode (WalEntry Bytes Data)] in
theorem explains_explaining : explaining.Explains (bytes "Commit \x7b chain: false \x7d")
    "EXPLAIN COMMIT".toList "EXPLAIN COMMIT; EXPLAIN COMMIT".toList where
  once := rfl
  twice := rfl
  unbroken := by decide

omit [Bincode (WalEntry Bytes Data)] in
/-- The first line of the sessions. -/
theorem accepts_ab : Credentials.accepts ⟨"a".toList, "b".toList⟩ (Text.trim "AUTH a:b".toList) = true := by
  decide

omit [Bincode (WalEntry Bytes Data)] in
theorem told_apart_iff_explaining : let _ := plainBincode []
    explaining.TellsApart .plain ⟨"a".toList, "b".toList⟩ 1 ∧
      ¬ explaining.TellsApart .plain ⟨"a".toList, "b".toList⟩ 2 := by
  let _ := plainBincode []
  have hiff : ∀ n, explaining.TellsApart .plain ⟨"a".toList, "b".toList⟩ n ↔ n ≤ 1 :=
    (told_apart_iff explains_explaining accepts_ab (by decide)).1
  exact ⟨(hiff 1).2 le_rfl, fun h ↦ absurd ((hiff 2).1 h) (by decide)⟩

omit [Bincode (WalEntry Bytes Data)] in
/-- **Responses cannot be told apart.** The server writes the same for `EXPLAIN COMMIT; EXPLAIN COMMIT`
and then `EXPLAIN COMMIT` as for the two in the other order. -/
theorem not_told_apart : ¬ ∀ (_ : Bincode (WalEntry Bytes Data)) (f : Frontend) (rt : Runtime)
    (c : Credentials) (n : Nat), f.TellsApart rt c n := by
  intro hclaim
  let _ := plainBincode []
  exact explains_explaining.not_tellsApart accepts_ab (by decide) Nat.one_lt_two
    (hclaim _ explaining .plain ⟨"a".toList, "b".toList⟩ 2)

end Frontend
end KsSql
