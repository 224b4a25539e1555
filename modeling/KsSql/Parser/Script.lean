import KsSql.Parser.Dispatch
import KsSql.Parser.Handlers
import KsSql.Parser.PlainRuntime
import Mathlib.Data.Bool.AllAny

/-!
# Scripts

A script is the text of several statements with semicolons between them. `execute` gives it to the SQL
parser as a whole, and the parser knows nothing of the commands that `execute` looks for by
themselves. So a script does what its statements do one after another exactly if none of them is such a
command, or there is one statement only (`script_iff`).

The parser is a library. What is used of it is that it reads the statements of a text one by one up to
their semicolons (`Frontend.Splits`), and that it has no statement for a command that
`execute_statement` knows (`Frontend.Lawful`).
-/

namespace KsSql

open PageProgram BPlusTree

/-- The text of a script. -/
def script (sqls : List Text) : Text := "; ".toList.intercalate sqls

theorem script_cons_cons (sql sql' : Text) (sqls : List Text) :
    script (sql :: sql' :: sqls) = sql ++ ';' :: (' ' :: script (sql' :: sqls)) := by
  rw [script, List.intercalate_cons_cons, List.append_assoc]
  rfl

/-! ### Joined outputs -/

theorem joinLines_singleton (x : Bytes) : joinLines [x] = x := List.intercalate_singleton

theorem joinLines_cons {x : Bytes} {a : List Bytes} (ha : a ≠ []) :
    joinLines (x :: a) = x ++ bytes "\n" ++ joinLines a := List.intercalate_cons_of_ne_nil ha

theorem joinLines_append {a b : List Bytes} (ha : a ≠ []) (hb : b ≠ []) :
    joinLines (a ++ b) = joinLines a ++ bytes "\n" ++ joinLines b := by
  induction a with
  | nil => exact absurd rfl ha
  | cons x a ih =>
    rcases a with - | ⟨y, a⟩
    · rw [joinLines_singleton]
      exact joinLines_cons hb
    · have hne : y :: a ≠ [] := List.cons_ne_nil y a
      have hne' : y :: a ++ b ≠ [] := List.cons_ne_nil y _
      rw [List.cons_append, joinLines_cons hne', ih hne, joinLines_cons hne]
      simp only [List.append_assoc]

/-- The first line comes first. -/
theorem prefix_joinLines (x : Bytes) (a : List Bytes) : x <+: joinLines (x :: a) := by
  rcases a with - | ⟨y, a⟩
  · rw [joinLines_singleton]
  · rw [joinLines_cons (List.cons_ne_nil y a), List.append_assoc]
    exact List.prefix_append _ _

namespace Frontend

/-- White space and the semicolon have no case. -/
def Caseless (f : Frontend) : Prop :=
  ∀ c, c = ';' ∨ Text.isWhitespace c = true → f.toUppercase c = [c]

/-- What is documented of the world outside. -/
structure Lawful (f : Frontend) : Prop where
  caseless : f.Caseless
  /-- An empty text holds no statement. -/
  parseSql_nil : f.parseSql [] = .ok []
  /-- A command is not SQL, or a statement that `execute_statement` does not know. -/
  parseSql_command : ∀ sql, f.IsCommand sql → ∀ stmts, f.parseSql sql = .ok stmts → .other ∈ stmts

/-- The statements of the text end with it: behind a semicolon the parser goes on with the rest. -/
def Splits (f : Frontend) (sql : Text) : Prop :=
  ∀ rest stmts, f.parseSql (sql ++ ';' :: ' ' :: rest) = .ok stmts ↔
    ∃ first others, f.parseSql sql = .ok first ∧ f.parseSql rest = .ok others ∧
      stmts = first ++ others

variable {f : Frontend}

/-! ### How a script is taken -/

/-- A text that is no command goes to the SQL parser. -/
theorem dispatch_of_not_isCommand {sql : Text} (h : ¬ f.IsCommand sql) :
    f.dispatch sql = match f.parseSql sql with
      | .ok stmts => .statements stmts
      | .error message => .syntaxError message := by
  obtain ⟨hcommand, hsearch⟩ := not_or.1 h
  have hnone : commandTexts.lookup (f.upper sql.trim) = none := by
    rw [List.lookup_eq_none_iff]
    rintro ⟨t, c⟩ ht
    exact bne_iff_ne.2 fun e ↦ hcommand (List.mem_map.2 ⟨(t, c), ht, e.symm⟩)
  simp only [dispatch, hnone]
  exact if_neg fun h ↦ hsearch (List.isPrefixOf_iff_prefix.1 h)

/-- A text that starts as a search does is a search. -/
theorem dispatch_of_search {sql : Text} (h : searchText <+: f.upper sql.trim) :
    f.dispatch sql =
      .search ((Text.trim (.trimStartMatches searchText sql)).filter (· ≠ '\'')) := by
  have hnone : commandTexts.lookup (f.upper sql.trim) = none := by
    rw [List.lookup_eq_none_iff]
    rintro ⟨t, c⟩ ht
    refine bne_iff_ne.2 fun e ↦ ?_
    have hall : ∀ x ∈ commandTexts, ¬ searchText <+: x.1 := by decide
    change f.upper sql.trim = t at e
    exact hall _ ht (e ▸ h)
  simp only [dispatch, hnone]
  rw [if_pos (List.isPrefixOf_iff_prefix.2 h)]

/-- White space is its own upper case. -/
theorem Caseless.upper_whitespace (hf : f.Caseless) {w : Text}
    (hw : ∀ c ∈ w, Text.isWhitespace c = true) : f.upper w = w := by
  induction w with
  | nil => rfl
  | cons c w ih =>
    rw [upper, List.flatMap_cons, hf c (Or.inr (hw c List.mem_cons_self))]
    exact congrArg (c :: ·) (ih fun d hd ↦ hw d (List.mem_cons_of_mem c hd))

/-- What `execute` compares with the commands, of a text with a semicolon in it. -/
theorem Caseless.upper_trim (hf : f.Caseless) (sql rest : Text) : ∃ w rest',
    (∀ c ∈ w, Text.isWhitespace c = true) ∧
      f.upper (Text.trim (sql ++ ';' :: rest)) = f.upper sql.trim ++ w ++ ';' :: rest' := by
  obtain ⟨w, hstart, hw⟩ := Text.exists_trimStart_eq sql
  refine ⟨w, f.upper (Text.trimEnd rest), hw, ?_⟩
  rw [Text.trim_append_cons rfl, hstart, upper, List.flatMap_append, List.flatMap_append,
    List.flatMap_cons, hf ';' (Or.inl rfl)]
  congr 2
  exact hf.upper_whitespace hw

/-- A text with a semicolon in it starts as a search does if what is before the semicolon does. -/
theorem Caseless.search_iff (hf : f.Caseless) (sql rest : Text) :
    searchText <+: f.upper (Text.trim (sql ++ ';' :: rest)) ↔ searchText <+: f.upper sql.trim := by
  obtain ⟨w, rest', hw, heq⟩ := hf.upper_trim sql rest
  rw [heq, ← List.isPrefixOf_iff_prefix, ← List.isPrefixOf_iff_prefix, Text.isPrefixOf_append_cons
    (by decide)]
  rcases w with - | ⟨c, w⟩
  · rw [List.append_nil]
  · have hall : ∀ c ∈ searchText, Text.isWhitespace c = false := List.all_iff_forall_prop.1 (by decide)
    rw [Text.isPrefixOf_append_cons fun hc ↦ Bool.eq_false_iff.1 (hall c hc) (hw c List.mem_cons_self)]

/-- A text with a semicolon in it is a command only if it starts as a search does. -/
theorem Caseless.isCommand_iff (hf : f.Caseless) (sql rest : Text) :
    f.IsCommand (sql ++ ';' :: rest) ↔ searchText <+: f.upper sql.trim := by
  rw [IsCommand, hf.search_iff, or_iff_right]
  obtain ⟨w, rest', -, heq⟩ := hf.upper_trim sql rest
  have hall : ∀ t ∈ commandTexts.map Prod.fst, ';' ∉ t := by decide
  intro hmem
  refine hall _ hmem ?_
  rw [heq]
  exact List.mem_append_right _ List.mem_cons_self

/-- What a script is searched for that starts as a search does: what its first statement is searched
for, and more. -/
theorem searchQuery_append (sql rest : Text) : ∃ c rest',
    (c = ';' ∨ Text.isWhitespace c = true) ∧
    (Text.trim (.trimStartMatches searchText (sql ++ ';' :: rest))).filter (· ≠ '\'') =
      (Text.trim (.trimStartMatches searchText sql)).filter (· ≠ '\'') ++ c :: rest' := by
  obtain ⟨w, hstart, hw⟩ := Text.exists_trimStart_eq (.trimStartMatches searchText sql)
  have hquote : ∀ c ∈ Text.whiteSpace, c ≠ '\'' := List.all_iff_forall_prop.1 (by decide)
  have hkeep : w.filter (· ≠ '\'') = w :=
    List.filter_eq_self.2 fun c hc ↦ decide_eq_true (hquote c (of_decide_eq_true (hw c hc)))
  have hquery : (Text.trim (.trimStartMatches searchText (sql ++ ';' :: rest))).filter (· ≠ '\'') =
      (Text.trim (.trimStartMatches searchText sql)).filter (· ≠ '\'') ++ w ++
        ';' :: (Text.trimEnd rest).filter (· ≠ '\'') := by
    rw [Text.trimStartMatches_append_cons (by decide) (by decide), Text.trim_append_cons rfl, hstart,
      List.filter_append, List.filter_append, hkeep]
    rfl
  rcases w with - | ⟨c, w⟩
  · exact ⟨';', _, Or.inl rfl, by rw [hquery, List.append_nil]⟩
  · exact ⟨c, w ++ ';' :: (Text.trimEnd rest).filter (· ≠ '\''), Or.inr (hw c List.mem_cons_self),
      by rw [hquery, List.append_assoc]; rfl⟩

/-! ### What a search answers -/

variable {rt : Runtime}

/-- A leaf adds to the results. -/
theorem prefix_searchLeaf (query : Text) : ∀ (keys : List Bytes) (values : List Data)
    {results found : List Bytes}, f.searchLeaf rt query keys values results = .ok found →
      results <+: found
  | [], _, _, _, h => Except.ok.inj h ▸ List.prefix_rfl
  | key :: keys, values, results, found, h => by
    rw [searchLeaf.eq_def] at h
    dsimp only at h
    split at h
    · exact prefix_searchLeaf query keys _ h
    · rcases values with - | ⟨data, values⟩
      · cases h
      · obtain ⟨record, -, h⟩ := Except.exists_of_bind_eq_ok h
        have hrest := prefix_searchLeaf query keys values h
        split at hrest
        · exact (List.prefix_append _ _).trans hrest
        · exact hrest

/-- A walk that only adds to the results. -/
theorem maintains_searchLoop {K V ε β : Type} {visit : List β → Node K V → Except ε (List β)}
    (hvisit : ∀ acc node found, visit acc node = .ok found → acc <+: found) :
    ∀ (fuel p : Nat) (acc : List β), (searchLoop visit fuel p acc).Maintains (fun _ ↦ True)
      fun r ↦ ∀ found, r = .ok found → acc <+: found
  | 0, _, _ => trivial
  | fuel + 1, p, acc => by
    rw [searchLoop, readPage_bind]
    intro node _
    dsimp only
    split
    · split
      · exact fun _ h ↦ nomatch h
      · rename_i acc' hacc'
        have hprefix := hvisit acc node acc' hacc'
        split
        · exact fun found h ↦ Except.ok.inj h ▸ hprefix
        · rename_i next _
          have hrest := maintains_searchLoop hvisit fuel next acc'
          exact hrest.mono fun r hr found h ↦ hprefix.trans (hr found h)
    · split
      · exact fun found h ↦ Except.ok.inj h ▸ List.prefix_rfl
      · exact maintains_searchLoop hvisit fuel _ acc

/-- **A search answers with its query first.** -/
theorem prefix_universalSearch {query : Text} {e : Engine} {output : Bytes}
    (h : f.universalSearch rt query e = .ok output) : searchHeading query <+: output := by
  obtain ⟨hrun, hfound⟩ := Device.run_of_maintains (D := pagerDevice Bytes Data) (I := fun _ ↦ True)
    (fun _ _ _ ↦ trivial) (fun _ _ _ _ _ ↦ trivial) (fun _ _ _ _ _ _ _ ↦ trivial)
    (fun _ _ ↦ trivial)
    (maintains_searchLoop (fun acc node _ ↦ prefix_searchLeaf query node.keys
      node.values) e.btree.fuel rootPageId [searchHeading query, List.replicate 40 45]) (s := e.btree)
    trivial
  rw [universalSearch] at h
  split at h
  · cases h
  · rename_i found hok
    rcases found with err | found
    · cases h
    · obtain ⟨more, hmore⟩ := hfound _ hok found rfl
      cases h
      rw [← hmore]
      exact prefix_joinLines _ _

/-- Two searches do not answer the same if one query goes on, without a quote, where the other one
ends. -/
theorem searchHeading_not_prefix {query rest : Text} {c : Char}
    (hc : c = ';' ∨ Text.isWhitespace c = true) {output : Bytes} (h : searchHeading query <+: output) :
    ¬ searchHeading (query ++ c :: rest) <+: output := by
  have hall : ∀ c ∈ ';' :: Text.whiteSpace, (String.utf8EncodeChar c).head? ≠ some 39 ∧
      String.utf8EncodeChar c ≠ [] := List.all_iff_forall_prop.1 (by decide)
  obtain ⟨hhead, hne⟩ := hall c (by
    rcases hc with rfl | hc
    · exact List.mem_cons_self
    · exact List.mem_cons_of_mem _ (of_decide_eq_true hc))
  intro h'
  have hlen : (searchHeading query).length ≤ (searchHeading (query ++ c :: rest)).length := by
    simp only [searchHeading, Text.utf8_append, List.length_append]
    omega
  obtain ⟨tail, htail⟩ := List.prefix_of_prefix_length_le h h' hlen
  rw [searchHeading, searchHeading, Text.utf8_append, Text.utf8_cons] at htail
  simp only [List.append_assoc, List.append_cancel_left_eq] at htail
  have hfirst := congrArg List.head? htail
  rw [List.head?_append_of_ne_nil _ hne] at hfirst
  exact hhead hfirst.symm

end Frontend

/-! ### Executing statements one after another -/

section

variable [Bincode (WalEntry Bytes Data)] {rt : Runtime} {conn : Nat}

namespace System

variable {s s₁ s₂ s' : System}

theorem Answered.refl (h : s.phase = .idle) : s.Answered rt s := ⟨[], nofun, rfl, h⟩

theorem Answered.trans (h : s.Answered rt s₁) (h' : s₁.Answered rt s₂) : s.Answered rt s₂ := by
  obtain ⟨actions, hactions, hrun, -⟩ := h
  obtain ⟨actions', hactions', hrun', hidle⟩ := h'
  refine ⟨actions ++ actions', fun a ha ↦ ?_, ?_, hidle⟩
  · exact (List.mem_append.1 ha).elim (hactions a) (hactions' a)
  · rw [run_append, hrun]
    exact hrun'

theorem Answered.idle (h : s.Answered rt s') : s'.phase = .idle := by
  obtain ⟨_, _, _, hidle⟩ := h
  exact hidle

theorem ExecutesCommand.trans {command : Command} {r : Except EngineError Bytes}
    (h : s.ExecutesCommand rt conn command r s₁) (h' : s₁.Answered rt s₂) :
    s.ExecutesCommand rt conn command r s₂ :=
  ⟨h.1, h.2.1, h.2.2.trans h'⟩

/-- After statements that were all executed the other threads may go on. -/
theorem ExecutesStatements.trans : ∀ {stmts : List Statement} {s : System} {outputs : List Bytes},
    stmts ≠ [] → s.ExecutesStatements rt conn stmts (.ok outputs) s₁ → s₁.Answered rt s₂ →
      s.ExecutesStatements rt conn stmts (.ok outputs) s₂
  | [], _, _, hne, _, _ => absurd rfl hne
  | stmt :: stmts, s, outputs, _, ⟨.error _, _, _, heq, _⟩, _ => nomatch heq
  | stmt :: stmts, s, outputs, _, ⟨.ok output, t, hfirst, rest, hrest, heq⟩, h' => by
    rcases stmts with - | ⟨stmt', stmts⟩
    · obtain ⟨rfl, rfl⟩ := hrest
      exact ⟨.ok output, s₂, hfirst.trans h', .ok [], ⟨rfl, rfl⟩, heq⟩
    · rcases rest with err | rest
      · cases heq
      · exact ⟨.ok output, t, hfirst, .ok rest, hrest.trans (List.cons_ne_nil _ _) h', heq⟩

/-- Each statement gives one output. -/
theorem ExecutesStatements.length_eq : ∀ {stmts : List Statement} {s : System}
    {outputs : List Bytes}, s.ExecutesStatements rt conn stmts (.ok outputs) s' →
      outputs.length = stmts.length
  | [], _, _, h => by rw [Except.ok.inj h.1, List.length_nil, List.length_nil]
  | stmt :: stmts, _, _, ⟨.error _, _, _, heq, _⟩ => nomatch heq
  | stmt :: stmts, _, _, ⟨.ok output, _, _, .error _, _, heq⟩ => nomatch heq
  | stmt :: stmts, _, _, ⟨.ok output, _, _, .ok rest, hrest, heq⟩ => by
    rw [Except.ok.inj heq, List.length_cons, List.length_cons, hrest.length_eq]

theorem ExecutesStatements.idle : ∀ {stmts : List Statement} {s : System}
    {r : Except EngineError (List Bytes)}, s.phase = .idle → s.ExecutesStatements rt conn stmts r s' →
      s'.phase = .idle
  | [], _, _, hidle, h => h.2 ▸ hidle
  | _ :: _, _, _, _, ⟨.error _, _, hfirst, _, heq⟩ => heq ▸ hfirst.2.2.idle
  | _ :: _, _, _, _, ⟨.ok _, _, hfirst, _, hrest, _⟩ => hrest.idle hfirst.2.2.idle

/-- **Sequencing.** -/
theorem executesStatements_append {stmts' : List Statement} : ∀ {stmts : List Statement} {s : System}
    {outputs : List Bytes}, s.ExecutesStatements rt conn (stmts ++ stmts') (.ok outputs) s' ↔
      ∃ s₁ first rest, s.ExecutesStatements rt conn stmts (.ok first) s₁ ∧
        s₁.ExecutesStatements rt conn stmts' (.ok rest) s' ∧ outputs = first ++ rest
  | [], s, outputs => by
    refine ⟨fun h ↦ ⟨s, [], outputs, ⟨rfl, rfl⟩, h, rfl⟩, ?_⟩
    rintro ⟨s₁, first, rest, ⟨hfirst, rfl⟩, hrest, rfl⟩
    rw [Except.ok.inj hfirst]
    exact hrest
  | stmt :: stmts, s, outputs => by
    constructor
    · rintro ⟨output | output, t, hfirst, hrest⟩
      · cases hrest.1
      · obtain ⟨others | others, hothers, heq⟩ := hrest
        · cases heq
        · obtain ⟨s₁, first, rest, hstmts, hstmts', rfl⟩ := executesStatements_append.1 hothers
          exact ⟨s₁, output :: first, rest, ⟨.ok output, t, hfirst, .ok first, hstmts, rfl⟩, hstmts',
            Except.ok.inj heq⟩
    · rintro ⟨s₁, first, rest, ⟨output | output, t, hfirst, hrest⟩, hstmts', rfl⟩
      · cases hrest.1
      · obtain ⟨others | others, hothers, heq⟩ := hrest
        · cases heq
        · obtain rfl := Except.ok.inj heq
          exact ⟨.ok output, t, hfirst, .ok (others ++ rest),
            executesStatements_append.2 ⟨s₁, others, rest, hothers, hstmts', rfl⟩, rfl⟩

omit [Bincode (WalEntry Bytes Data)] in
/-- `execute_statement` does not know other statements. -/
theorem executeRetrying_other (retries : Nat) (e : Engine) :
    Engine.executeRetrying rt .other conn retries e = (.error .unsupportedStatement, e) := by
  have hmessage : occursIn (bytes "conflict") EngineError.unsupportedStatement.message = false := by
    decide +kernel
  refine Engine.executeRetrying_eq (fun err u hrun ↦ ?_) retries
  obtain rfl : EngineError.unsupportedStatement = err := Except.error.inj (congrArg Prod.fst hrun)
  exact hmessage

/-- All statements that were executed are ones that `execute_statement` knows. -/
theorem ExecutesStatements.other_not_mem : ∀ {stmts : List Statement} {s : System}
    {outputs : List Bytes}, s.ExecutesStatements rt conn stmts (.ok outputs) s' → .other ∉ stmts
  | [], _, _, _ => List.not_mem_nil
  | stmt :: stmts, _, _, ⟨.error _, _, _, heq, _⟩ => nomatch heq
  | stmt :: stmts, _, _, ⟨.ok output, _, _, .error _, _, heq⟩ => nomatch heq
  | stmt :: stmts, s, _, ⟨.ok output, _, hfirst, .ok rest, hrest, _⟩ => by
    intro hmem
    rcases List.mem_cons.1 hmem with rfl | hmem
    · have hresult := hfirst.2.1
      rw [Engine.execute, executeRetrying_other] at hresult
      cases hresult
    · exact hrest.other_not_mem hmem

end System

namespace Frontend

variable {f : Frontend} {s s₁ s₂ s' : System}

/-- After a request the other threads may go on. -/
theorem Executes.trans {sql : Text} {output : Bytes} (h : f.Executes rt conn sql s (.ok output) s₁)
    (h' : s₁.Answered rt s₂) : f.Executes rt conn sql s (.ok output) s₂ := by
  rw [Executes] at h ⊢
  split at h
  · obtain ⟨r, hr, heq⟩ := h
    exact ⟨r, hr.trans h', heq⟩
  · exact ⟨h.1, h.2.1, h.2.2.trans h'⟩
  · obtain ⟨hidle, r, t, hr, heq, hanswered⟩ := h
    exact ⟨hidle, r, t, hr, heq, hanswered.trans h'⟩
  · cases h.2.1

theorem Executes.idle {sql : Text} {r : Except ExecuteError Bytes}
    (h : f.Executes rt conn sql s r s') : s.phase = .idle ∧ s'.phase = .idle := by
  rw [Executes] at h
  split at h
  · obtain ⟨_, hr, _⟩ := h
    exact ⟨hr.1, hr.2.2.idle⟩
  · exact ⟨h.1, h.2.2.idle⟩
  · obtain ⟨hidle, _, _, _, _, hanswered⟩ := h
    exact ⟨hidle, hanswered.idle⟩
  · exact ⟨h.1, h.2.2.idle⟩

/-- What an accepted text does that is no command. -/
theorem executes_ok_iff {sql : Text} (h : ¬ f.IsCommand sql) {output : Bytes} :
    f.Executes rt conn sql s (.ok output) s' ↔ s.phase = .idle ∧ ∃ stmts outputs s₁,
      f.parseSql sql = .ok stmts ∧ s.ExecutesStatements rt conn stmts (.ok outputs) s₁ ∧
        output = joinLines outputs ∧ s₁.Answered rt s' := by
  rw [Executes, dispatch_of_not_isCommand h]
  rcases f.parseSql sql with message | stmts
  · refine iff_of_false (fun h ↦ nomatch h.2.1) ?_
    rintro ⟨-, stmts, outputs, s₁, hparse, -⟩
    cases hparse
  · refine and_congr_right fun _ ↦ ⟨?_, ?_⟩
    · rintro ⟨r | outputs, s₁, hr, heq, hanswered⟩
      · cases heq
      · exact ⟨stmts, outputs, s₁, rfl, hr, Except.ok.inj heq, hanswered⟩
    · rintro ⟨stmts', outputs, s₁, hparse, hr, rfl, hanswered⟩
      obtain rfl := Except.ok.inj hparse
      exact ⟨.ok outputs, s₁, hr, rfl, hanswered⟩

/-- A text that is one command, or one statement, and needs no `flush_pipeline`. -/
theorem exists_executes {sql : Text} {command : Command}
    (hsql : f.dispatch sql = .command command ∨
      ∃ stmt, command = .statement stmt ∧ f.dispatch sql = .statements [stmt])
    (hidle : s.phase = .idle) (hok : (Engine.execute rt command conn s.engine).1.isOk = true)
    (hafter : (s.call rt conn command).phase = .idle) :
    ∃ output, f.Executes rt conn sql s (.ok output) (s.call rt conn command) := by
  rcases hrun : (Engine.execute rt command conn s.engine).1 with err | reply
  · rw [hrun] at hok
    cases hok
  have hcommand : s.ExecutesCommand rt conn command (.ok reply.output) (s.call rt conn command) :=
    ⟨hidle, congrArg (Except.map Engine.Reply.output) hrun, .refl hafter⟩
  refine ⟨reply.output, ?_⟩
  rcases hsql with hsql | ⟨stmt, rfl, hsql⟩
  · rw [Executes, hsql]
    exact ⟨.ok reply.output, hcommand, rfl⟩
  · rw [Executes, hsql]
    refine ⟨hidle, .ok [reply.output], _, ⟨.ok reply.output, _, hcommand, .ok [], ⟨rfl, rfl⟩, rfl⟩, ?_,
      .refl hafter⟩
    exact congrArg Except.ok (joinLines_singleton _).symm

theorem ExecutesAll.length_eq : ∀ {sqls : List Text} {s : System} {outputs : List Bytes},
    f.ExecutesAll rt conn sqls s outputs s' → outputs.length = sqls.length
  | [], _, _, h => by rw [h.1, List.length_nil, List.length_nil]
  | _ :: _, _, _, ⟨_, _, _, _, hrest, heq⟩ => by
    rw [heq, List.length_cons, List.length_cons, hrest.length_eq]

theorem executesAll_singleton {sql : Text} {outputs : List Bytes} :
    f.ExecutesAll rt conn [sql] s outputs s' ↔
      ∃ output, f.Executes rt conn sql s (.ok output) s' ∧ outputs = [output] := by
  constructor
  · rintro ⟨output, s₁, rest, h, ⟨rfl, -, hanswered⟩, rfl⟩
    exact ⟨output, h.trans hanswered, rfl⟩
  · rintro ⟨output, h, rfl⟩
    exact ⟨output, s', [], h, ⟨rfl, h.idle.2, .refl h.idle.2⟩, rfl⟩

/-! ### A script and its statements -/

omit [Bincode (WalEntry Bytes Data)] in
/-- What the parser reads in a script it reads in each of the statements. -/
theorem exists_parseSql_of_script : ∀ {sqls : List Text} {stmts : List Statement},
    (∀ sql ∈ sqls, f.Splits sql) → f.parseSql (script sqls) = .ok stmts →
      ∀ sql ∈ sqls, ∃ part, f.parseSql sql = .ok part ∧ part ⊆ stmts
  | [], _, _, _, _, hsql => nomatch hsql
  | [sql], stmts, _, hparse, _, hsql => by
    rw [script, List.intercalate_singleton] at hparse
    exact ⟨stmts, List.mem_singleton.1 hsql ▸ hparse, List.Subset.refl stmts⟩
  | sql :: sql' :: sqls, stmts, hsplits, hparse, x, hx => by
    rw [script_cons_cons] at hparse
    obtain ⟨first, others, hfirst, hothers, rfl⟩ := (hsplits sql List.mem_cons_self _ _).1 hparse
    rcases List.mem_cons.1 hx with rfl | hx
    · exact ⟨first, hfirst, List.subset_append_left first others⟩
    · obtain ⟨part, hpart, hsub⟩ := exists_parseSql_of_script
        (fun y hy ↦ hsplits y (List.mem_cons_of_mem sql hy)) hothers x hx
      exact ⟨part, hpart, List.Subset.trans hsub (List.subset_append_right first others)⟩

/-- A script does what its statements do one after another, and gives their outputs. -/
def SameAsStatements (f : Frontend) (rt : Runtime) (conn : Nat) (sqls : List Text) (s : System) :
    Prop :=
  ∀ output s', f.Executes rt conn (script sqls) s (.ok output) s' ↔
    ∃ outputs, f.ExecutesAll rt conn sqls s outputs s' ∧ output = joinLines outputs

/-- Statements that are no commands, one after another: what the parser reads in the script. -/
theorem executesAll_iff (hf : f.Lawful) : ∀ {sqls : List Text} (s : System) (output : Bytes),
    sqls ≠ [] → (∀ sql ∈ sqls, ¬ f.IsCommand sql) → (∀ sql ∈ sqls, f.Splits sql) →
    (∀ sql ∈ sqls, f.parseSql sql ≠ .ok []) →
    ((∃ outputs, f.ExecutesAll rt conn sqls s outputs s' ∧ output = joinLines outputs) ↔
      s.phase = .idle ∧ ∃ stmts outputs s₁, f.parseSql (script sqls) = .ok stmts ∧
        s.ExecutesStatements rt conn stmts (.ok outputs) s₁ ∧ output = joinLines outputs ∧
          s₁.Answered rt s' ∧ outputs ≠ [])
  | [], _, _, hne, _, _, _ => absurd rfl hne
  | [sql], s, output, _, hcommands, _, hstatements => by
    have hsql := List.mem_singleton_self sql
    have hscript : script [sql] = sql := List.intercalate_singleton
    rw [hscript]
    constructor
    · rintro ⟨outputs, hall, rfl⟩
      obtain ⟨output, h, rfl⟩ := executesAll_singleton.1 hall
      obtain ⟨hidle, stmts, outputs, s₁, hparse, hstmts, rfl, hanswered⟩ :=
        (executes_ok_iff (hcommands sql hsql)).1 h
      refine ⟨hidle, stmts, outputs, s₁, hparse, hstmts, joinLines_singleton _, hanswered, ?_⟩
      rintro rfl
      have hlen := hstmts.length_eq
      exact hstatements sql hsql
        (hparse.trans (congrArg _ (List.eq_nil_of_length_eq_zero hlen.symm)))
    · rintro ⟨hidle, stmts, outputs, s₁, hparse, hstmts, rfl, hanswered, -⟩
      refine ⟨[joinLines outputs], executesAll_singleton.2 ⟨joinLines outputs, ?_, rfl⟩,
        (joinLines_singleton _).symm⟩
      exact (executes_ok_iff (hcommands sql hsql)).2
        ⟨hidle, stmts, outputs, s₁, hparse, hstmts, rfl, hanswered⟩
  | sql :: sql' :: sqls, s, output, _, hcommands, hsplits, hstatements => by
    have hsql : sql ∈ sql :: sql' :: sqls := List.mem_cons_self
    have hrest : ∀ x ∈ sql' :: sqls, x ∈ sql :: sql' :: sqls := fun x ↦ List.mem_cons_of_mem sql
    have ih := fun s output ↦ executesAll_iff hf s output
      (List.cons_ne_nil sql' sqls) (fun x hx ↦ hcommands x (hrest x hx))
      (fun x hx ↦ hsplits x (hrest x hx)) fun x hx ↦ hstatements x (hrest x hx)
    rw [script_cons_cons]
    constructor
    · rintro ⟨outputs, ⟨output, s₁, others, h, hall, rfl⟩, rfl⟩
      have hothers : others ≠ [] := fun e ↦ by
        have hlen := hall.length_eq
        rw [e, List.length_nil, List.length_cons] at hlen
        omega
      obtain ⟨hidle, stmts, outputs, t, hparse, hstmts, rfl, hanswered⟩ :=
        (executes_ok_iff (hcommands sql hsql)).1 h
      obtain ⟨-, stmts', outputs', t', hparse', hstmts', hjoin, hanswered', hne'⟩ :=
        (ih s₁ _).1 ⟨others, hall, rfl⟩
      have hne : stmts ≠ [] := fun e ↦ hstatements sql hsql (e ▸ hparse)
      have hne₁ : outputs ≠ [] := fun e ↦ hne (List.eq_nil_of_length_eq_zero (by
        rw [← hstmts.length_eq, e, List.length_nil]))
      refine ⟨hidle, stmts ++ stmts', outputs ++ outputs', t',
        (hsplits sql hsql _ _).2 ⟨stmts, stmts', hparse, hparse', rfl⟩,
        System.executesStatements_append.2 ⟨s₁, outputs, outputs', hstmts.trans hne hanswered,
          hstmts', rfl⟩, ?_, hanswered', List.append_ne_nil_of_left_ne_nil hne₁ _⟩
      rw [joinLines_cons hothers, hjoin, joinLines_append hne₁ hne']
    · rintro ⟨hidle, stmts, outputs, t', hparse, hstmts, rfl, hanswered, -⟩
      obtain ⟨first, others, hfirst, hothers, rfl⟩ := (hsplits sql hsql _ _).1 hparse
      obtain ⟨s₁, outputs₁, outputs₂, hrun, hrun', rfl⟩ :=
        System.executesStatements_append.1 hstmts
      have hne : first ≠ [] := fun e ↦ hstatements sql hsql (e ▸ hfirst)
      have hne₁ : outputs₁ ≠ [] := fun e ↦ hne (List.eq_nil_of_length_eq_zero (by
        rw [← hrun.length_eq, e, List.length_nil]))
      have hne₂ : outputs₂ ≠ [] := fun e ↦ by
        have hnil := List.eq_nil_of_length_eq_zero (hrun'.length_eq.symm.trans (e ▸ rfl))
        obtain ⟨part, hpart, hsub⟩ := exists_parseSql_of_script
          (fun x hx ↦ hsplits x (hrest x hx)) hothers sql' List.mem_cons_self
        rw [hnil, List.subset_nil] at hsub
        exact hstatements sql' (hrest sql' List.mem_cons_self) (hsub ▸ hpart)
      obtain ⟨outputs, hall, hjoin⟩ := (ih s₁ (joinLines outputs₂)).2
        ⟨hrun.idle hidle, others, outputs₂, t', hothers, hrun', rfl, hanswered, hne₂⟩
      have houtputs : outputs ≠ [] := fun e ↦ by
        have hlen := hall.length_eq
        rw [e, List.length_nil, List.length_cons] at hlen
        omega
      refine ⟨joinLines outputs₁ :: outputs, ⟨joinLines outputs₁, s₁, outputs, ?_, hall, rfl⟩, ?_⟩
      · exact (executes_ok_iff (hcommands sql hsql)).2
          ⟨hidle, first, outputs₁, s₁, hfirst, hrun, rfl, .refl (hrun.idle hidle)⟩
      · rw [joinLines_cons houtputs, ← hjoin, joinLines_append hne₁ hne₂]

omit [Bincode (WalEntry Bytes Data)] in
theorem exists_ok_of_mapError {r : Except EngineError Bytes} {output : Bytes}
    (h : (.ok output : Except ExecuteError Bytes) = r.mapError .engine) : r = .ok output := by
  cases r with
  | error e => cases h
  | ok a => exact congrArg _ (Except.ok.inj h).symm

/-- Two statements or more that are accepted one after another: if the script does the same, none of
them is a command. -/
theorem not_isCommand_of_sameAsStatements (hf : f.Lawful) {sql sql' : Text} {sqls : List Text}
    (hsplits : ∀ x ∈ sql :: sql' :: sqls, f.Splits x) {outputs : List Bytes}
    (hall : f.ExecutesAll rt conn (sql :: sql' :: sqls) s outputs s')
    (hsame : f.SameAsStatements rt conn (sql :: sql' :: sqls) s) :
    ∀ x ∈ sql :: sql' :: sqls, ¬ f.IsCommand x := by
  intro x hx hcommand
  have hscript := (hsame _ s').2 ⟨outputs, hall, rfl⟩
  obtain ⟨output, s₁, others, h, hrest, rfl⟩ := hall
  by_cases hsearch : searchText <+: f.upper sql.trim
  · -- the script is one search, for more than its first statement is
    have hone := h
    rw [Executes, dispatch_of_search hsearch] at hone
    rw [script_cons_cons, Executes, dispatch_of_search ((hf.caseless.search_iff sql _).2 hsearch)]
      at hscript
    obtain ⟨c, rest', hc, hquery⟩ := searchQuery_append sql (' ' :: script (sql' :: sqls))
    have hfirst := prefix_universalSearch (exists_ok_of_mapError hone.2.1)
    have hall := prefix_universalSearch (exists_ok_of_mapError hscript.2.1)
    rw [hquery] at hall
    exact searchHeading_not_prefix hc (hfirst.trans (prefix_joinLines output others)) hall
  · -- the parser reads the command as a statement, which is then refused
    rw [script_cons_cons] at hscript
    have hnot : ¬ f.IsCommand (sql ++ ';' :: (' ' :: script (sql' :: sqls))) := fun hc ↦
      hsearch ((hf.caseless.isCommand_iff sql _).1 hc)
    obtain ⟨-, stmts, outputs, t, hparse, hstmts, -⟩ := (executes_ok_iff hnot).1 hscript
    rw [← script_cons_cons] at hparse
    obtain ⟨part, hpart, hsub⟩ := exists_parseSql_of_script hsplits hparse x hx
    exact hstmts.other_not_mem (hsub (hf.parseSql_command x hcommand part hpart))

/-- No statement at all, or one. -/
theorem sameAsStatements_of_length_le_one (hf : f.Lawful) {sqls : List Text} (h : sqls.length ≤ 1) :
    f.SameAsStatements rt conn sqls s := by
  intro output s'
  match sqls with
  | [] =>
    have hnot : ¬ f.IsCommand [] := fun hc ↦ by
      rcases hc with hc | hc
      · exact absurd (show ([] : Text) ∈ commandTexts.map Prod.fst from hc) (by decide)
      · exact absurd (show searchText <+: [] from hc) (by decide)
    refine (executes_ok_iff hnot).trans ⟨?_, ?_⟩
    · rintro ⟨hidle, stmts, outputs, s₁, hparse, hstmts, rfl, hanswered⟩
      obtain rfl := Except.ok.inj (hf.parseSql_nil.symm.trans hparse)
      obtain ⟨houtputs, rfl⟩ := hstmts
      obtain rfl := Except.ok.inj houtputs
      exact ⟨[], ⟨rfl, hidle, hanswered⟩, rfl⟩
    · rintro ⟨outputs, ⟨rfl, hidle, hanswered⟩, rfl⟩
      exact ⟨hidle, [], [], s, hf.parseSql_nil, ⟨rfl, rfl⟩, rfl, hanswered⟩
  | [sql] =>
    rw [script, List.intercalate_singleton]
    refine ⟨fun h ↦ ⟨[output], executesAll_singleton.2 ⟨output, h, rfl⟩,
      (joinLines_singleton _).symm⟩, ?_⟩
    rintro ⟨outputs, hall, rfl⟩
    obtain ⟨output, h, rfl⟩ := executesAll_singleton.1 hall
    rwa [joinLines_singleton]
  | _ :: _ :: _ =>
    simp only [List.length_cons] at h
    omega

/-- Statements that are no commands. -/
theorem sameAsStatements_of_not_isCommand (hf : f.Lawful) {sql : Text} {sqls : List Text}
    (hsplits : ∀ x ∈ sql :: sqls, f.Splits x) (hstatements : ∀ x ∈ sql :: sqls, f.parseSql x ≠ .ok [])
    (hplain : ∀ x ∈ sql :: sqls, ¬ f.IsCommand x) :
    f.SameAsStatements rt conn (sql :: sqls) s := by
  intro output s'
  have hnot : ¬ f.IsCommand (script (sql :: sqls)) := fun hc ↦ by
    rcases sqls with - | ⟨sql', sqls⟩
    · rw [script, List.intercalate_singleton] at hc
      exact hplain sql List.mem_cons_self hc
    · rw [script_cons_cons] at hc
      exact hplain sql List.mem_cons_self (Or.inr ((hf.caseless.isCommand_iff sql _).1 hc))
  rw [executes_ok_iff hnot, executesAll_iff hf s _ (List.cons_ne_nil _ _) hplain hsplits hstatements]
  refine and_congr_right fun _ ↦ ⟨?_, ?_⟩
  · rintro ⟨stmts, outputs, s₁, hparse, hstmts, heq, hanswered⟩
    refine ⟨stmts, outputs, s₁, hparse, hstmts, heq, hanswered, fun e ↦ ?_⟩
    have hnil := List.eq_nil_of_length_eq_zero (hstmts.length_eq.symm.trans (e ▸ rfl))
    obtain ⟨part, hpart, hsub⟩ := exists_parseSql_of_script hsplits hparse sql List.mem_cons_self
    rw [hnil, List.subset_nil] at hsub
    exact hstatements sql List.mem_cons_self (hsub ▸ hpart)
  · rintro ⟨stmts, outputs, s₁, hparse, hstmts, heq, hanswered, -⟩
    exact ⟨stmts, outputs, s₁, hparse, hstmts, heq, hanswered⟩

/-- **A script** does what its statements do, one after another, exactly if none of them is a command
that `execute` looks for by itself, or there is no more than one: for statements that are accepted one
after another. -/
theorem script_iff (hf : f.Lawful) {sqls : List Text} (hsplits : ∀ sql ∈ sqls, f.Splits sql)
    (hstatements : ∀ sql ∈ sqls, f.parseSql sql ≠ .ok [])
    (haccepted : ∃ outputs s', f.ExecutesAll rt conn sqls s outputs s') :
    f.SameAsStatements rt conn sqls s ↔ sqls.length ≤ 1 ∨ ∀ sql ∈ sqls, ¬ f.IsCommand sql := by
  obtain ⟨outputs, s', hall⟩ := haccepted
  match sqls with
  | [] => exact iff_of_true (sameAsStatements_of_length_le_one hf (Nat.zero_le 1)) (Or.inl (Nat.zero_le 1))
  | [_] => exact iff_of_true (sameAsStatements_of_length_le_one hf le_rfl) (Or.inl le_rfl)
  | sql :: sql' :: sqls =>
    have hlength : ¬ (sql :: sql' :: sqls).length ≤ 1 := by
      simp only [List.length_cons]
      omega
    rw [or_iff_right hlength]
    exact ⟨not_isCommand_of_sameAsStatements hf hsplits hall,
      sameAsStatements_of_not_isCommand hf hsplits hstatements⟩

end Frontend

end

/-! ### A frontend to compute with -/

/-- The statements that the parser of `Frontend.plain` knows, by their texts in upper case. -/
def plainStatements : List (Text × Statement) :=
  [("BEGIN".toList, .other), ("COMMIT".toList, .other), ("ROLLBACK".toList, .other),
    ("CREATE TABLE T (A TEXT)".toList, .createTable (bytes "t") [⟨bytes "a", []⟩]),
    ("SELECT * FROM T".toList, .query (selectOf "t" none))]

/-- The statement between two semicolons, if there is one. -/
def plainStatement (piece : Text) : Except Bytes (List Statement) :=
  if piece.trim = [] then .ok []
  else
    match plainStatements.lookup (piece.trim.flatMap fun c ↦ [c.toUpper]) with
    | some stmt => .ok [stmt]
    | none => .error (bytes "sql parser error")

/-- The statements between semicolons. -/
def plainPieces : List Text → Except Bytes (List Statement)
  | [] => .ok []
  | piece :: pieces => do
    let first ← plainStatement piece
    let others ← plainPieces pieces
    pure (first ++ others)

/-- A frontend to compute with. -/
def Frontend.plain : Frontend where
  parseSql sql := plainPieces (sql.splitOnP (· = ';'))
  toUppercase c := [c.toUpper]
  fromUtf8Lossy text := text

namespace Frontend

theorem caseless_plain : Frontend.plain.Caseless := by
  have hall : ∀ c ∈ ';' :: Text.whiteSpace, [c.toUpper] = [c] :=
    List.all_iff_forall_prop.1 (by decide)
  rintro c (rfl | hc)
  · rfl
  · exact hall c (List.mem_cons_of_mem _ (of_decide_eq_true hc))

/-- A command between semicolons is no statement, or one that `execute_statement` does not know. -/
theorem plainStatement_command {piece : Text} (h : plain.IsCommand piece) {stmts : List Statement}
    (hstmts : plainStatement piece = .ok stmts) : stmts = [.other] := by
  have hne : piece.trim ≠ [] := fun e ↦ by
    rw [IsCommand, e] at h
    exact absurd h (by decide)
  rw [plainStatement, if_neg hne] at hstmts
  rcases h with h | h
  · have hall : ∀ t ∈ commandTexts.map Prod.fst, ∀ stmt ∈ plainStatements.lookup t,
        stmt = .other := by decide
    split at hstmts
    · rename_i stmt hlookup
      obtain rfl := Except.ok.inj hstmts
      rw [hall _ h stmt hlookup]
    · cases hstmts
  · have hall : ∀ x ∈ plainStatements, ¬ searchText <+: x.1 := by decide
    have hnone : plainStatements.lookup (plain.upper piece.trim) = none := by
      rw [List.lookup_eq_none_iff]
      rintro ⟨t, stmt⟩ ht
      refine bne_iff_ne.2 fun e ↦ ?_
      change plain.upper piece.trim = t at e
      exact hall _ ht (e ▸ h)
    change (match plainStatements.lookup (plain.upper piece.trim) with
      | some stmt => _
      | none => _ : Except Bytes (List Statement)) = _ at hstmts
    rw [hnone] at hstmts
    cases hstmts

/-- A text without a semicolon is one piece. -/
theorem parseSql_plain_of_not_mem {sql : Text} (h : ';' ∉ sql) :
    plain.parseSql sql = plainStatement sql := by
  have hpieces : sql.splitOnP (· = ';') = [sql] :=
    List.splitOnP_eq_singleton fun c hc ↦ decide_eq_false fun e ↦ h (e ▸ hc)
  show plainPieces (sql.splitOnP (· = ';')) = _
  rw [hpieces]
  show (plainStatement sql >>= fun first ↦ pure (first ++ [])) = _
  rcases plainStatement sql with message | first
  · rfl
  · show Except.ok (first ++ []) = _
    rw [List.append_nil]

theorem parseSql_plain_append {sql : Text} (h : ';' ∉ sql) (rest : Text) :
    plain.parseSql (sql ++ ';' :: rest) = (do
      let first ← plainStatement sql
      let others ← plain.parseSql rest
      pure (first ++ others)) := by
  have hpieces : (sql ++ ';' :: rest).splitOnP (· = ';') = sql :: rest.splitOnP (· = ';') :=
    List.splitOnP_append_cons_of_forall_mem
      (fun c hc ↦ decide_eq_false fun e : c = ';' ↦ h (e ▸ hc)) _ rfl _
  show plainPieces ((sql ++ ';' :: rest).splitOnP (· = ';')) = _
  rw [hpieces]
  rfl

theorem parseSql_plain_blank (rest : Text) : plain.parseSql (' ' :: rest) = plain.parseSql rest := by
  show plainPieces ((' ' :: rest).splitOnP (· = ';')) = plainPieces (rest.splitOnP (· = ';'))
  rw [List.splitOnP_cons_eq_if_modifyHead]
  rcases rest.splitOnP (· = ';') with - | ⟨piece, pieces⟩
  · rfl
  · rfl

theorem splits_plain {sql : Text} (h : ';' ∉ sql) : plain.Splits sql := by
  intro rest stmts
  rw [parseSql_plain_append h, parseSql_plain_blank, parseSql_plain_of_not_mem h]
  rcases plainStatement sql with message | first
  · exact iff_of_false (fun h ↦ nomatch h) fun ⟨_, _, h, _⟩ ↦ nomatch h
  rcases plain.parseSql rest with message | others
  · exact iff_of_false (fun h ↦ nomatch h) fun ⟨_, _, _, h, _⟩ ↦ nomatch h
  · refine ⟨fun h ↦ ⟨first, others, rfl, rfl, (Except.ok.inj h).symm⟩, ?_⟩
    rintro ⟨first', others', hfirst, hothers, rfl⟩
    rw [Except.ok.inj hfirst, Except.ok.inj hothers]
    rfl

theorem lawful_plain : Frontend.plain.Lawful where
  caseless := caseless_plain
  parseSql_nil := rfl
  parseSql_command := by
    intro sql hcommand stmts hstmts
    by_cases hmem : ';' ∈ sql
    · obtain ⟨a, b, rfl, hnot⟩ := List.eq_append_cons_of_mem hmem
      have hsearch := (caseless_plain.isCommand_iff a b).1 hcommand
      rw [parseSql_plain_append hnot] at hstmts
      obtain ⟨first, hfirst, hrest⟩ := Except.exists_of_bind_eq_ok hstmts
      obtain ⟨others, -, heq⟩ := Except.exists_of_bind_eq_ok hrest
      rw [← Except.ok.inj heq, plainStatement_command (Or.inr hsearch) hfirst]
      exact List.mem_append_left _ (List.mem_singleton_self _)
    · rw [parseSql_plain_of_not_mem hmem] at hstmts
      rw [plainStatement_command hcommand hstmts]
      exact List.mem_singleton_self _

/-- Two statements, of which the second one reads the table that the first one makes. -/
def createThenSelect : List Text := ["CREATE TABLE t (a TEXT)".toList, "SELECT * FROM t".toList]

/-- The first of them. -/
def createT : Command := .statement (.createTable (bytes "t") [⟨bytes "a", []⟩])

theorem script_iff_createThenSelect : let _ := plainBincode []
    plain.SameAsStatements .plain 1 createThenSelect System.start := by
  let _ := plainBincode []
  have hall : ∀ sql ∈ createThenSelect, ';' ∉ sql ∧ ¬ plain.IsCommand sql ∧
      ((plain.parseSql sql).map List.length).toOption = some 1 := by decide +kernel
  obtain ⟨output₁, hcreate⟩ : ∃ output, plain.Executes .plain 1 "CREATE TABLE t (a TEXT)".toList
      System.start (.ok output) (System.start.call .plain 1 createT) :=
    exists_executes (Or.inr ⟨_, rfl, rfl⟩) rfl (by decide +kernel) (by decide +kernel)
  obtain ⟨output₂, hselect⟩ : ∃ output, plain.Executes .plain 1 "SELECT * FROM t".toList
      (System.start.call .plain 1 createT) (.ok output)
      ((System.start.call .plain 1 createT).call .plain 1 (.statement (.query (selectOf "t" none)))) :=
    exists_executes (Or.inr ⟨_, rfl, rfl⟩) hcreate.idle.2 (by decide +kernel) (by decide +kernel)
  refine (script_iff lawful_plain (fun sql hsql ↦ splits_plain (hall sql hsql).1)
    (fun sql hsql hnone ↦ ?_) ⟨_, _, output₁, _, _, hcreate, executesAll_singleton.2
      ⟨output₂, hselect, rfl⟩, rfl⟩).2 (Or.inr fun sql hsql ↦ (hall sql hsql).2.1)
  have hone := (hall sql hsql).2.2
  rw [hnone] at hone
  cases hone

/-- **A transaction in a script is refused**, where its statements are accepted one after another. -/
theorem not_sameAsStatements : let _ := plainBincode []
    ¬ ∀ (f : Frontend) (rt : Runtime) (conn : Nat) (sqls : List Text) (s : System), f.Lawful →
      (∀ sql ∈ sqls, f.Splits sql) → (∀ sql ∈ sqls, f.parseSql sql ≠ .ok []) →
      (∃ outputs s', f.ExecutesAll rt conn sqls s outputs s') →
      f.SameAsStatements rt conn sqls s := by
  intro _ hclaim
  obtain ⟨output₁, hbegin⟩ : ∃ output, plain.Executes .plain 1 "BEGIN".toList System.start (.ok output)
      (System.start.call .plain 1 .begin) :=
    exists_executes (Or.inl rfl) rfl (by decide +kernel) (by decide +kernel)
  obtain ⟨output₂, hrollback⟩ : ∃ output, plain.Executes .plain 1 "ROLLBACK".toList
      (System.start.call .plain 1 .begin) (.ok output)
      ((System.start.call .plain 1 .begin).call .plain 1 .rollback) :=
    exists_executes (Or.inl rfl) hbegin.idle.2 (by decide +kernel) (by decide +kernel)
  have hall : plain.ExecutesAll .plain 1 ["BEGIN".toList, "ROLLBACK".toList] System.start
      [output₁, output₂] _ :=
    ⟨output₁, _, _, hbegin, executesAll_singleton.2 ⟨output₂, hrollback, rfl⟩, rfl⟩
  have hsame := hclaim plain .plain 1 ["BEGIN".toList, "ROLLBACK".toList] System.start lawful_plain
    (fun sql hsql ↦ splits_plain (by
      have hno : ∀ sql ∈ ["BEGIN".toList, "ROLLBACK".toList], ';' ∉ sql := by decide
      exact hno sql hsql))
    (fun sql hsql hnone ↦ by
      have hone : ∀ sql ∈ ["BEGIN".toList, "ROLLBACK".toList],
          ((plain.parseSql sql).map List.length).toOption = some 1 := by decide +kernel
      have hone := hone sql hsql
      rw [hnone] at hone
      cases hone) ⟨_, _, hall⟩
  obtain ⟨-, stmts, outputs, s₁, hparse, hstmts, -⟩ := (executes_ok_iff (by decide +kernel)).1
    ((hsame _ _).2 ⟨_, hall, rfl⟩)
  have htwo : plain.parseSql (script ["BEGIN".toList, "ROLLBACK".toList]) = .ok [.other, .other] := rfl
  obtain rfl := Except.ok.inj (htwo.symm.trans hparse)
  exact hstmts.other_not_mem List.mem_cons_self

end Frontend

end KsSql
