import KsSql.Parser.System
import KsSql.Util.Text

/-!
# Requests as texts

`Engine::execute` of `parser/engine.rs` takes the text of a request. It knows `FLUSH`, `SEARCH`,
`BEGIN`, `COMMIT` and `ROLLBACK` by the whole text or by how it starts (`Frontend.dispatch`), and gives
every other text to the SQL parser. The statements that the parser reads are executed one after
another, each up to the end of its `flush_pipeline`, and their outputs are joined by line breaks.

The other threads run while a request waits, so what a request does is a relation between the states
before and after it (`Frontend.Executes`). `Frontend` is what comes from outside the repository: the
SQL parser, and what the standard library knows of Unicode.
-/

namespace KsSql

open PageProgram BPlusTree

/-- What `execute` uses of the world outside the repository, beside `Runtime`. -/
structure Frontend where
  /-- `Parser::parse_sql` with the generic dialect: the statements, or an error message. -/
  parseSql : Text → Except Bytes (List Statement)
  /-- `char::to_uppercase` -/
  toUppercase : Char → Text
  /-- `String::from_utf8_lossy` -/
  fromUtf8Lossy : Bytes → Bytes

/-- What `execute` takes a text for. -/
inductive Request
  /-- `FLUSH`, `BEGIN`, `COMMIT` or `ROLLBACK`. -/
  | command (c : Command)
  | search (query : Text)
  | statements (stmts : List Statement)
  /-- The SQL parser does not read the text. -/
  | syntaxError (message : Bytes)

/-- The errors of `execute`. -/
inductive ExecuteError
  | parser (message : Bytes)
  | engine (e : EngineError)
  deriving DecidableEq

/-- Lines, with line breaks between them. -/
def joinLines (lines : List Bytes) : Bytes := (bytes "\n").intercalate lines

/-- The texts that `execute` compares a request with. -/
def commandTexts : List (Text × Command) :=
  [("FLUSH".toList, .flush), ("BEGIN".toList, .begin), ("BEGIN TRANSACTION".toList, .begin),
    ("COMMIT".toList, .commit), ("ROLLBACK".toList, .rollback)]

/-- How a search starts. -/
def searchText : Text := "SEARCH".toList

namespace Frontend

variable (f : Frontend)

/-- `str::to_uppercase` -/
def upper (t : Text) : Text := t.flatMap f.toUppercase

/-- How `execute` takes a text. No command starts as a search does, so their order does not matter. -/
def dispatch (sql : Text) : Request :=
  let sqlUpper := f.upper sql.trim
  match commandTexts.lookup sqlUpper with
  | some c => .command c
  | none =>
    if searchText.isPrefixOf sqlUpper then
      .search ((Text.trim (.trimStartMatches searchText sql)).filter (· ≠ '\''))
    else
      match f.parseSql sql with
      | .ok stmts => .statements stmts
      | .error message => .syntaxError message

/-- The text is one that `execute` knows by itself. -/
def IsCommand (sql : Text) : Prop :=
  f.upper sql.trim ∈ commandTexts.map Prod.fst ∨ searchText <+: f.upper sql.trim

instance (sql : Text) : Decidable (f.IsCommand sql) := instDecidableOr

end Frontend

/-! ### The universal search -/

/-- The walk of `universal_search`: down the first children, and along the leaves. -/
def searchLoop {K V ε β : Type} (visit : β → Node K V → Except ε β) :
    Nat → Nat → β → Program K V (Except ε β)
  | 0, _, _ => .fail .diverged
  | fuel + 1, pageId, acc => do
    let node ← readPage pageId
    match node.nodeType with
    | .leaf =>
      match visit acc node with
      | .error e => pure (.error e)
      | .ok acc =>
        match node.nextLeaf with
        | none => pure (.ok acc)
        | some next => searchLoop visit fuel next acc
    | .internal =>
      match node.children with
      | [] => pure (.ok acc)
      | child :: _ => searchLoop visit fuel child acc

namespace Frontend

variable (f : Frontend) (rt : Runtime)

/-- Look at a leaf's entries in a search, from the left. A key without a value panics. -/
def searchLeaf (query : Text) : List Bytes → List Data → List Bytes →
    Except EngineError (List Bytes)
  | [], _, results => .ok results
  | key :: keys, values, results =>
    if (bytes "__").isPrefixOf (f.fromUtf8Lossy key) then searchLeaf query keys values.tail results
    else
      match values with
      | [] => .error .panicked
      | data :: values => do
        let record ← rt.decodeRecord data
        let row := f.fromUtf8Lossy (rt.payloadBytes record.value)
        searchLeaf query keys values
          (if record.isDeleted = false ∧ occursIn query.utf8 row then
            results ++ [bytes "Match in Key " ++ f.fromUtf8Lossy key ++ bytes ": " ++ row]
          else results)

/-- The first line of what a search answers. -/
def searchHeading (query : Text) : Bytes :=
  bytes "Universal Search Results for: '" ++ query.utf8 ++ bytes "'"

/-- `Engine::universal_search` -/
def universalSearch (query : Text) (e : Engine) : Except EngineError Bytes := do
  let results := [searchHeading query, List.replicate 40 45]
  let visit := fun results (node : Node Bytes Data) ↦
    f.searchLeaf rt query node.keys node.values results
  match ((pagerDevice Bytes Data).run (searchLoop visit e.btree.fuel rootPageId results) e.btree).1 with
  | .error err => .error (.storage err)
  | .ok found => (found.map joinLines : Except EngineError Bytes)

end Frontend

/-! ### Execution -/

/-- The step is a request's, and not one of the threads beside it. -/
def Action.isCall : Action → Bool
  | .call _ _ => true
  | _ => false

section

variable [Bincode (WalEntry Bytes Data)]

namespace System

/-- Until the next request the `flush_pipeline` of this one and the other threads take steps. -/
def Answered (rt : Runtime) (s s' : System) : Prop :=
  ∃ actions : List Action, (∀ a ∈ actions, a.isCall = false) ∧ s.run rt actions = some s' ∧
    s'.phase = .idle

/-- What a command does, from its call until the next request. -/
def ExecutesCommand (rt : Runtime) (conn : Nat) (command : Command) (s : System)
    (result : Except EngineError Bytes) (s' : System) : Prop :=
  s.phase = .idle ∧ (Engine.execute rt command conn s.engine).1.map Engine.Reply.output = result ∧
    (s.call rt conn command).Answered rt s'

/-- What statements do, one after another, until one of them fails. -/
def ExecutesStatements (rt : Runtime) (conn : Nat) :
    List Statement → System → Except EngineError (List Bytes) → System → Prop
  | [], s, result, s' => result = .ok [] ∧ s' = s
  | stmt :: stmts, s, result, s' => ∃ first s₁, s.ExecutesCommand rt conn (.statement stmt) first s₁ ∧
    match first with
    | .ok output => ∃ rest, ExecutesStatements rt conn stmts s₁ rest s' ∧
        result = rest.map (output :: ·)
    | .error err => result = .error err ∧ s' = s₁

end System

namespace Frontend

variable (f : Frontend)

/-- `Engine::execute`, from the call until the next request. -/
def Executes (rt : Runtime) (conn : Nat) (sql : Text) (s : System)
    (result : Except ExecuteError Bytes) (s' : System) : Prop :=
  match f.dispatch sql with
  | .command c => ∃ r, s.ExecutesCommand rt conn c r s' ∧ result = r.mapError .engine
  | .search query =>
    s.phase = .idle ∧ result = (f.universalSearch rt query s.engine).mapError .engine ∧
      s.Answered rt s'
  | .statements stmts => s.phase = .idle ∧ ∃ r s₁, s.ExecutesStatements rt conn stmts r s₁ ∧
      result = (r.map joinLines).mapError .engine ∧ s₁.Answered rt s'
  | .syntaxError message =>
    s.phase = .idle ∧ result = .error (.parser message) ∧ s.Answered rt s'

/-- What texts do that are executed one after another, when each of them is accepted: the outputs, and
the state in which the next request comes. -/
def ExecutesAll (rt : Runtime) (conn : Nat) : List Text → System → List Bytes → System → Prop
  | [], s, outputs, s' => outputs = [] ∧ s.phase = .idle ∧ s.Answered rt s'
  | sql :: sqls, s, outputs, s' => ∃ output s₁ rest, f.Executes rt conn sql s (.ok output) s₁ ∧
      ExecutesAll rt conn sqls s₁ rest s' ∧ outputs = output :: rest

end Frontend

end

end KsSql
