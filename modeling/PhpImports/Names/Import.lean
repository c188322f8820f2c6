import PhpImports.Names.Placed

/-!
# PhpImports — the imports of a unit

A `use` is an import where a statement may begin and no brace is open but those of
namespace bodies; the `use` of a trait in a class or of variables by a closure is not.
The scan keeps a stack of the open braces and passes over each statement it has read.
A statement that is never ended binds the names read so far, and the scan goes on
behind its `use`.

* `Clauses`, `readClauses` — the names that a statement binds, and its end.
* `ImportScan`, `ImportScan.step`, `ImportScan.run` — the scan.
* `importScan` — the scan of a unit: bound names, and the end of the last import.
-/

namespace PhpImports

/-! ## One statement -/

/-- What was read of a `use` statement. -/
structure Clauses where
  /-- The names bound. -/
  names : List String
  /-- Position of the `;`, if there is one. -/
  stop : Option Nat
  deriving DecidableEq

/-- Reads the clauses after `use`. The last identifier of a clause is the name it binds: an
alias, or else the end of the path. A brace opens a group, whose path binds nothing. The
identifier `last` is the last one seen in the clause so far. -/
def readClauses (last : Option String) : List Placed → Clauses
  | [] => ⟨[], none⟩
  | t :: ts =>
    match t.kind with
    | .identifier => readClauses (some t.text) ts
    | .lBrace => readClauses none ts
    | .comma | .rBrace =>
      let rest := readClauses none ts
      ⟨last.toList ++ rest.names, rest.stop⟩
    | .semicolon => ⟨last.toList, some t.index⟩
    | _ => readClauses last ts

/-- Number of tokens through the first `;`. -/
def statementLength (ts : List Placed) : Nat :=
  (ts.takeWhile (·.kind ≠ .semicolon)).length + 1

/-! ## The scan -/

/-- What an open brace encloses. -/
inductive Brace where
  /-- The body of a namespace, in which imports may stand. -/
  | namespaceBody
  /-- Any other code. -/
  | code
  deriving DecidableEq

/-- State of the scan for imports. -/
structure ImportScan where
  /-- The names bound so far. -/
  names : List String := []
  /-- Position of the `;` of the last import. -/
  lastEnd : Option Nat := none
  /-- The open braces, the innermost first. -/
  braces : List Brace := []
  /-- Whether a `namespace` was seen whose body may be opened by the next brace. -/
  awaitsBody : Bool := false
  /-- Kind of the last token. -/
  last : Option Kind := none
  /-- Number of tokens of a statement already read that are still to be passed over. -/
  skip : Nat := 0
  deriving DecidableEq

namespace ImportScan

/-- Whether no brace is open but those of namespace bodies. -/
def atImportLevel (s : ImportScan) : Bool :=
  s.braces.all (· = .namespaceBody)

/-- Whether a `use` at this point is an import. -/
def allowsImport (s : ImportScan) : Bool :=
  s.atImportLevel && s.last.all Kind.isStatementBoundary

/-- Takes in the import that goes on with the given tokens after its `use`. -/
def addImport (s : ImportScan) (ts : List Placed) : ImportScan :=
  let read := readClauses none ts
  match read.stop with
  | some stop =>
    { s with names := s.names ++ read.names, lastEnd := some stop, skip := statementLength ts }
  | none => { s with names := s.names ++ read.names }

/-- The state after the token `t`, with `ts` still to come. -/
def step (s : ImportScan) (t : Placed) (ts : List Placed) : ImportScan :=
  let seen := { s with last := some t.kind }
  match s.skip with
  -- Inside a statement already read, braces and semicolons are of no account.
  | n + 1 => { seen with skip := n }
  | 0 =>
    match t.kind with
    | .keyword .namespaceKw => { seen with awaitsBody := ts.head?.any (·.kind ≠ .nsSeparator) }
    | .semicolon => { seen with awaitsBody := false }
    | .lBrace =>
      { seen with
        braces := (if s.awaitsBody then .namespaceBody else .code) :: s.braces
        awaitsBody := false }
    | .rBrace => { seen with braces := s.braces.tail }
    | .keyword .useKw => if s.allowsImport then seen.addImport ts else seen
    | _ => seen

/-- The state after all tokens. -/
def run (s : ImportScan) : List Placed → ImportScan
  | [] => s
  | t :: ts => (s.step t ts).run ts

end ImportScan

/-- The scan of a unit for imports. -/
def importScan (ts : List Token) : ImportScan :=
  ImportScan.run {} (placed ts)

/-- The names that a unit imports, in order and with repetitions. -/
def importedNames (ts : List Token) : List String :=
  (importScan ts).names

end PhpImports
