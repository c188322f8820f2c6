import PhpImports.Names.Mention
import PhpImports.Token.Block

/-!
# PhpImports — the classes that a unit uses

A class is used where it is instantiated, where a static member of it is named, where
it is caught as an exception, and where it is the type of a parameter or of a
function's result. Only bare names count: a qualified name needs no import.

* `instantiations` — `new Name(…)`, `new Name;` and `Name::…`.
* `staticAccesses` — `Name::…` alone.
* `caughtTypes` — the types of catch clauses.
* `signatureTypes` — the types of parameters and results.
* `usedNames` — all of them, each once, in the order of their first appearance.
-/

namespace PhpImports

/-- Classes that are instantiated or whose static members are named. -/
def instantiations (ts : List Token) : List String :=
  namesWhere (fun m => m.isInstantiated || m.isAccessed) (meaningful ts)

/-- Classes whose static members are named. -/
def staticAccesses (ts : List Token) : List String :=
  namesWhere Mention.isAccessed (meaningful ts)

/-! ## Catch clauses -/

/-- Types of the catch clauses in tokens without trivia. A closed clause is passed over as a
whole; `skip` tokens of one are still to be passed over. -/
def caughtTypesFrom : Nat → List Token → List String
  | _, [] => []
  | skip + 1, _ :: ts => caughtTypesFrom skip ts
  | 0, t :: ts =>
    match if t.kind = .keyword .catchKw then leadingBlock? .parenthesis ts else none with
    | some (clause, _) =>
      -- Two parentheses enclose the clause.
      namesWhere Mention.isCaught clause ++ caughtTypesFrom (clause.length + 2) ts
    | none => caughtTypesFrom 0 ts

/-- Types of the catch clauses. -/
def caughtTypes (ts : List Token) : List String :=
  caughtTypesFrom 0 (meaningful ts)

/-! ## Signatures -/

/-- The tokens without the first one if that is of kind `k`. -/
def dropKind (k : Kind) : List Token → List Token
  | [] => []
  | t :: ts => if t.kind = k then ts else t :: ts

/-- The parameter list after `function`: the tokens between its parentheses, and those after
it. An ampersand and a name may stand before it. -/
def parameters? (ts : List Token) : Option (List Token × List Token) :=
  leadingBlock? .parenthesis (dropKind .identifier (dropKind .ampersand ts))

/-- The type of a function's result, from the tokens after its parameter list: a bare name
between a colon and the body or the end of the declaration. -/
def resultType? : List Token → Option String
  | colon :: type :: stop :: _ =>
    if colon.kind = .colon && type.kind = .identifier
        && (stop.kind = .lBrace || stop.kind = .semicolon) && !isReserved type.text then
      some type.text
    else none
  | _ => none

/-- Types in a signature, from the tokens after `function`. -/
def typesOfSignature (ts : List Token) : List String :=
  match parameters? ts with
  | some (params, rest) => namesWhere Mention.isHint params ++ (resultType? rest).toList
  | none => []

/-- Types in the signatures among tokens without trivia. -/
def signatureTypesFrom : List Token → List String
  | [] => []
  | t :: ts =>
    if t.kind = .keyword .functionKw then typesOfSignature ts ++ signatureTypesFrom ts
    else signatureTypesFrom ts

/-- Types of parameters and results. -/
def signatureTypes (ts : List Token) : List String :=
  signatureTypesFrom (meaningful ts)

/-! ## All usages -/

/-- The used classes, each once, in the order of their first appearance in the four lists. -/
def usedNames (ts : List Token) : List String :=
  (instantiations ts ++ staticAccesses ts ++ caughtTypes ts ++ signatureTypes ts).eraseDups

theorem mem_usedNames {ts : List Token} {n : String} :
    n ∈ usedNames ts ↔ n ∈ instantiations ts ∨ n ∈ staticAccesses ts ∨ n ∈ caughtTypes ts ∨
      n ∈ signatureTypes ts := by
  simp [usedNames]

end PhpImports
