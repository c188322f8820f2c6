import PhpImports.Token.Block

/-!
# PhpImports — the types that a unit declares

A class, interface or trait is declared where its keyword stands before a name. The
declaration reaches to the end of its body, and what stands inside is not looked at.

* `bodyEnd` — how far a declaration reaches behind its name.
* `declaredTypes` — the names of the declared types.
-/

namespace PhpImports

/-- Number of tokens from a declaration's name to the end of its body: the body is the block
of the first `{`. A declaration whose body is missing or not closed ends with its name. -/
def bodyEnd (ts : List Token) : Nat :=
  match leadingBlock? .curly (ts.dropWhile (·.kind ≠ .lBrace)) with
  | some (body, _) => (ts.takeWhile (·.kind ≠ .lBrace)).length + body.length + 2
  | none => 0

/-- The name after the keyword of a declaration, and the tokens behind it. -/
def declaredName? : List Token → Option (String × List Token)
  | [] => none
  | t :: ts => if t.kind = .identifier then some (t.text, ts) else none

/-- Names of the types declared in tokens without trivia; `skip` tokens of a declaration
already found are still to be passed over. -/
def declaredTypesFrom : Nat → List Token → List String
  | _, [] => []
  | skip + 1, _ :: ts => declaredTypesFrom skip ts
  | 0, t :: ts =>
    match if t.kind.isTypeDeclaration then declaredName? ts else none with
    -- The name itself is one of the tokens to pass over.
    | some (name, rest) => name :: declaredTypesFrom (1 + bodyEnd rest) ts
    | none => declaredTypesFrom 0 ts

/-- Names of the types that a unit declares, in order and with repetitions. -/
def declaredTypes (ts : List Token) : List String :=
  declaredTypesFrom 0 (meaningful ts)

end PhpImports
