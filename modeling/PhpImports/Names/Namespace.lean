import PhpImports.Names.Placed

/-!
# PhpImports — the namespace of a unit

The first `namespace` that declares one gives the unit its namespace. A `namespace`
directly before a separator only begins a relative name. The declaration ends at the
first `;` or `{` after it; one without a name declares the global namespace, which
counts as none.

* `NamespaceDecl` — name and position of the end.
* `namespaceDecl?` — the declaration of a unit.
-/

namespace PhpImports

/-- The declaration of a unit's namespace. -/
structure NamespaceDecl where
  /-- The texts of the name, joined. -/
  name : String
  /-- Position of the `;` or `{` at the end. -/
  stop : Nat
  deriving DecidableEq

/-- The tokens at which a declaration ends. -/
def Placed.endsDecl (t : Placed) : Bool :=
  t.kind = .semicolon || t.kind = .lBrace

/-- The declaration that goes on with the given tokens after `namespace`. -/
def readNamespace? (ts : List Placed) : Option NamespaceDecl :=
  let name := sourceText ((ts.takeWhile (!·.endsDecl)).map Placed.toToken)
  match ts.dropWhile (!·.endsDecl) with
  | [] => none
  | stop :: _ => if name.isEmpty then none else some ⟨name, stop.index⟩

/-- The first declaration among tokens without trivia. -/
def firstNamespace? : List Placed → Option NamespaceDecl
  | [] => none
  | t :: ts =>
    if t.kind = .keyword .namespaceKw && !ts.head?.any (·.kind = .nsSeparator) then
      readNamespace? ts
    else firstNamespace? ts

/-- The declaration of the unit's namespace. -/
def namespaceDecl? (ts : List Token) : Option NamespaceDecl :=
  firstNamespace? (placed ts)

end PhpImports
