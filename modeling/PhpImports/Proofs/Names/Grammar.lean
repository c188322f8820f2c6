import PhpImports.Token.Basic

/-!
# PhpImports — well-formed units

A grammar of units, as far as imports are concerned: imports, namespaces with and without
a body, and code that is told apart into plain statements and plain blocks only. A tree of
the grammar holds its tokens, each with the kind that its place asks for, so that trees
are well-formed as they stand; `tokens` writes them back, without trivia.

Plain tokens may be any but braces and `;`. A `namespace` stands among them at the
beginning of a relative name only. Outside plain blocks a `use` stands among them after
`)` only, where a closure captures variables; inside plain blocks it stands anywhere.

## Results

* `UseStmt`, `UseStmt.boundNames` — a `use` statement, and the names that it binds.
* `Elements`, `SourceUnit` — units.
* `SourceUnit.imports` — the `use` statements outside plain blocks, in order.
-/

namespace PhpImports

/-- A token of a kind. -/
abbrev TokenOf (k : Kind) : Type :=
  { t : Token // t.kind = k }

/-- The word `function` or `const`, for imports of other things than classes. -/
abbrev Marker : Type :=
  { t : Token // t.kind = .keyword .functionKw ∨ t.kind = .keyword .constKw }

/-- One or more things with commas between them. -/
structure CommaList (α : Type) where
  head : α
  tail : List (TokenOf .comma × α)

namespace CommaList

variable {α : Type}

/-- The things in order. -/
def toList (l : CommaList α) : List α :=
  l.head :: l.tail.map Prod.snd

/-- The tokens of the list, from those of its things. -/
def tokens (f : α → List Token) (l : CommaList α) : List Token :=
  f l.head ++ l.tail.flatMap fun x => x.1.1 :: f x.2

end CommaList

-- ---------------------------------------------------------------------------
-- Statements
-- ---------------------------------------------------------------------------

/-- Identifiers with separators between them. -/
structure NamePath where
  head : TokenOf .identifier
  tail : List (TokenOf .nsSeparator × TokenOf .identifier)

namespace NamePath

def tokens (p : NamePath) : List Token :=
  p.head.1 :: p.tail.flatMap fun x => [x.1.1, x.2.1]

/-- The last identifier. -/
def last (p : NamePath) : TokenOf .identifier :=
  (p.tail.getLast?.map Prod.snd).getD p.head

end NamePath

/-- One imported path, perhaps under another name. -/
structure UseClause where
  lead : Option (TokenOf .nsSeparator)
  path : NamePath
  newName : Option (TokenOf (.keyword .asKw) × TokenOf .identifier)

namespace UseClause

def tokens (c : UseClause) : List Token :=
  (c.lead.map Subtype.val).toList ++ c.path.tokens ++
    (c.newName.map fun x => [x.1.1, x.2.1]).getD []

/-- The name that the clause binds: the alias, or else the end of the path. -/
def boundName (c : UseClause) : String :=
  ((c.newName.map Prod.snd).getD c.path.last).1.text

end UseClause

/-- A clause inside a group. -/
structure GroupMember where
  marker : Option Marker
  clause : UseClause

def GroupMember.tokens (m : GroupMember) : List Token :=
  (m.marker.map Subtype.val).toList ++ m.clause.tokens

/-- Several clauses that begin with the same path. -/
structure UseGroup where
  path : NamePath
  separator : TokenOf .nsSeparator
  opened : TokenOf .lBrace
  members : CommaList GroupMember
  trailing : Option (TokenOf .comma)
  closed : TokenOf .rBrace

def UseGroup.tokens (g : UseGroup) : List Token :=
  g.path.tokens ++ [g.separator.1, g.opened.1] ++ g.members.tokens GroupMember.tokens ++
    (g.trailing.map Subtype.val).toList ++ [g.closed.1]

/-- What a `use` statement lists. -/
inductive UseItem where
  | clause (c : UseClause)
  | group (g : UseGroup)

namespace UseItem

def tokens : UseItem → List Token
  | clause c => c.tokens
  | group g => g.tokens

def boundNames : UseItem → List String
  | clause c => [c.boundName]
  | group g => g.members.toList.map fun m => m.clause.boundName

end UseItem

/-- A `use` statement. -/
structure UseStmt where
  word : TokenOf (.keyword .useKw)
  marker : Option Marker
  items : CommaList UseItem
  stop : TokenOf .semicolon

namespace UseStmt

/-- The tokens between the `use` and the `;`. -/
def listTokens (i : UseStmt) : List Token :=
  (i.marker.map Subtype.val).toList ++ i.items.tokens UseItem.tokens

/-- The tokens before the `;`. -/
def openTokens (i : UseStmt) : List Token :=
  i.word.1 :: i.listTokens

def tokens (i : UseStmt) : List Token :=
  i.openTokens ++ [i.stop.1]

/-- The names that the statement binds, in order. -/
def boundNames (i : UseStmt) : List String :=
  i.items.toList.flatMap UseItem.boundNames

end UseStmt

-- ---------------------------------------------------------------------------
-- Units
-- ---------------------------------------------------------------------------

/-- Whether tokens may stand in a plain statement or before the brace of a plain block, after a
token of kind `before`; `inCode` says whether they stand inside a plain block. -/
def isPlainAfter (inCode : Bool) (before : Option Kind) : List Token → Bool
  | [] => true
  | t :: ts =>
    t.isMeaningful && t.kind ≠ .lBrace && t.kind ≠ .rBrace && t.kind ≠ .semicolon &&
      (t.kind ≠ .keyword .namespaceKw || ts.head?.any (·.kind = .nsSeparator)) &&
      (t.kind ≠ .keyword .useKw || inCode || before = some .rParen) &&
      isPlainAfter inCode (some t.kind) ts

/-- Tokens of a plain statement, or before the brace of a plain block. -/
abbrev Plain (inCode : Bool) : Type :=
  { ts : List Token // isPlainAfter inCode none ts = true }

/-- Elements of a unit, one after another; `inCode` says whether they stand inside a plain
block. -/
inductive Elements : Bool → Type
  | nil {inCode : Bool} : Elements inCode
  | useStmt {inCode : Bool} (stmt : UseStmt) (rest : Elements inCode) : Elements inCode
  | namespaceDecl {inCode : Bool} (word : TokenOf (.keyword .namespaceKw)) (path : NamePath)
      (stop : TokenOf .semicolon) (rest : Elements inCode) : Elements inCode
  | namespaceBlock {inCode : Bool} (word : TokenOf (.keyword .namespaceKw)) (path : Option NamePath)
      (opened : TokenOf .lBrace) (body : Elements inCode) (closed : TokenOf .rBrace)
      (rest : Elements inCode) : Elements inCode
  | plainStmt {inCode : Bool} (plain : Plain inCode) (stop : TokenOf .semicolon)
      (rest : Elements inCode) : Elements inCode
  | plainBlock {inCode : Bool} (header : Plain inCode) (opened : TokenOf .lBrace)
      (body : Elements true) (closed : TokenOf .rBrace) (rest : Elements inCode) :
      Elements inCode

namespace Elements

def tokens {inCode : Bool} : Elements inCode → List Token
  | nil => []
  | useStmt stmt rest => stmt.tokens ++ rest.tokens
  | namespaceDecl word path stop rest => (word.1 :: path.tokens) ++ stop.1 :: rest.tokens
  | namespaceBlock word path opened body closed rest =>
    (word.1 :: (path.map NamePath.tokens).getD []) ++
      opened.1 :: (body.tokens ++ closed.1 :: rest.tokens)
  | plainStmt plain stop rest => plain.1 ++ stop.1 :: rest.tokens
  | plainBlock header opened body closed rest =>
    header.1 ++ opened.1 :: (body.tokens ++ closed.1 :: rest.tokens)

/-- The `use` statements that do not stand inside a plain block, each with the tokens of the
unit before its `;`; the elements come after the tokens `before`. -/
def importsAfter {inCode : Bool} (before : List Token) :
    Elements inCode → List (List Token × UseStmt)
  | nil => []
  | useStmt stmt rest =>
    (if inCode then [] else [(before ++ stmt.openTokens, stmt)]) ++
      rest.importsAfter (before ++ stmt.tokens)
  | namespaceDecl word path stop rest =>
    rest.importsAfter (before ++ (word.1 :: path.tokens ++ [stop.1]))
  | namespaceBlock word path opened body closed rest =>
    let head := before ++ (word.1 :: (path.map NamePath.tokens).getD [] ++ [opened.1])
    body.importsAfter head ++ rest.importsAfter (head ++ (body.tokens ++ [closed.1]))
  | plainStmt plain stop rest => rest.importsAfter (before ++ (plain.1 ++ [stop.1]))
  | plainBlock header opened body closed rest =>
    let head := before ++ (header.1 ++ [opened.1])
    body.importsAfter head ++ rest.importsAfter (head ++ (body.tokens ++ [closed.1]))

end Elements

/-- A unit: the opening tag, and elements after it. -/
structure SourceUnit where
  tag : TokenOf .openTag
  body : Elements false

namespace SourceUnit

def tokens (u : SourceUnit) : List Token :=
  u.tag.1 :: u.body.tokens

/-- The imports of the unit, in order, each with the tokens before its `;`. -/
def imports (u : SourceUnit) : List (List Token × UseStmt) :=
  u.body.importsAfter [u.tag.1]

end SourceUnit

end PhpImports
