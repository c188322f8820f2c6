import PhpImports.Token.Keyword

/-!
# PhpImports — token kinds

Every token has a kind. Whitespace and comments are trivia: no scan for names
looks at them. The kinds have a fixed order, which numbers them from zero.

* `Kind.all`, `Kind.ordinal` — the order of the kinds.
* `Kind.name`, `Kind.ofName?` — the reported names and back.
* `Kind.isTrivia`, `Kind.isMeaningful` — what the scans skip and what they see.
* `Kind.isStatementBoundary` — the kinds after which a statement may begin.
-/

namespace PhpImports

/-- What a token is. -/
inductive Kind where
  /-- Spaces, tabs and line breaks. -/
  | whitespace
  /-- A comment to the end of the line. -/
  | lineComment
  /-- A comment between `/*` and `*/`. -/
  | blockComment
  /-- A block comment that starts with `/**`. -/
  | docComment
  /-- The tag that opens code. -/
  | openTag
  /-- The tag `<?=`. -/
  | openTagWithEcho
  /-- The tag `?>` with one line break after it, if there is one. -/
  | closeTag
  /-- Text outside the tags. -/
  | inlineHtml
  /-- A word after a dollar sign. -/
  | variable
  /-- A word that is not reserved, or is reserved but stands where a name is expected. -/
  | identifier
  /-- An integer. -/
  | lNumber
  /-- A number with a fraction or an exponent. -/
  | dNumber
  /-- A quoted string, heredoc or nowdoc as a whole. -/
  | constantString
  | lParen
  | rParen
  | lBrace
  | rBrace
  | lBracket
  | rBracket
  | semicolon
  | colon
  | doubleColon
  | nsSeparator
  | comma
  | question
  | pipe
  | ampersand
  | ellipsis
  | objectOperator
  | nullsafeObjectOperator
  | doubleArrow
  | eq
  | dollar
  /-- Every operator without a kind of its own. -/
  | operator
  /-- A reserved word. -/
  | keyword (word : Keyword)
  /-- Text that no rule of the lexer accepts. -/
  | error
  deriving DecidableEq

namespace Kind

/-- The kinds before the reserved words. -/
def plain : List Kind :=
  [.whitespace, .lineComment, .blockComment, .docComment, .openTag, .openTagWithEcho,
   .closeTag, .inlineHtml, .variable, .identifier, .lNumber, .dNumber, .constantString,
   .lParen, .rParen, .lBrace, .rBrace, .lBracket, .rBracket, .semicolon, .colon, .doubleColon,
   .nsSeparator, .comma, .question, .pipe, .ampersand, .ellipsis, .objectOperator,
   .nullsafeObjectOperator, .doubleArrow, .eq, .dollar, .operator]

/-- All kinds in their fixed order. -/
def all : List Kind :=
  plain ++ Keyword.all.map keyword ++ [error]

/-- The place of a kind in the fixed order. -/
def ordinal : Kind → Nat
  | keyword w => 34 + w.ctorIdx
  | error => 79
  | k => k.ctorIdx

/-- The reported name of a kind. -/
def name : Kind → String
  | .whitespace => "Whitespace"
  | .lineComment => "LineComment"
  | .blockComment => "BlockComment"
  | .docComment => "DocComment"
  | .openTag => "OpenTag"
  | .openTagWithEcho => "OpenTagWithEcho"
  | .closeTag => "CloseTag"
  | .inlineHtml => "InlineHtml"
  | .variable => "Variable"
  | .identifier => "Identifier"
  | .lNumber => "LNumber"
  | .dNumber => "DNumber"
  | .constantString => "ConstantString"
  | .lParen => "LParen"
  | .rParen => "RParen"
  | .lBrace => "LBrace"
  | .rBrace => "RBrace"
  | .lBracket => "LBracket"
  | .rBracket => "RBracket"
  | .semicolon => "Semicolon"
  | .colon => "Colon"
  | .doubleColon => "DoubleColon"
  | .nsSeparator => "NsSeparator"
  | .comma => "Comma"
  | .question => "Question"
  | .pipe => "Pipe"
  | .ampersand => "Ampersand"
  | .ellipsis => "Ellipsis"
  | .objectOperator => "ObjectOperator"
  | .nullsafeObjectOperator => "NullsafeObjectOperator"
  | .doubleArrow => "DoubleArrow"
  | .eq => "Eq"
  | .dollar => "Dollar"
  | .operator => "Operator"
  | .keyword w => w.name
  | .error => "Error"

/-- The kind of a reported name. -/
def ofName? (s : String) : Option Kind :=
  all.find? (·.name == s)

/-- Whitespace and comments. -/
def isTrivia : Kind → Bool
  | whitespace | lineComment | blockComment | docComment => true
  | _ => false

/-- Everything but whitespace and comments. -/
def isMeaningful (k : Kind) : Bool :=
  !k.isTrivia

/-- Reserved words that stand as such. -/
def isKeyword : Kind → Bool
  | keyword _ => true
  | _ => false

/-- The words that open the declaration of a class-like type. -/
def isTypeDeclaration : Kind → Bool
  | keyword .classKw | keyword .interfaceKw | keyword .traitKw => true
  | _ => false

/-- The kinds after which a new statement may begin. -/
def isStatementBoundary : Kind → Bool
  | semicolon | lBrace | rBrace | openTag | closeTag => true
  | _ => false

theorem all_getElem?_ordinal (k : Kind) : all[k.ordinal]? = some k := by
  cases k with
  | keyword w => cases w <;> rfl
  | _ => rfl

theorem mem_all (k : Kind) : k ∈ all :=
  List.mem_of_getElem? (all_getElem?_ordinal k)

/-- Kinds with the same place are the same. -/
theorem ordinal_inj {j k : Kind} (h : j.ordinal = k.ordinal) : j = k := by
  have hj := all_getElem?_ordinal j
  rw [h, all_getElem?_ordinal k] at hj
  exact (Option.some.inj hj).symm

instance : Ord Kind where
  compare j k := compare j.ordinal k.ordinal

theorem compare_eq (j k : Kind) : compare j k = compare j.ordinal k.ordinal := rfl

instance : Std.TransOrd Kind where
  eq_swap := by intro j k; simp only [compare_eq]; exact Std.OrientedCmp.eq_swap
  isLE_trans := by intro i j k; simp only [compare_eq]; exact Std.TransCmp.isLE_trans

instance : Std.LawfulEqOrd Kind where
  eq_of_compare h := ordinal_inj (Nat.compare_eq_eq.1 h)

end Kind

end PhpImports
