import PhpImports.Token.Kind

/-!
# PhpImports — tokens

A token is a kind with the text it covers. The text is kept whole, so a list of
tokens can be written back without loss.

* `Token.isMeaningful` — the tokens that the scans for names see.
* `sourceText` — the texts of a list of tokens, joined.
-/

namespace PhpImports

/-- A lexical unit with the text it covers. -/
structure Token where
  kind : Kind
  text : String
  deriving DecidableEq

namespace Token

/-- Whitespace or a comment. -/
def isTrivia (t : Token) : Bool :=
  t.kind.isTrivia

/-- A token that the scans for names see. -/
def isMeaningful (t : Token) : Bool :=
  t.kind.isMeaningful

end Token

/-- The texts of the tokens, joined in order. -/
def sourceText (ts : List Token) : String :=
  String.ofList (ts.flatMap (·.text.toList))

/-- The tokens that are neither whitespace nor comments. -/
def meaningful (ts : List Token) : List Token :=
  ts.filter Token.isMeaningful

@[simp] theorem sourceText_nil : sourceText [] = "" := rfl

theorem toList_sourceText (ts : List Token) :
    (sourceText ts).toList = ts.flatMap (·.text.toList) := by
  simp [sourceText]

@[simp] theorem sourceText_append (ts us : List Token) :
    sourceText (ts ++ us) = sourceText ts ++ sourceText us := by
  simp [sourceText, String.ofList_append]

@[simp] theorem meaningful_append (ts us : List Token) :
    meaningful (ts ++ us) = meaningful ts ++ meaningful us := by
  simp [meaningful]

end PhpImports
