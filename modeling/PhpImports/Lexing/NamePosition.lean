import PhpImports.Token.Basic

/-!
# PhpImports — reserved words as names

A reserved word is an ordinary name after `->` and `?->`, after `::` (only `class`
keeps its meaning there), and as the name of a function, with or without `&` before
it. Whether a word stands in such a position depends on the tokens before it, trivia
left out.

* `Preceding` — what has to be known of the tokens before a position.
* `resolveNames` — turns the reserved words in name position into identifiers.
-/

namespace PhpImports

/-- What is known of the tokens before a position. -/
structure Preceding where
  /-- Kind of the last token that is not trivia. -/
  last : Option Kind := none
  /-- Whether the tokens before end in `function`, perhaps with ampersands after it. -/
  function : Bool := false
  deriving DecidableEq

namespace Preceding

/-- Whether the reserved word `w` is a name here. -/
def expectsName (p : Preceding) (w : Keyword) : Bool :=
  match p.last with
  | some .doubleColon => w ≠ .classKw
  | some .objectOperator | some .nullsafeObjectOperator => true
  | _ => p.function

/-- The kind of a token in its position. -/
def resolve (p : Preceding) : Kind → Kind
  | .keyword w => if p.expectsName w then .identifier else .keyword w
  | k => k

/-- What is known after one more token, of kind `k` in its position. -/
def push (p : Preceding) (k : Kind) : Preceding :=
  if k.isTrivia then p
  else
    { last := some k
      function := k = .keyword .functionKw || (k = .ampersand && p.function) }

end Preceding

/-- Resolves the kinds of tokens, one after another. -/
def resolveNamesAfter (p : Preceding) : List Token → List Token
  | [] => []
  | t :: ts =>
    let k := p.resolve t.kind
    ⟨k, t.text⟩ :: resolveNamesAfter (p.push k) ts

/-- Turns the reserved words that stand in name position into identifiers. -/
def resolveNames (ts : List Token) : List Token :=
  resolveNamesAfter {} ts

/-- Texts stay as they are. -/
theorem map_text_resolveNamesAfter (p : Preceding) (ts : List Token) :
    (resolveNamesAfter p ts).map Token.text = ts.map Token.text := by
  induction ts generalizing p with
  | nil => rfl
  | cons t ts ih => simp [resolveNamesAfter, ih]

end PhpImports
