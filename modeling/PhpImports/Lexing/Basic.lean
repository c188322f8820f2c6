import PhpImports.Lexing.LongestMatch
import PhpImports.Lexing.Heredoc
import PhpImports.Lexing.Markup
import PhpImports.Lexing.NamePosition
import PhpImports.Token.Sequence

/-!
# PhpImports — from source text to tokens

The lexer walks over the source in two modes. In markup it takes everything up to the
next open tag as one token. In code it takes the longest match of the rules: a heredoc
opener goes on through its body, a close tag takes a line break with it and leads back
to markup, and where no rule matches, an error token covers what the rules could
follow. Reserved words in name position are then turned into identifiers.

* `codeLexeme`, `lexeme` — kind and length of the next token.
* `lexemes` — the tokens by the rules alone.
* `tokenize` — the tokens of a source.
* `TokenSeq.ofSource` — a source as a token sequence.
* `flatMap_text_lexemesFrom` — no character is lost or made up.
-/

namespace PhpImports

/-- Whether the lexer is outside or inside the tags. -/
inductive Mode where
  | markup
  | code
  deriving DecidableEq

/-- The mode after a token: a close tag leads to markup, everything else to code. -/
def Mode.after (k : Kind) : Mode :=
  if k = .closeTag then .markup else .code

/-- Kind of a block comment: one that starts with `/**` and is longer than `/**/` documents
what follows. -/
def commentKind (text : List Char) : Kind :=
  if "/**".toList.isPrefixOf text && 4 < (String.ofList text).utf8ByteSize then .docComment
  else .blockComment

/-- Kind and length of the token at the beginning of code. -/
def codeLexeme (cs : List Char) : Kind × Nat :=
  let reading := longestMatch cs
  match reading.longest with
  -- A character that no rule begins with is an error of its own.
  | none => (.error, max 1 reading.reach)
  | some (.comment, n) => (commentKind (cs.take n), n)
  | some (.heredoc, n) =>
    (.constantString, n + heredocBodyLength (heredocLabel (cs.take n)) true (cs.drop n))
  | some (.token .closeTag, n) => (.closeTag, n + lineBreakLength (cs.drop n))
  | some (.token k, n) => (k, n)

/-- Kind and length of the token at the beginning of a text. Markup without any text before
the next open tag is no token, so code begins at once. -/
def lexeme (mode : Mode) (cs : List Char) : Kind × Nat :=
  match mode with
  | .code => codeLexeme cs
  | .markup =>
    match markupLength cs with
    | 0 => codeLexeme cs
    | n => (.inlineHtml, n)

/-- The tokens of a text by the rules alone; `skip` characters of it belong to the token
before it. -/
def lexemesFrom (mode : Mode) : Nat → List Char → List Token
  | _, [] => []
  | skip + 1, _ :: cs => lexemesFrom mode skip cs
  | 0, c :: cs =>
    let (k, n) := lexeme mode (c :: cs)
    -- The first of the `n` characters is behind us.
    ⟨k, String.ofList ((c :: cs).take n)⟩ :: lexemesFrom (Mode.after k) (n - 1) cs

/-- The tokens of a text by the rules alone, from the beginning of a source. -/
def lexemes (cs : List Char) : List Token :=
  lexemesFrom .markup 0 cs

/-- The tokens of a source. -/
def tokenize (source : String) : List Token :=
  resolveNames (lexemes source.toList)

/-- The token sequence of a source. -/
def TokenSeq.ofSource (source : String) : TokenSeq :=
  .ofList (tokenize source)

/-! ## Tokens cover the text -/

theorem one_le_codeLexeme (cs : List Char) : 1 ≤ (codeLexeme cs).2 := by
  unfold codeLexeme
  dsimp only
  split
  · exact Nat.le_max_left _ _
  all_goals
    next heq =>
      have h := one_le_longestMatch heq
      dsimp only at h ⊢
      omega

/-- Every token has a character at least. -/
theorem one_le_lexeme (mode : Mode) (c : Char) (cs : List Char) :
    1 ≤ (lexeme mode (c :: cs)).2 := by
  unfold lexeme
  split
  · exact one_le_codeLexeme _
  · split
    · exact one_le_codeLexeme _
    · next h => exact Nat.one_le_iff_ne_zero.2 h

/-- The texts of the tokens make up the text that was still to be read. -/
theorem flatMap_text_lexemesFrom (mode : Mode) (skip : Nat) (cs : List Char) :
    (lexemesFrom mode skip cs).flatMap (·.text.toList) = cs.drop skip := by
  induction cs generalizing mode skip with
  | nil => simp [lexemesFrom]
  | cons c cs ih =>
    cases skip with
    | succ k => simp [lexemesFrom, ih]
    | zero =>
      have h := one_le_lexeme mode c cs
      rw [lexemesFrom]
      obtain ⟨n, hn⟩ : ∃ n, (lexeme mode (c :: cs)).2 = n + 1 :=
        ⟨_, (Nat.sub_add_cancel h).symm⟩
      simp [hn, ih]

end PhpImports
