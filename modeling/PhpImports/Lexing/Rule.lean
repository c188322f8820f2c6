import PhpImports.Lexing.Pattern
import PhpImports.Text.Letter
import PhpImports.Token.Kind

/-!
# PhpImports — the lexer's rules

What code is made of: a table of patterns, each with the category of the texts it
matches. Fixed texts come before open-ended patterns, so that a reserved word wins
over a word of the same length.

* `literalRules` — reserved words, tags, punctuation and operators.
* `openRules` — blanks, comments, names, numbers, strings and heredoc openers.
* `rules` — the whole table, in order of preference.
-/

namespace PhpImports

/-- What a text matched by a rule is. -/
inductive Category where
  /-- A token of a fixed kind. -/
  | token (kind : Kind)
  /-- A comment between `/*` and `*/`. -/
  | comment
  /-- The first line of a heredoc or nowdoc, whose body is still to be read. -/
  | heredoc
  deriving DecidableEq

/-- A pattern with the category of the texts it matches. -/
structure Rule where
  category : Category
  pattern : Pattern

namespace Pattern

/-! ## Open-ended patterns -/

/-- At least one digit. -/
def digits : Pattern :=
  plus (one Char.isDigit)

/-- A word: an ASCII letter or an underscore, then letters, digits and underscores. -/
def name : Pattern :=
  seq (one isWordStart) (star (one isWordChar))

/-- The rest of a line. -/
def restOfLine : Pattern :=
  star (one (· != '\n'))

/-- A comment that ends at the first `*/` after its opening. -/
def blockComment : Pattern :=
  seq (exactly "/*") <|
  seq (star (alt (one (· != '*')) (seq (plus (char '*')) (one fun c => c != '*' && c != '/')))) <|
  seq (plus (char '*')) (char '/')

/-- An exponent: a mark, a sign if wanted, and digits. -/
def exponent : Pattern :=
  seq (one fun c => c == 'e' || c == 'E') (seq (opt (one fun c => c == '+' || c == '-')) digits)

/-- A decimal point with digits after it and perhaps before it, and perhaps an exponent. -/
def pointed : Pattern :=
  seq (star (one Char.isDigit)) (seq (char '.') (seq digits (opt exponent)))

/-- An integer in base sixteen. -/
def hexadecimal : Pattern :=
  seq (char '0') (seq (one fun c => c == 'x' || c == 'X') (plus (one isHexDigit)))

/-- An integer in base two. -/
def binary : Pattern :=
  seq (char '0') <|
  seq (one fun c => c == 'b' || c == 'B') (plus (one fun c => c == '0' || c == '1'))

/-- A pattern between two equal marks. -/
def enclosed (mark : Char) (q : Pattern) : Pattern :=
  seq (char mark) (seq q (char mark))

/-- A string between two marks, in which a backslash takes the next character with it. -/
def quoted (mark : Char) : Pattern :=
  enclosed mark <|
  star (alt (one fun c => c != mark && c != '\\') (seq (char '\\') (one fun _ => true)))

/-- The first line of a heredoc: `<<<`, a label that may stand in quotes, and a line break. -/
def heredocOpener : Pattern :=
  seq (exactly "<<<") <|
  seq (star (one isIndent)) <|
  seq (alt name (alt (enclosed '\x22' name) (enclosed '\x27' name))) <|
  seq (opt (char '\r')) (char '\n')

end Pattern

namespace Rule

open Pattern

/-! ## Fixed texts -/

/-- A text in which letters may stand in either case. -/
def folded (k : Kind) (s : String) : Rule :=
  ⟨.token k, word (s.toList.map fun l c => foldsTo c l)⟩

/-- A text that has to be written exactly so. -/
def literal (k : Kind) (s : String) : Rule :=
  ⟨.token k, exactly s⟩

/-- The tags around code. -/
def tags : List Rule :=
  [folded .openTag "<?php", literal .openTagWithEcho "<?=", literal .closeTag "?>"]

/-- The reserved words. -/
def keywords : List Rule :=
  Keyword.all.map fun w => folded (.keyword w) w.spelling

/-- Punctuation and the operators with a kind of their own. -/
def punctuation : List Rule :=
  [literal .lParen "(", literal .rParen ")", literal .lBrace "\x7b", literal .rBrace "\x7d",
    literal .lBracket "[", literal .rBracket "]", literal .semicolon ";", literal .colon ":",
    literal .doubleColon "::", literal .nsSeparator "\\", literal .comma ",",
    literal .question "?", literal .pipe "|", literal .ampersand "&", literal .ellipsis "...",
    literal .objectOperator "->", literal .nullsafeObjectOperator "?->",
    literal .doubleArrow "=>", literal .eq "=", literal .dollar "$"]

/-- Every other operator. -/
def operators : List Rule :=
  ["===", "!==", "==", "!=", "<>", "<=>", "<=", ">=", "&&", "||", "??=", "??", "++", "--", "+=",
    "-=", "*=", "/=", ".=", "%=", "**=", "**", "<<=", ">>=", "<<", ">>", "&=", "|=", "^=", "+",
    "-", "*", "/", "%", ".", "<", ">", "!", "~", "^", "@"].map (literal .operator)

end Rule

open Rule Pattern

/-! ## The table -/

/-- The rules for fixed texts. -/
def literalRules : List Rule :=
  tags ++ keywords ++ punctuation ++ operators

/-- The rules for open-ended texts. -/
def openRules : List Rule :=
  [⟨.token .whitespace, plus (one isLayout)⟩,
    ⟨.token .lineComment, seq (exactly "//") restOfLine⟩,
    ⟨.token .lineComment, seq (exactly "#") restOfLine⟩,
    ⟨.comment, blockComment⟩,
    ⟨.token .variable, seq (char '$') name⟩,
    ⟨.token .lNumber, digits⟩,
    ⟨.token .lNumber, hexadecimal⟩,
    ⟨.token .lNumber, binary⟩,
    ⟨.token .dNumber, pointed⟩,
    ⟨.token .dNumber, seq digits exponent⟩,
    ⟨.token .constantString, quoted '\x22'⟩,
    ⟨.token .constantString, quoted '\x27'⟩,
    ⟨.token .constantString, quoted '\x60'⟩,
    ⟨.heredoc, heredocOpener⟩,
    ⟨.token .identifier, name⟩]

/-- All rules; of two that match a text, the earlier one names its category. -/
def rules : List Rule :=
  literalRules ++ openRules

end PhpImports
